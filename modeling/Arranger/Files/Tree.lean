import Arranger.Files.Path
import Arranger.Text.Utf8

/-!
# Trees of files

A tree holds directories and files, each under the names that lead to it from the top.  A file has
a content and the stamp of its last writing.  Every operation either changes one entry or fails
with a reason that names the path.
-/

namespace Arranger

inductive Content where
  | text (s : String)
  | bytes (bs : List UInt8)
  deriving DecidableEq, Repr

namespace Content

def toBytes : Content → List UInt8
  | text s => s.toUTF8.toList
  | bytes bs => bs

/-- The text of a content; bytes that are no text have none. -/
def toText? : Content → Option String
  | text s => some s
  | bytes bs => String.fromUTF8? (ByteArray.mk bs.toArray)

/-- The text of a content that is read as one. -/
def decode (content : Content) : Except Text.DecodingError String :=
  match content.toText? with
  | some s => .ok s
  | none => .error (Text.decodingError content.toBytes)

end Content

inductive Entry where
  | directory
  | file (content : Content) (stamp : Nat)
  deriving DecidableEq, Repr

/-- The names that lead from the top to an entry. -/
abbrev Place := List String

structure FileTree where
  entries : List (Place × Entry)

namespace FileTree

def empty : FileTree := ⟨[]⟩

/-- The entry at a place; the top is a directory. -/
def at? (t : FileTree) (place : Place) : Option Entry :=
  if place = [] then some .directory else t.entries.lookup place

def put (t : FileTree) (place : Place) (entry : Entry) : FileTree :=
  ⟨t.entries.filter (·.1 != place) ++ [(place, entry)]⟩

def erase (t : FileTree) (place : Place) : FileTree := ⟨t.entries.filter (·.1 != place)⟩

def isDirectoryAt (t : FileTree) (place : Place) : Bool := t.at? place = some .directory

/-! ## Following paths -/

def nameLimit : Nat := 255

/-- Follows parts from a place.  All but the last of them must lead to directories. -/
def walk (t : FileTree) : Place → List String → Except (String → FileError) Place
  | here, [] => .ok here
  | here, part :: rest =>
      match t.at? here with
      | none => .error .notFound
      | some (.file _ _) => .error .notDirectory
      | some .directory =>
          if part = ".." then t.walk here.dropLast rest
          else if nameLimit < part.utf8ByteSize then .error .nameTooLong
          else t.walk (here ++ [part]) rest

/-- The place that a path leads to; an entry need not be there. -/
def locate (t : FileTree) (p : Path) : Except FileError Place :=
  if p.hasNull then .error .nullCharacter
  else match t.walk p.base p.parts with
    | .ok place => .ok place
    | .error reason => .error (reason p.text)

/-- Whether a path leads to an entry.  Only a name that is too long is a fault. -/
def has (t : FileTree) (p : Path) : Except FileError Bool :=
  match t.locate p with
  | .ok place => .ok (t.at? place).isSome
  | .error (.nameTooLong path) => .error (.nameTooLong path)
  | .error _ => .ok false

def isDirectory (t : FileTree) (p : Path) : Bool :=
  match t.locate p with
  | .ok place => t.isDirectoryAt place
  | .error _ => false

/-! ## Directories -/

/-- Makes a directory in a directory that is there. -/
def makeDirectory (t : FileTree) (p : Path) : Except FileError FileTree := do
  let place ← t.locate p
  match t.at? place with
  | some _ => .error (.occupied p.text)
  | none => return t.put place .directory

/-- Makes a directory and those above it; one that is there already is taken as it is. -/
def makeDirectories (t : FileTree) (p : Path) : Except FileError FileTree :=
  go t p p.parts.length
where
  go (t : FileTree) (p : Path) : Nat → Except FileError FileTree
    | 0 => if t.isDirectory p then .ok t else t.makeDirectory p
    | depth + 1 =>
        match t.makeDirectory p with
        | .ok t => .ok t
        | .error (.notFound _) => do
            let t ← go t p.parent depth
            match t.makeDirectory p with
            | .ok t => .ok t
            | .error e => if t.isDirectory p then .ok t else .error e
        | .error .nullCharacter => .error .nullCharacter
        | .error e => if t.isDirectory p then .ok t else .error e

/-- The names in a directory; there are none in what is no directory. -/
def namesIn (t : FileTree) (p : Path) : List String :=
  match t.locate p with
  | .error _ => []
  | .ok place =>
      t.entries.filterMap fun (other, _) =>
        if other.length = place.length + 1 && other.take place.length = place then other.getLast?
        else none

/-! ## Files -/

/-- Writes a file, in place of the one that is there. -/
def write (t : FileTree) (p : Path) (content : Content) (stamp : Nat) :
    Except FileError FileTree := do
  let place ← t.locate p
  match t.at? place with
  | some .directory => .error (.isDirectory p.text)
  | _ => return t.put place (.file content stamp)

def read (t : FileTree) (p : Path) : Except FileError (Content × Nat) := do
  let place ← t.locate p
  match t.at? place with
  | some (.file content stamp) => return (content, stamp)
  | some .directory => .error (.isDirectory p.text)
  | none => .error (.notFound p.text)

def remove (t : FileTree) (p : Path) : Except FileError FileTree := do
  let place ← t.locate p
  match t.at? place with
  | some (.file _ _) => return t.erase place
  | some .directory => .error (.isDirectory p.text)
  | none => .error (.notFound p.text)

/-- The paths of all files below a place, in ascending order. -/
def filesBelow (t : FileTree) (place : Place) : List String :=
  let found := t.entries.filterMap fun (other, entry) => match entry with
    | .directory => none
    | .file _ _ =>
        if place.isPrefixOf other then some ("/".intercalate (other.drop place.length)) else none
  found.mergeSort fun a b => !(b < a)

/-! ## Entries -/

theorem lookup_filter_ne {β : Type} (entries : List (Place × β)) {a b : Place} (h : a ≠ b) :
    (entries.filter (·.1 != a)).lookup b = entries.lookup b := by
  induction entries with
  | nil => rfl
  | cons entry rest ih =>
      obtain ⟨place, x⟩ := entry
      by_cases heq : place = a
      · subst heq
        have hne : (b == place) = false := by simpa using fun hb => h hb.symm
        simp [List.lookup_cons, hne, ih]
      · simp [heq, List.lookup_cons, ih]

/-- Writing one place leaves all others as they are. -/
theorem at?_put_of_ne (t : FileTree) {place other : Place} (h : place ≠ other) (entry : Entry) :
    (t.put place entry).at? other = t.at? other := by
  simp only [at?, put]
  split
  · rfl
  · have hlookup : ((t.entries.filter (·.1 != place)) ++ [(place, entry)]).lookup other =
        (t.entries.filter (·.1 != place)).lookup other := by
      have hne : (other == place) = false := by simpa using fun hb => h hb.symm
      rw [List.lookup_append]
      simp [List.lookup_cons, hne]
    rw [hlookup, lookup_filter_ne _ h]

/-- Removing one place leaves all others as they are. -/
theorem at?_erase_of_ne (t : FileTree) {place other : Place} (h : place ≠ other) :
    (t.erase place).at? other = t.at? other := by
  simp only [at?, erase]
  split
  · rfl
  · exact lookup_filter_ne _ h

end FileTree

end Arranger
