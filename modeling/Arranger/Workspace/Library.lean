import Arranger.Workspace.Basic
import Arranger.Yaml.Value
import Arranger.Yaml.Write

/-!
# The library of arrangements

An arrangement is asked for by name.  Its working copy answers, or else the file of the name, which
is then read and becomes a working copy under the name that it gives itself.  Saving writes the
file of the name of the arrangement.  An arrangement that was read may have a broken name, under
which it cannot be saved: the names of files are texts.
-/

namespace Arranger.Library

def fileSuffix : String := ".arrangement.yaml"

/-- Spaces and slashes do not stand in file names. -/
def fileNameChar (c : Char) : Char := if c = ' ' || c = '/' then '_' else c

def fileName (name : String) : String :=
  String.ofList (name.toList.map fileNameChar) ++ fileSuffix

def pathOf (w : Workspace) (name : String) : Path := w.arrangements.join (fileName name)

/-- A text in which every line ends with a line feed. -/
def withLineFeeds : List Char → List Char
  | [] => []
  | '\r' :: '\n' :: rest => '\n' :: withLineFeeds rest
  | c :: rest => (if c = '\r' then '\n' else c) :: withLineFeeds rest

/-! ## Reading and writing -/

/-- The value of the document in a file, which is decoded as a whole. -/
def readDocument (content : Content) : Except Yaml.Error Datum := do
  let text ← content.decode.mapError .undecodable
  Yaml.read (String.ofList (withLineFeeds text.toList))

/-- The arrangement of a document that was read from a file. -/
def fromDocument (p : Path) (content : Content) : Except Fault Arrangement := do
  let document ← (readDocument content).mapError (.document p.text)
  Arrangement.ofDatum document

/-- Reads the file of an arrangement, which becomes a working copy. -/
def load (p : Path) : Action Arrangement := do
  let (content, _) ← Action.inspectFiles (·.read p)
  let a ← Action.ofExcept (fromDocument p content)
  Action.change (·.hold a)
  return a

def get? (name : String) : Action (Option Arrangement) := do
  let w ← Action.current
  match w.workingCopy? name with
  | some a => return some a
  | none =>
      let p := pathOf w name
      if ← Action.inspectFiles (·.has p) then some <$> load p else return none

/-- The arrangement of a name, which must be there. -/
def require (name : String) : Action Arrangement := do
  match ← get? name with
  | some a => return a
  | none => Action.fail (.missing .arrangement name)

/-- The path of the file of a name.  The fault of a broken name tells its place in the path. -/
def savePath (w : Workspace) : Label → Except Fault Path
  | .text name => .ok (pathOf w name)
  | .broken t =>
      let start := (pathOf w t.front).text.length - fileSuffix.length
      .error (.encoding { Text.unwritable t with start })

/-- Writes the file of an arrangement, which becomes a working copy. -/
def save (a : Arrangement) : Action Path := do
  let w ← Action.current
  Action.changeFiles (·.makeDirectories w.arrangements)
  let p ← Action.ofExcept (savePath w a.name)
  Action.writeFile p (.text (Yaml.write a.datum))
  Action.change (·.hold a)
  return p

/-- Drops the working copy and the file of a name; tells whether there was one of them. -/
def delete (name : String) : Action Bool := do
  let w ← Action.current
  let wasHeld := (w.workingCopy? name).isSome
  Action.change (·.dropCopy name)
  let p := pathOf w name
  if ← Action.inspectFiles (·.has p) then
    Action.changeFiles (·.remove p)
    return true
  else return wasHeld

/-! ## Making and editing -/

/-- The name for a new arrangement; it must be a text. -/
def readName (name : Datum) : Except Fault Label :=
  let head := (Arrangement.readHead (.record [("name", name)])).titled Arrangement.title
  Arrangement.ofRejection (head.map (·.2))

def create (name : Datum) : Action Arrangement := do
  let a := Arrangement.new (← Action.ofExcept (readName name))
  Action.change (·.hold a)
  return a

/-- A copy of an arrangement under another name. -/
def duplicate (name : String) (newName : Datum) : Action Arrangement := do
  let source ← require name
  let a := { source with name := ← Action.ofExcept (readName newName) }
  Action.change (·.hold a)
  return a

/-- Changes the working copy of a name, or fails and leaves it as it is. -/
def edit (name : String) (f : Arrangement → Except Fault Arrangement) : Action Arrangement := do
  let source ← require name
  let a ← Action.ofExcept (f source)
  Action.change (·.hold a)
  return a

def orMissing {α : Type} (entity : Entity) (name : String) : Option α → Except Fault α
  | some a => .ok a
  | none => .error (.missing entity name)

def addClip (name : String) (clip : Clip) : Action Arrangement :=
  edit name fun a => .ok (a.addClip clip)

def removeClip (name clip : String) : Action Arrangement :=
  edit name fun a => orMissing .clip clip (a.removeClip? clip)

def addTrack (name : String) (track : Except Fault Track) : Action Arrangement :=
  edit name fun a => do return a.addTrack (← track)

def appendClip (name track : String) (clip : Label) : Action Arrangement :=
  edit name fun a => orMissing .track track (a.appendClip? track clip)

def removeTrack (name track : String) : Action Arrangement :=
  edit name fun a => orMissing .track track (a.removeTrack? track)

/-! ## Listing -/

/-- What a list tells of a saved arrangement. -/
structure Listing where
  name : Datum
  clips : Nat
  tracks : Nat
  stamp : Nat

def Listing.text (l : Listing) : String :=
  s!"ArrangementMetadata({l.name.shown}, {l.clips} clips, {l.tracks} tracks)"

/-- A file name without its last ending. -/
def stem (name : String) : String :=
  let chars := name.toList
  let front := (chars.reverse.dropWhile (· != '.')).drop 1
  if front.isEmpty || chars.getLast? = some '.' then name else String.ofList front.reverse

def lengthOf (fields : List (Datum × Datum)) (key : String) : Except Fault Nat :=
  ((Datum.lookup fields key).getD (.list [])).length.mapError .shape

def listing (fileName : String) (stamp : Nat) (fields : List (Datum × Datum)) :
    Except Fault Listing := do
  let name := (Datum.lookup fields "name").getD (.text (stem fileName))
  return ⟨name, ← lengthOf fields "clips", ← lengthOf fields "tracks", stamp⟩

/-- What a list tells of a file; one that holds no document or no map is warned of. -/
def listFile (files : FileTree) (directory : Path) (name : String) : Outcome (Option Listing) :=
  let p := directory.join name
  match files.read p with
  | .error _ => ⟨[.unreadableFile p.text], .ok none⟩
  | .ok (content, stamp) => match readDocument content with
    | .error (.problem _) => ⟨[.unreadableFile p.text], .ok none⟩
    | .error other => .fail (.document p.text other)
    | .ok d => match d.view with
      | .map fields => .of (some <$> listing name stamp fields)
      | _ => ⟨[.noMapping p.text], .ok none⟩

def listFiles (files : FileTree) (directory : Path) : List String → Outcome (List Listing)
  | [] => .value []
  | name :: rest =>
      (listFile files directory name).andThen fun found =>
        (listFiles files directory rest).andThen fun more => .value (found.toList ++ more)

/-- The names of the files that hold arrangements. -/
def arrangementFiles (files : FileTree) (directory : Path) : List String :=
  (files.namesIn directory).filter fun name => fileSuffix.toList.isSuffixOf name.toList

/-- The saved arrangements, those that were written last in front. -/
def list (w : Workspace) : Outcome (List Listing) :=
  (listFiles w.files w.arrangements (arrangementFiles w.files w.arrangements)).andThen fun found =>
    .value (found.mergeSort fun a b => b.stamp ≤ a.stamp)

end Arranger.Library
