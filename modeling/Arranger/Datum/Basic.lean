import Arranger.Decimal.Number
import Arranger.Text.Quoted

/-!
# Documents

A datum is a value that a document or a request can hold.  Maps keep the order of their entries;
two keys are the same if they are equal as values, and numbers are equal across their kinds.

Collections of a document can hold one another, or themselves.  Such a collection is given by its
number in a list of collections that refer to one another by their numbers.
-/

namespace Arranger

structure Date where
  year : Nat
  month : Nat
  day : Nat
  deriving DecidableEq, Repr

/-- A date with a time of day, and the offset from universal time in seconds if it has one. -/
structure Moment where
  date : Date
  hour : Nat
  minute : Nat
  second : Nat
  microsecond : Nat
  offset : Option Int
  deriving DecidableEq, Repr

inductive Datum where
  | null
  | bool (b : Bool)
  | int (i : Int)
  | float (x : Float)
  | text (s : String)
  | brokenText (t : BrokenText)
  | date (d : Date)
  | moment (m : Moment)
  | bytes (bs : List UInt8)
  | list (items : List Datum)
  | pair (first second : Datum)
  | set (items : List Datum)
  | map (entries : List (Datum × Datum))
  /-- One of several collections that hold one another.  In a collection of the list, no
  collections at all stand for those of the list. -/
  | looped (collections : List Datum) (index : Nat)

namespace Datum

instance : Inhabited Datum := ⟨.null⟩

/-- A map with text keys. -/
def record (fields : List (String × Datum)) : Datum :=
  .map (fields.map fun (key, value) => (.text key, value))

def texts (items : List String) : Datum := .list (items.map .text)

def ofLabel : Label → Datum
  | .text s => .text s
  | .broken t => .brokenText t

def labels (items : List Label) : Datum := .list (items.map ofLabel)

def ofNumber : Decimal.Number → Datum
  | .whole n => .int n
  | .real x => .float x

def number? : Datum → Option Decimal.Number
  | bool b => some (.whole (if b then 1 else 0))
  | int i => some (.whole i)
  | float x => some (.real x)
  | _ => none

/-! ## Collections that hold one another -/

/-- Changes the parts of a collection; keys stay as they are. -/
def mapParts (f : Datum → Datum) : Datum → Datum
  | list items => list (items.map f)
  | pair first second => pair (f first) (f second)
  | map entries => map (entries.map fun (key, value) => (key, f value))
  | other => other

/-- A part of one of several collections, by itself. -/
def within (collections : List Datum) : Datum → Datum
  | looped [] index => looped collections index
  | other => other

/-- The value as a collection that is not one of several. -/
def view : Datum → Datum
  | looped collections index => (collections.getD index null).mapParts (within collections)
  | other => other

/-- What is made of one of several collections, where `forms` make it of each of them if told what
is made of the others.  A collection that is met again inside itself gives `again`; `path` are the
numbers of those that it is met in, and the fuel exceeds how many are not. -/
def tied {α : Type} (again : Nat → α) (forms : List ((Nat → α) → α)) :
    Nat → List Nat → Nat → α
  | 0, _, index => again index
  | fuel + 1, path, index =>
      match forms[index]? with
      | none => again index
      | some form =>
          if path.contains index then again index
          else form (tied again forms fuel (index :: path))

/-! ## Keys -/

/-- Whether a whole number and a floating number have the same value. -/
def wholeEqualsReal (n : Int) (x : Float) : Bool :=
  match Decimal.decode x with
  | .finite negative mantissa exponent =>
      let (num, den) := Decimal.scaled mantissa exponent
      n * den == (if negative then -(num : Int) else (num : Int))
  | _ => false

def sameNumber : Decimal.Number → Decimal.Number → Bool
  | .whole m, .whole n => m == n
  | .real x, .real y => x == y
  | .whole n, .real x => wholeEqualsReal n x
  | .real x, .whole n => wholeEqualsReal n x

/-- Whether two values are the same key of a map. -/
def sameKey (a b : Datum) : Bool :=
  match a, b with
  | null, null => true
  | text s, text t => s == t
  | brokenText s, brokenText t => s == t
  | date d, date e => d == e
  | moment m, moment n => m == n
  | bytes s, bytes t => s == t
  | a, b => match a.number?, b.number? with
    | some x, some y => sameNumber x y
    | _, _ => false

/-- Enters a value under a key: in the place of the entry with the same key, or at the end. -/
def insertEntry (entries : List (Datum × Datum)) (key value : Datum) : List (Datum × Datum) :=
  match entries with
  | [] => [(key, value)]
  | (k, v) :: rest =>
      if k.sameKey key then (k, value) :: rest else (k, v) :: insertEntry rest key value

def lookup (entries : List (Datum × Datum)) (key : String) : Option Datum :=
  (entries.find? fun entry => entry.1.sameKey (.text key)).map (·.2)

/-- The value under a key of a map. -/
def get? (d : Datum) (key : String) : Option Datum :=
  match d.view with
  | map entries => lookup entries key
  | _ => none

/-! ## Kinds -/

/-- Whether a value counts as given: neither nothing, false, zero nor empty. -/
def isGiven : Datum → Bool
  | null => false
  | bool b => b
  | int i => i != 0
  | float x => !(x == 0.0)
  | text s => !s.isEmpty
  | bytes bs => !bs.isEmpty
  | list items => !items.isEmpty
  | set items => !items.isEmpty
  | map entries => !entries.isEmpty
  | _ => true

/-- The name of the kind of a value. -/
def kind (d : Datum) : String :=
  match d.view with
  | null => "NoneType"
  | bool _ => "bool"
  | int _ => "int"
  | float _ => "float"
  | text _ => "str"
  | brokenText _ => "str"
  | date _ => "date"
  | moment _ => "datetime"
  | bytes _ => "bytes"
  | list _ => "list"
  | pair _ _ => "tuple"
  | set _ => "set"
  | map _ | looped _ _ => "dict"

/-- The name of the kind with the place it is defined in. -/
def fullKind : Datum → String
  | date _ => "datetime.date"
  | moment _ => "datetime.datetime"
  | other => other.kind

end Datum

end Arranger
