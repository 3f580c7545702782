import Arranger.Datum.Number
import Arranger.Theory.Note
import Arranger.Workspace.Basic

/-!
# Arguments and replies

A tool is called with named arguments of any kind and replies with a map: of its status and of what
it found or made, or of its status and the message of a fault.
-/

namespace Arranger

/-- What a tool is called with.  A request holds no broken texts. -/
structure Arguments where
  given : List (Datum × Datum)

namespace Arguments

/-- The value of an argument; one that is not given is nothing. -/
def get (args : Arguments) (name : String) : Datum := (Datum.lookup args.given name).getD .null

def getOr (args : Arguments) (name : String) (fallback : Datum) : Datum :=
  (Datum.lookup args.given name).getD fallback

/-- The name of an arrangement; it must be a text. -/
def nameOf : Datum → Except Fault String
  | .text s => .ok s
  | .list _ => .error (.shape (.unhashable "list"))
  | .map _ => .error (.shape (.unhashable "dict"))
  | other => .error (.shape (.noAttribute other.fullKind "replace"))

def name (args : Arguments) (key : String) : Action String := .ofExcept (nameOf (args.get key))

/-- A token; only texts have a length. -/
def tokenOf : Datum → Except Fault String
  | .text s => .ok s
  | other => .error (.shape (.noLength other.fullKind))

def token (args : Arguments) (key : String) : Action String := .ofExcept (tokenOf (args.get key))

def integerOf : Datum → Except Fault Int
  | .int i => .ok i
  | .bool b => .ok (if b then 1 else 0)
  | other => .error (.shape (.noNumber other.fullKind))

def integerOr (args : Arguments) (key : String) (fallback : Int) : Action Int :=
  .ofExcept (integerOf (args.getOr key (.int fallback)))

/-- The characters of an event token. -/
def eventOf : Datum → Except Fault String
  | .text s => .ok s
  | other => .error (.shape (.noAttribute other.fullKind "strip"))

end Arguments

namespace Reply

def success (fields : List (String × Datum)) : Datum :=
  .record (("status", .text "success") :: fields)

def error (f : Fault) : Datum :=
  .record [("status", .text "error"), ("message", .text f.message)]

def note (n : Note) : Datum :=
  .record [("name", .text n.name), ("midi", .int n.midi.val)]

def count (n : Nat) : Datum := .int n

/-- The reply of a tool: a fault is told in it. -/
def of (x : Action Datum) : Workspace → Workspace × List Warning × Datum := fun w =>
  match x w with
  | (w, ⟨warnings, .ok reply⟩) => (w, warnings, reply)
  | (w, ⟨warnings, .error f⟩) => (w, warnings, error f)

/-- Numbers in the names of fields. -/
def keyLayout : Decimal.Layout :=
  { Decimal.plain with infinity := "Infinity", negativeInfinity := "-Infinity", nan := "NaN" }

/-- A whole number with no more digits than are written. -/
def portableInteger (i : Int) : Except ShapeError Int :=
  if Text.digitLimit < (Nat.toDigits 10 i.natAbs).length then .error .tooManyDigits else .ok i

/-- The text of a key. -/
def portableKey : Datum → Except ShapeError Label
  | .null => .ok "null"
  | .bool b => .ok (if b then "true" else "false")
  | .int i => do return toString (← portableInteger i)
  | .float x => .ok (keyLayout.write x)
  | .text s => .ok s
  | .brokenText t => .ok (.broken t)
  | other => .error (.keyNotSerializable other.kind)

mutual

/-- A value as a reply may hold it, where `around` gives the collections around it. -/
def portableIn (around : Nat → Except ShapeError Datum) : Datum → Except ShapeError Datum
  | .null => .ok .null
  | .bool b => .ok (.bool b)
  | .int i => .int <$> portableInteger i
  | .float x => .ok (.float x)
  | .text s => .ok (.text s)
  | .brokenText t => .ok (.brokenText t)
  | .list items => .list <$> portableItems around items
  | .pair first second => do
      return .list [← portableIn around first, ← portableIn around second]
  | .map entries => .map <$> portableEntries around entries
  | .date _ => .error (.notSerializable "date")
  | .moment _ => .error (.notSerializable "datetime")
  | .bytes _ => .error (.notSerializable "bytes")
  | .set _ => .error (.notSerializable "set")
  | .looped [] index => around index
  | .looped (first :: rest) index =>
      Datum.tied (fun _ => .error .circular) (portableForms (first :: rest)) (rest.length + 2) []
        index

def portableItems (around : Nat → Except ShapeError Datum) :
    List Datum → Except ShapeError (List Datum)
  | [] => .ok []
  | item :: rest => do
      let item ← portableIn around item
      return item :: (← portableItems around rest)

/-- Of the entries whose keys have the same text the last one stays. -/
def portableEntries (around : Nat → Except ShapeError Datum) :
    List (Datum × Datum) → Except ShapeError (List (Datum × Datum))
  | [] => .ok []
  | (key, value) :: rest => do
      let name ← Datum.ofLabel <$> portableKey key
      let value ← portableIn around value
      let rest ← portableEntries around rest
      return if rest.any (·.1.sameKey name) then rest else (name, value) :: rest

def portableForms :
    List Datum → List ((Nat → Except ShapeError Datum) → Except ShapeError Datum)
  | [] => []
  | item :: rest => (fun around => portableIn around item) :: portableForms rest

end

/-- A value as a reply may hold it: keys are texts, there are no dates, bytes or sets, and no
collection holds itself. -/
def portable : Datum → Except ShapeError Datum := portableIn fun _ => .error .circular

end Reply

end Arranger
