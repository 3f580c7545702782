import Arranger.Datum.Display
import Arranger.Text.Integer

/-!
# Values of the wrong kind

A request may hold a value of another kind than the one that is needed.  Texts, bytes, lists, sets
and maps can be gone through; only maps have fields.
-/

namespace Arranger

open Text (quoted)

inductive ShapeError where
  | noAttribute (kind method : String)
  | noKey (key : String)
  | notIterable (kind : String)
  | noLength (kind : String)
  | noFields (kind : String)
  /-- A text has no fields, only positions. -/
  | textPosition
  /-- A sequence has no fields, only positions. -/
  | position (kind : String)
  | noNumber (kind : String)
  | notText (kind : String)
  | noClip (shown : String)
  | notComparable (kind : String)
  | notSerializable (kind : String)
  | keyNotSerializable (kind : String)
  /-- A whole number has more digits than are written. -/
  | tooManyDigits
  | noDivisor (kind : String)
  | unhashable (kind : String)
  /-- A collection that holds itself. -/
  | circular
  deriving DecidableEq, Repr

def ShapeError.message : ShapeError → String
  | .noAttribute kind method => s!"'{kind}' object has no attribute '{method}'"
  | .noKey key => quoted key
  | .notIterable kind => s!"'{kind}' object is not iterable"
  | .noLength kind => s!"object of type '{kind}' has no len()"
  | .noFields kind => s!"'{kind}' object is not subscriptable"
  | .textPosition => "string indices must be integers, not 'str'"
  | .position kind => s!"{kind} indices must be integers or slices, not str"
  | .noNumber kind =>
      s!"float() argument must be a string or a real number, not '{kind}'"
  | .notText kind => s!"expected string or bytes-like object, got '{kind}'"
  | .noClip shown => s!"Not a clip: {shown}"
  | .notComparable kind => s!"'<' not supported between instances of 'Note' and '{kind}'"
  | .notSerializable kind => s!"Object of type {kind} is not JSON serializable"
  | .keyNotSerializable kind => s!"keys must be str, int, float, bool or None, not {kind}"
  | .tooManyDigits =>
      s!"Exceeds the limit ({Text.digitLimit} digits) for integer string conversion; " ++
        "use sys.set_int_max_str_digits() to increase the limit"
  | .noDivisor kind => s!"unsupported operand type(s) for /: 'int' and '{kind}'"
  | .unhashable kind => s!"unhashable type: '{kind}'"
  | .circular => "Circular reference detected"

namespace Datum

/-- The parts of a value in order: code points, bytes, items or keys. -/
def parts (d : Datum) : Except ShapeError (List Datum) :=
  match d.view with
  | text s => .ok (s.toList.map fun c => .text c.toString)
  | brokenText t => .ok ((Label.broken t).points.map fun p => .ofLabel (.ofPoints [p]))
  | bytes bs => .ok (bs.map fun b => .int b.toNat)
  | list items => .ok items
  | pair first second => .ok [first, second]
  | set items => .ok items
  | map entries => .ok (entries.map (·.1))
  | other => .error (.notIterable other.fullKind)

def length (d : Datum) : Except ShapeError Nat :=
  match d.parts with
  | .ok parts => .ok parts.length
  | .error _ => .error (.noLength d.fullKind)

/-- A field that must be there. -/
def fieldOf (key : String) (d : Datum) : Except ShapeError Datum :=
  match d.view with
  | map entries => match lookup entries key with
    | some value => .ok value
    | none => .error (.noKey key)
  | text _ => .error .textPosition
  | brokenText _ => .error .textPosition
  | list _ => .error (.position "list")
  | pair _ _ => .error (.position "tuple")
  | bytes _ => .error (.position "byte")
  | other => .error (.noFields other.fullKind)

/-- The fields of a map that is asked for some of them. -/
def fields (d : Datum) : Except ShapeError (List (Datum × Datum)) :=
  match d.view with
  | map entries => .ok entries
  | other => .error (.noAttribute other.fullKind "get")

end Datum

end Arranger
