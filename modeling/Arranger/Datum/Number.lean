import Arranger.Decimal.Reading
import Arranger.Fault

/-!
# Values as numbers

A value stands for a number if it is one or, being a text, writes one.
-/

namespace Arranger.Datum

/-- The whole number that a value stands for, its fraction dropped. -/
def wholeNumber : Datum → Except Fault Int
  | bool b => .ok (if b then 1 else 0)
  | int i => .ok i
  | float x => (Decimal.truncate x).mapError .number
  | text s => match Text.readInteger s with
    | .ok i => .ok i
    | .error cause => .error (.theory (.value (.integer cause)))
  | other => .error (.shape (.noNumber other.fullKind))

/-- The floating number that a value stands for. -/
def realNumber (d : Datum) : Except Fault Float :=
  match d.number? with
  | some n => match n.toFloat? with
    | some x => .ok x
    | none => .error (.number .tooLarge)
  | none => match d with
    | .text s => match Decimal.readNumber? s.toList with
      | some x => .ok x
      | none => .error (.number (.unreadable s))
    | other => .error (.shape (.noNumber other.fullKind))

/-- A group of numbers, or a rest. -/
def numberGroup : Datum → Except Fault (Option (List Int))
  | null => .ok none
  | other => do
      let parts ← other.parts.mapError .shape
      return some (← parts.mapM wholeNumber)

end Arranger.Datum
