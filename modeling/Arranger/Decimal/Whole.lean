import Arranger.Decimal.Binary64
import Arranger.Text.Integer

/-!
# Whole numbers from floating ones

A finite floating number is made whole by dropping its fraction or by rounding to the nearest whole
number, of two the even one.
-/

namespace Arranger

/-- A number that cannot be computed with. -/
inductive NumberError where
  | infinite
  | undefined
  | tooLarge
  | zeroDivisor
  | zeroRealDivisor
  | unreadable (text : String)
  deriving DecidableEq, Repr

def NumberError.message : NumberError → String
  | .infinite => "cannot convert float infinity to integer"
  | .undefined => "cannot convert float NaN to integer"
  | .tooLarge => "int too large to convert to float"
  | .zeroDivisor => "division by zero"
  | .zeroRealDivisor => "float division by zero"
  | .unreadable text => s!"could not convert string to float: {Text.quoted text}"

namespace Decimal

def truncate (x : Float) : Except NumberError Int :=
  match decode x with
  | .nan => .error .undefined
  | .infinite _ => .error .infinite
  | .finite negative mantissa exponent => .ok (truncateScaled negative mantissa exponent)

def nearestWhole (x : Float) : Except NumberError Int :=
  match decode x with
  | .nan => .error .undefined
  | .infinite _ => .error .infinite
  | .finite negative mantissa exponent => .ok (roundScaled negative mantissa exponent)

end Decimal

end Arranger
