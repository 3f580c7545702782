import Arranger.Text.Blank
import Arranger.Text.Digit
import Arranger.Text.Quoted

/-!
# Written integers

An integer is written with decimal digits of any script, perhaps signed, perhaps between white
space, perhaps with single underscores between its digits.  A number of more than 4300 digits is
refused, whatever follows its digits.
-/

namespace Arranger.Text

inductive IntegerError where
  | malformed (text : String)
  | tooManyDigits (count : Nat)
  deriving DecidableEq, Repr

def digitLimit : Nat := 4300

def IntegerError.message : IntegerError → String
  | .malformed text => s!"invalid literal for int() with base 10: {quoted text}"
  | .tooManyDigits count =>
      s!"Exceeds the limit ({digitLimit} digits) for integer string conversion: value has {count}" ++
        " digits; use sys.set_int_max_str_digits() to increase the limit"

def ofDigits (base : Nat) (digits : List Nat) : Nat :=
  digits.foldl (fun value d => base * value + d) 0

/-- The values of a run of digits in which single underscores may stand between digits. -/
def digitRun (value? : Char → Option Nat) : List Char → Option (List Nat)
  | [] => none
  | [c] => (value? c).map ([·])
  | c :: '_' :: rest => do return (← value? c) :: (← digitRun value? rest)
  | c :: rest => do return (← value? c) :: (← digitRun value? rest)

def splitSign : List Char → Bool × List Char
  | '-' :: rest => (true, rest)
  | '+' :: rest => (false, rest)
  | s => (false, s)

def signed (negative : Bool) (n : Nat) : Int :=
  if negative then -(n : Int) else n

def isNumberChar (c : Char) : Bool := c = '_' || (digitValue? c).isSome

def readInteger (text : String) : Except IntegerError Int :=
  let (negative, body) := splitSign (trim isWhiteSpace text.toList)
  match digitRun digitValue? (body.takeWhile isNumberChar) with
  | none => .error (.malformed text)
  | some digits =>
      if digits.length > digitLimit then .error (.tooManyDigits digits.length)
      else if body.all isNumberChar then .ok (signed negative (ofDigits 10 digits))
      else .error (.malformed text)

/-- Reads a run of ASCII digits that is known to hold nothing else. -/
def readNatural (digits : List Char) : Except IntegerError Nat :=
  if digits.length > digitLimit then .error (.tooManyDigits digits.length)
  else .ok (ofDigits 10 (digits.map fun c => c.toNat - '0'.toNat))

end Arranger.Text
