/-!
# Hexadecimal digits

Code points and file bytes are written with a fixed number of hexadecimal digits.
-/

namespace Arranger.Text

inductive LetterCase where
  | lower
  | upper
  deriving DecidableEq, Repr

/-- The digit of a value below sixteen; the value is taken modulo sixteen. -/
def hexDigit (letters : LetterCase) (n : Nat) : Char :=
  let d := n % 16
  if d < 10 then Char.ofNat (0x30 + d)
  else match letters with
    | .lower => Char.ofNat (0x61 + (d - 10))
    | .upper => Char.ofNat (0x41 + (d - 10))

/-- The last `width` hexadecimal digits of a number, with leading zeros. -/
def hex (letters : LetterCase) : Nat → Nat → List Char
  | 0, _ => []
  | width + 1, n => hex letters width (n / 16) ++ [hexDigit letters n]

def hexValue? (c : Char) : Option Nat :=
  if '0' ≤ c && c ≤ '9' then some (c.toNat - 0x30)
  else if 'a' ≤ c && c ≤ 'f' then some (c.toNat - 0x61 + 10)
  else if 'A' ≤ c && c ≤ 'F' then some (c.toNat - 0x41 + 10)
  else none

theorem length_hex (letters : LetterCase) (width n : Nat) :
    (hex letters width n).length = width := by
  induction width generalizing n with
  | zero => rfl
  | succ width ih => simp [hex, ih]

end Arranger.Text
