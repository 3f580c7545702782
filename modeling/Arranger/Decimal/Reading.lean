import Arranger.Decimal.Binary64
import Arranger.Text.Integer
import Arranger.Text.Letter

/-!
# Reading numbers

A written number has a sign, digits with at most one point among them, and an exponent; or it is
a name of infinity or of the undefined number, in letters of either case.  It is read as the
nearest floating-point number.
-/

namespace Arranger.Decimal

open Arranger.Text

def infinite (negative : Bool) : Float :=
  Float.ofBits (UInt64.ofNat (if negative then infinityBits + Nat.pow 2 63 else infinityBits))

def notANumber : Float := Float.ofBits 0x7FF8000000000000

/-- The number `digits * 10 ^ exponent`.  A size beyond all floating-point numbers is infinite and
one below half of the least is zero, so that no large power is ever computed for them. -/
def ofDecimal (negative : Bool) (digits : List Nat) (exponent : Int) : Float :=
  let significant := digits.dropWhile (· = 0)
  let leading : Int := exponent + significant.length
  if significant.isEmpty || leading < -330 then ofQuotient negative 0 1
  else if 320 < leading then infinite negative
  else
    let value := ofDigits 10 significant
    match exponent with
    | .ofNat e => ofQuotient negative (value * Nat.pow 10 e) 1
    | .negSucc e => ofQuotient negative value (Nat.pow 10 (e + 1))

def asciiDigitValue? (c : Char) : Option Nat :=
  if isAsciiDigit c then some (c.toNat - '0'.toNat) else none

/-- The exponent part of a number: nothing, or a mark, a sign and digits. -/
def readExponent : List Char → Option Int
  | [] => some 0
  | mark :: rest =>
      if mark = 'e' || mark = 'E' then
        let (negative, digits) := splitSign rest
        if digits.isEmpty then none
        else (digits.mapM asciiDigitValue?).map fun values => signed negative (ofDigits 10 values)
      else none

/-- An unsigned number in ASCII characters: digits with a point among them, and an exponent. -/
def readUnsigned (negative : Bool) (s : List Char) : Option Float :=
  let whole := s.takeWhile isAsciiDigit
  let afterWhole := s.dropWhile isAsciiDigit
  let (fraction, tail) := match afterWhole with
    | '.' :: rest => (rest.takeWhile isAsciiDigit, rest.dropWhile isAsciiDigit)
    | rest => ([], rest)
  if whole.isEmpty && fraction.isEmpty then none
  else
    (readExponent tail).map fun exponent =>
      ofDecimal negative ((whole ++ fraction).map fun c => c.toNat - '0'.toNat)
        (exponent - fraction.length)

/-- A signed number in ASCII characters, or a name of a number that is not finite. -/
def readAscii (s : List Char) : Option Float :=
  let (negative, body) := splitSign s
  let name := lowered body
  if name = "inf".toList || name = "infinity".toList then some (infinite negative)
  else if name = "nan".toList then some notANumber
  else readUnsigned negative body

/-- Removes single underscores that stand between digits; none if another underscore remains. -/
def joinDigitGroups : List Char → Option (List Char)
  | [] => some []
  | c :: '_' :: d :: rest =>
      if isAsciiDigit c && isAsciiDigit d then (joinDigitGroups (d :: rest)).map (c :: ·) else none
  | c :: rest => if c = '_' then none else (joinDigitGroups rest).map (c :: ·)

/-- Writes every decimal digit as the ASCII digit of its value. -/
def asciiDigits (s : List Char) : List Char :=
  s.map fun c => match digitValue? c with
    | some d => Char.ofNat ('0'.toNat + d)
    | none => c

/-- Reads a number in digits of any script, between white space, with single underscores between
its digits. -/
def readNumber? (s : List Char) : Option Float :=
  (joinDigitGroups (asciiDigits (trim isWhiteSpace s))).bind readAscii

end Arranger.Decimal
