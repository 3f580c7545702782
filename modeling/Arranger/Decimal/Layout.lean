import Arranger.Decimal.Shortest

/-!
# The text of a number

The shortest decimal of a number is written positionally when the exponent of its leading digit
lies between bounds, and with an exponent otherwise.  The bounds and the spellings are fields of a
layout, one value of which belongs to each format that writes numbers.
-/

namespace Arranger.Decimal

structure Layout where
  leastPositional : Int
  mostPositional : Int
  /-- Whether a mantissa of one digit keeps a point and a zero before the exponent. -/
  pointBeforeExponent : Bool
  exponentWidth : Nat
  infinity : String
  negativeInfinity : String
  nan : String

def dropTrailingZeros (digits : List Char) : List Char :=
  (digits.reverse.dropWhile (· = '0')).reverse

def padLeft (width : Nat) (s : List Char) : List Char :=
  List.replicate (width - s.length) '0' ++ s

def positional (digits : List Char) (leading : Int) : List Char :=
  if leading < 0 then
    '0' :: '.' :: (List.replicate (-leading - 1).toNat '0' ++ digits)
  else
    let whole := leading.toNat + 1
    let fraction := digits.drop whole
    digits.take whole ++ List.replicate (whole - digits.length) '0' ++ '.' ::
      (if fraction.isEmpty then ['0'] else fraction)

def withExponent (layout : Layout) (digits : List Char) (leading : Int) : List Char :=
  let fraction := digits.drop 1
  let mantissa := digits.take 1 ++
    (if fraction.isEmpty then if layout.pointBeforeExponent then ['.', '0'] else []
     else '.' :: fraction)
  mantissa ++ 'e' :: (if leading < 0 then '-' else '+') ::
    padLeft layout.exponentWidth (Nat.toDigits 10 leading.natAbs)

/-- The text of a positive decimal. -/
def Layout.positive (layout : Layout) (decimal : Scientific) : List Char :=
  let written := Nat.toDigits 10 decimal.digits
  let digits := dropTrailingZeros written
  let leading := decimal.exponent + written.length - 1
  if layout.leastPositional ≤ leading && leading ≤ layout.mostPositional then
    positional digits leading
  else withExponent layout digits leading

def Layout.write (layout : Layout) (x : Float) : String :=
  match decode x with
  | .nan => layout.nan
  | .infinite negative => if negative then layout.negativeInfinity else layout.infinity
  | .finite negative mantissa exponent =>
      let size := if mantissa = 0 then ['0', '.', '0']
        else layout.positive (shortest mantissa exponent)
      String.ofList (if negative then '-' :: size else size)

/-- Numbers in programs and messages: positional from `1e-4` to below `1e16`. -/
def plain : Layout where
  leastPositional := -4
  mostPositional := 15
  pointBeforeExponent := false
  exponentWidth := 2
  infinity := "inf"
  negativeInfinity := "-inf"
  nan := "nan"

end Arranger.Decimal
