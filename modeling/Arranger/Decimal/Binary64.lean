/-!
# Exact values of floating-point numbers

A finite binary64 number is a signed multiple of a power of two.  This file reads that exact value
off the bits, rounds exact values to whole numbers with ties to the even neighbour, and rounds an
exact quotient to the nearest binary64 number.
-/

namespace Arranger.Decimal

inductive Binary64 where
  /-- The number with the given sign whose size is `mantissa * 2 ^ exponent`. -/
  | finite (negative : Bool) (mantissa : Nat) (exponent : Int)
  | infinite (negative : Bool)
  | nan
  deriving DecidableEq, Repr

def decode (x : Float) : Binary64 :=
  let bits : Nat := x.toBits.toNat
  let negative : Bool := Nat.pow 2 63 ≤ bits
  let biased : Nat := bits / Nat.pow 2 52 % Nat.pow 2 11
  let fraction : Nat := bits % Nat.pow 2 52
  if biased = 2047 then
    if fraction = 0 then .infinite negative else .nan
  else if biased = 0 then .finite negative fraction (-1074)
  else .finite negative (Nat.pow 2 52 + fraction) ((biased : Int) - 1075)

/-- The quotient of two natural numbers, rounded to the nearest, ties to the even neighbour. -/
def roundQuotient (num den : Nat) : Nat :=
  let floor := num / den
  let excess := 2 * (num % den)
  if excess < den then floor
  else if den < excess then floor + 1
  else if floor % 2 = 0 then floor
  else floor + 1

/-- The size `mantissa * 2 ^ exponent` as a quotient of natural numbers. -/
def scaled (mantissa : Nat) (exponent : Int) : Nat × Nat :=
  match exponent with
  | .ofNat e => (mantissa * Nat.pow 2 e, 1)
  | .negSucc e => (mantissa, Nat.pow 2 (e + 1))

def roundScaled (negative : Bool) (mantissa : Nat) (exponent : Int) : Int :=
  let (num, den) := scaled mantissa exponent
  if negative then -(roundQuotient num den : Int) else roundQuotient num den

/-- The whole part of a size, the fraction dropped. -/
def truncateScaled (negative : Bool) (mantissa : Nat) (exponent : Int) : Int :=
  let (num, den) := scaled mantissa exponent
  if negative then -((num / den : Nat) : Int) else ((num / den : Nat) : Int)

def infinityBits : Nat := 2047 * Nat.pow 2 52

/-- The bits of the binary64 number nearest to a positive quotient.

The exponent is chosen so that the rounded mantissa has 53 bits, or is that of the subnormal
numbers; a mantissa that rounds up to 54 bits carries into the exponent field. -/
def nearestBits (num den : Nat) : Nat :=
  if num = 0 then 0
  else
    let size : Int := (num.log2 : Int) - (den.log2 : Int)
    let atScale (e : Int) : Nat × Nat :=
      match e with
      | .ofNat k => (num, den * Nat.pow 2 k)
      | .negSucc k => (num * Nat.pow 2 (k + 1), den)
    let low := size - 53
    let (lowNum, lowDen) := atScale low
    let exponent := max (-1074) (if lowNum / lowDen < Nat.pow 2 53 then low else low + 1)
    let (scaledNum, scaledDen) := atScale exponent
    let mantissa := roundQuotient scaledNum scaledDen
    min infinityBits ((exponent + 1074).toNat * Nat.pow 2 52 + mantissa)

def ofQuotient (negative : Bool) (num den : Nat) : Float :=
  let bits := nearestBits num den
  Float.ofBits (UInt64.ofNat (if negative then bits + Nat.pow 2 63 else bits))

/-- The nearest floating-point number to an integer; none if the integer is too large. -/
def ofInteger? (i : Int) : Option Float :=
  let x := ofQuotient (i < 0) i.natAbs 1
  if x.isInf then none else some x

theorem roundQuotient_of_dvd {num den : Nat} (hpos : 0 < den) (h : den ∣ num) :
    roundQuotient num den = num / den := by
  have hmod : num % den = 0 := Nat.mod_eq_zero_of_dvd h
  simp [roundQuotient, hmod, hpos]

theorem roundQuotient_one (num : Nat) : roundQuotient num 1 = num := by
  rw [roundQuotient_of_dvd (by decide) (Nat.one_dvd num), Nat.div_one]

end Arranger.Decimal
