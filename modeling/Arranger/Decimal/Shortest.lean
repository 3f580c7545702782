import Arranger.Decimal.Binary64

/-!
# The shortest decimal

A floating-point number is written with the fewest decimal digits that read back as the same
number; of several such decimals the nearest is taken.  For each number of digits only the two
neighbours of the exact value on that decimal grid need to be tried, because if any point of the
grid rounds to the number then one of these does.
-/

namespace Arranger.Decimal

/-- The quotient `num / den` counted in units of `10 ^ exponent`. -/
def onGrid (num den : Nat) (exponent : Int) : Nat × Nat :=
  match exponent with
  | .ofNat k => (num, den * Nat.pow 10 k)
  | .negSucc k => (num * Nat.pow 10 (k + 1), den)

/-- The numbers that round to a binary64 number, counted in quarters of its unit in the last
place.  The ends belong to the interval exactly if the mantissa is even. -/
structure RoundingInterval where
  low : Nat
  high : Nat
  closed : Bool

/-- Below a power of two the neighbour is only half as far away. -/
def roundingInterval (mantissa : Nat) (exponent : Int) : RoundingInterval where
  low := if mantissa = Nat.pow 2 52 && -1074 < exponent then 4 * mantissa - 1 else 4 * mantissa - 2
  high := 4 * mantissa + 2
  closed := mantissa % 2 = 0

/-- Whether `candidate * 10 ^ gridExponent` lies in the interval around
`mantissa * 2 ^ exponent`. -/
def readsBack (mantissa : Nat) (exponent gridExponent : Int) (candidate : Nat) : Bool :=
  let interval := roundingInterval mantissa exponent
  let (unitNum, unitDen) := scaled 1 (exponent - 2)
  let (lowNum, lowDen) := onGrid (interval.low * unitNum) unitDen gridExponent
  let (highNum, highDen) := onGrid (interval.high * unitNum) unitDen gridExponent
  if interval.closed then lowNum ≤ candidate * lowDen && candidate * highDen ≤ highNum
  else lowNum < candidate * lowDen && candidate * highDen < highNum

/-- The exponent of the leading decimal digit of a positive quotient: an estimate from the binary
size, or one of its neighbours. -/
def leadingExponent (num den : Nat) : Int :=
  let size : Int := (num.log2 : Int) - (den.log2 : Int)
  let estimate := (size * 30103).fdiv 100000
  let reaches (e : Int) : Bool := (onGrid num den e).2 ≤ (onGrid num den e).1
  if reaches (estimate + 1) then estimate + 1
  else if reaches estimate then estimate
  else estimate - 1

/-- The decimal `digits * 10 ^ exponent`. -/
structure Scientific where
  digits : Nat
  exponent : Int
  deriving DecidableEq, Repr

/-- The first decimal on the grids from `exponent` downwards that reads back; the point of the
last grid if none does. -/
def firstOnGrids (num den : Nat) (fits : Int → Nat → Bool) : Nat → Int → Scientific
  | 0, exponent =>
      let (gridNum, gridDen) := onGrid num den exponent
      ⟨roundQuotient gridNum gridDen, exponent⟩
  | grids + 1, exponent =>
      let (gridNum, gridDen) := onGrid num den exponent
      let nearest := roundQuotient gridNum gridDen
      let below := gridNum / gridDen
      if fits exponent nearest then ⟨nearest, exponent⟩
      else if fits exponent below then ⟨below, exponent⟩
      else if fits exponent (below + 1) then ⟨below + 1, exponent⟩
      else firstOnGrids num den fits grids (exponent - 1)

/-- The shortest decimal of the positive number `mantissa * 2 ^ exponent`; seventeen digits are
always enough. -/
def shortest (mantissa : Nat) (exponent : Int) : Scientific :=
  let (num, den) := scaled mantissa exponent
  firstOnGrids num den (readsBack mantissa exponent) 16 (leadingExponent num den)

end Arranger.Decimal
