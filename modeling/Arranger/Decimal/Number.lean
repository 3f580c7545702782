import Arranger.Decimal.Layout

/-!
# Whole and floating numbers

A number read from a document or a request is whole, and then of any size, or floating.  Whole
numbers are computed with exactly until a floating number joins them.
-/

namespace Arranger.Decimal

inductive Number where
  | whole (n : Int)
  | real (x : Float)

namespace Number

/-- The nearest floating number; none if a whole number is too large for one. -/
def toFloat? : Number → Option Float
  | whole n => ofInteger? n
  | real x => some x

/-- Adds a floating number; none if the whole number is too large to become floating. -/
def add? : Number → Float → Option Number
  | whole n, y => (ofInteger? n).map fun x => real (x + y)
  | real x, y => some (real (x + y))

end Number

end Arranger.Decimal
