import NoisyCover.Decimal.Shortest

/-!
# Quantities

A setting or a statistic is either a whole number or a double, and each is written in its own way:
a sum over nothing is the whole number `0`, while a sum of doubles always shows a point.
-/

namespace NoisyCover

/-- A number that remembers whether it is whole. -/
inductive Quantity where
  | whole (n : Int)
  | real (x : Float)

namespace Quantity

/-- Whole numbers are written with their digits, doubles with the fewest digits that read back. -/
def text : Quantity → String
  | .whole n => toString n
  | .real x => Decimal.text x

/-- The value rounded to a number of decimal places; a whole number stays as it is. -/
def round (places : Nat) : Quantity → Quantity
  | .whole n => .whole n
  | .real x => .real (Decimal.roundPlaces places x)

/-- The double nearest to the value, or nothing when a whole number is too large for one. -/
def toFloat? : Quantity → Option Float
  | .whole n => Binary64.ofIntQuotient? n 1
  | .real x => some x

end Quantity

end NoisyCover
