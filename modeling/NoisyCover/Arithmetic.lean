import NoisyCover.Fault

/-!
# The arithmetic costs are computed in

Every algorithm here is written once, over any `Arithmetic`.  It runs on doubles, and statements
about exact costs are statements about the same definitions over the reals.  Comparisons answer as
the arithmetic's own order does, so for doubles one with a value that is not a number is false.
-/

namespace NoisyCover

/-- Numbers with the operations that costs need. -/
class Arithmetic (K : Type u) extends
    Zero K, One K, Add K, Sub K, Neg K, Div K, NatCast K, IntCast K, LT K, LE K where
  decidableLT : DecidableLT K
  decidableLE : DecidableLE K
  /-- The natural logarithm, meant for positive numbers. -/
  log : K → K
  /-- Whether a number lies below positive infinity. -/
  bounded : K → Bool
  /-- The nearest integer, a tie to the even one. -/
  nearestInt : K → Except Fault Int

namespace Arithmetic

attribute [reducible, instance] decidableLT decidableLE

variable {K : Type u} [Arithmetic K]

/-- Whether a number is zero, with either sign. -/
def isZero (x : K) : Bool := decide (x ≤ 0) && decide (0 ≤ x)

/-- The number itself rounded to an integer; a number without a nearest integer stays. -/
def roundToInt (x : K) : K :=
  match nearestInt x with
  | .ok n => (n : K)
  | .error _ => x

/-- The logarithm of a number that may fail to be positive. -/
def checkedLog (x : K) : Except Fault K :=
  if x ≤ 0 then .error .logOfNonpositive else .ok (log x)

section PairwiseSum

/-- The sum from the left, starting with the first number. -/
def sumFromLeft : List K → K
  | [] => 0
  | x :: xs => xs.foldl (· + ·) x

/-- Adds a block of eight numbers to eight running sums, place by place. -/
def addBlock (sums block : List K) : List K := List.zipWith (· + ·) sums block

/-- Runs eight sums along a list, one per place in a block of eight, and gives them together with
the numbers of the last, incomplete block. -/
def runBlocks (sums : List K) (xs : List K) : List K × List K :=
  if 8 ≤ xs.length then runBlocks (addBlock sums (xs.take 8)) (xs.drop 8) else (sums, xs)
termination_by xs.length
decreasing_by simp [List.length_drop]; omega

/-- Joins eight sums in pairs, then pairs of pairs. -/
def joinEight : List K → K
  | [a, b, c, d, e, f, g, h] => ((a + b) + (c + d)) + ((e + f) + (g + h))
  | xs => sumFromLeft xs

/-- The sum of up to 128 numbers: fewer than eight from the left, otherwise by eight running sums
that are joined at the end. -/
def blockSum (xs : List K) : K :=
  if xs.length < 8 then sumFromLeft xs
  else
    let (sums, rest) := runBlocks (xs.take 8) (xs.drop 8)
    rest.foldl (· + ·) (joinEight sums)

/-- Where a longer list is split for summing: the half, rounded down to a multiple of eight. -/
def splitPoint (n : Nat) : Nat := n / 2 - n / 2 % 8

/-- The sum of a list by halves, which keeps rounding errors small. -/
def pairwiseSum (xs : List K) : K :=
  if xs.length ≤ 128 then blockSum xs
  else
    pairwiseSum (xs.take (splitPoint xs.length)) + pairwiseSum (xs.drop (splitPoint xs.length))
termination_by xs.length
decreasing_by
  · simp [List.length_take, splitPoint]; omega
  · simp [List.length_drop, splitPoint]; omega

end PairwiseSum

end Arithmetic

end NoisyCover
