import NoisyCover.Solver.Subproblem

/-!
# Prices of rows

A price says what a unit of coverage is worth in a row.  Whatever the prices, as long as none is
negative, no way to decide the free variables costs less than the lacks are worth together with what
the variables cost below the worth of their coverage: an assignment that satisfies the rows pays for
the lacks, and what it covers beyond them does not make it cheaper.  So prices prove a bound, and
since all is in whole numbers the bound is exact, wherever the prices come from.
-/

namespace NoisyCover.BranchAndBound

/-- What a variable costs beyond the worth of its coverage. -/
def Column.reducedCost (c : Column) (prices : Array Int) : Int := c.cost - c.weigh prices

/-- The cost below which no way to decide the free variables can get. -/
def Subproblem.bound (p : Subproblem) (prices : Array Int) : Int :=
  p.free.foldl (fun bound c => bound + min 0 (c.reducedCost prices))
    ((p.lacks.zipWith (· * ·) prices).foldl (· + ·) p.cost)

/-- An assignment: its cost and the places of the variables that are one. -/
structure Assignment where
  cost : Int
  ones : List Nat

/-- The best assignment so far, if any, and a cost that no other one needs to exceed. -/
structure Incumbent where
  ceiling : Int
  /-- Costs closer than this are taken for equal. -/
  margin : Int
  assignment : Option Assignment

namespace Incumbent

/-- The better of the best assignment so far and another one, if there is one. -/
def orBetter (best : Incumbent) (new : Option Assignment) : Incumbent :=
  match new with
  | some a =>
    if a.cost < best.ceiling then { best with ceiling := a.cost, assignment := some a } else best
  | none => best

/-- Whether a cost of at least `bound` is of no use. -/
def excludes (best : Incumbent) (bound : Int) : Bool := decide (best.ceiling - best.margin ≤ bound)

/-- The value of a free variable whose other value is of no use, given a bound and the reduced cost
of the variable. -/
def verdict (best : Incumbent) (bound reduced : Int) : Option Bool :=
  if reduced < 0 then if best.excludes (bound - reduced) then some true else none
  else if best.excludes (bound + reduced) then some false
  else none

end Incumbent

end NoisyCover.BranchAndBound
