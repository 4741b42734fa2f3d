import NoisyCover.Solver.Subproblem

/-!
# Covering programs in whole numbers

Every finite double is a whole number of sufficiently small binary units.  So a program given in
doubles is stated exactly in whole numbers: each row in the units that its coefficients need, and
the costs in units that are smaller still, so that the worth of one unit of coverage can be stated
in them precisely.
-/

namespace NoisyCover.BranchAndBound

/-- The number of binary places that some numbers take. -/
def placesOf (numbers : List Float) : Nat :=
  numbers.foldl (fun most x => if x == 0 then most else max most (Binary64.places x)) 0

/-- How many ten-millionths a row has to reach at least. -/
def nearlyOne : Nat := 9999999

/-- What a row lacks at first, in units of `2 ^ -places`: one, less a ten-millionth. -/
def reach (places : Nat) : Int :=
  (nearlyOne * pow2 places + nearlyOne : Nat) / (nearlyOne + 1 : Nat)

/-- The coefficients other than zero of every variable, of which there are `count`. -/
def entriesOf (count : Nat) (rows : List (List Float)) : Array (List (Nat × Int)) :=
  rows.zipIdx.foldr
    (fun (row, r) columns =>
      let places := placesOf row
      row.zipIdx.foldl
        (fun columns (a, k) =>
          if a == 0 then columns else columns.modify k ((r, Binary64.inUnits places a) :: ·))
        columns)
    (Array.replicate count [])

structure WholeProgram where
  program : Subproblem
  /-- What one is in the units of the costs. -/
  one : Nat

/-- States a program in whole numbers.  Prices of coverage have at least `spare` binary places. -/
def WholeProgram.ofDoubles (spare : Nat) (objective : List Float) (rows : List (List Float)) :
    WholeProgram :=
  let places := placesOf objective + rows.foldl (fun most row => max most (placesOf row)) 0 + spare
  let entries := entriesOf objective.length rows
  { program :=
      { free := objective.zipIdx.map fun (cost, k) =>
          { place := k, cost := Binary64.inUnits places cost, entries := entries.getD k [] }
        lacks := (rows.map fun row => reach (placesOf row)).toArray
        cost := 0
        ones := [] }
    one := pow2 places }

end NoisyCover.BranchAndBound
