import NoisyCover.Solver.Simplex
import NoisyCover.Solver.Subproblem

/-!
# The linear relaxation of a subproblem

Without the demand that every variable is zero or one a subproblem is a linear program, which the
simplex method solves.  The program is stated in doubles: costs are divided by a power of two that
brings them below one, and so are the rows with large coefficients.  The outcome is a share of every
variable and a price of every row.
-/

namespace NoisyCover.BranchAndBound

open Simplex (Tableau)

structure Relaxation where
  /-- The rows of the subproblem that the linear program has. -/
  rows : Array Nat
  /-- The powers of two by which they are divided. -/
  shifts : Array Nat
  tableau : Tableau
  /-- What a unit of coverage is worth in every row of the subproblem; none is negative. -/
  prices : Array Int
  /-- The value of every free variable, by its place. -/
  shares : FloatArray

namespace Relaxation

/-- The binary places that are kept of a number below one. -/
def precision : Nat := 50

/-- An integer divided by a power of two, roughly. -/
def shrink (shift : Nat) (n : Int) : Float :=
  let x := (n.natAbs >>> (shift - precision)).toUInt64.toFloat.scaleB (-(min shift precision))
  if n < 0 then -x else x

/-- A number multiplied by a power of two, roughly. -/
def grow (shift : Nat) (x : Float) : Int :=
  (x.scaleB precision).toInt64.toInt * pow2 (shift - precision) / pow2 (precision - shift)

/-- The power of two that is greater than a number. -/
def magnitude (n : Nat) : Nat := if n = 0 then 0 else n.log2 + 1

/-- The power of two by which a row is divided, given its greatest coefficient. -/
def rowShift (greatest : Nat) : Nat := if greatest < pow2 20 then 0 else magnitude greatest

def share (r : Relaxation) (c : Column) : Float := r.shares.get! c.place

end Relaxation

open Relaxation in
def Subproblem.relax (p : Subproblem) : Relaxation :=
  let columns := p.free.toArray
  let greatest : Array Nat :=
    p.free.foldl
      (fun greatest c =>
        c.entries.foldl (fun greatest (r, a) => greatest.modify r (max a.natAbs)) greatest)
      (Array.replicate p.lacks.size 0)
  let rows := (Array.range p.lacks.size).filter fun r => greatest.getD r 0 != 0
  let shifts := rows.map fun r => rowShift (greatest.getD r 0)
  let costShift := magnitude (p.free.foldl (fun most c => max most c.cost.natAbs) 0)
  let index : Array Nat :=
    rows.zipIdx.foldl (fun index (r, i) => index.set! r i) (Array.replicate p.lacks.size 0)
  let body : Array FloatArray :=
    columns.zipIdx.foldl
      (fun body (c, k) =>
        c.entries.foldl
          (fun body (r, a) =>
            let i := index.getD r 0
            let x := shrink (shifts.getD i 0) a
            body.modify i fun row => row.set! k x)
          body)
      (rows.map fun _ => Simplex.tabulate columns.size fun _ => 0)
  let amounts :=
    Simplex.tabulate rows.size fun i => shrink (shifts.getD i 0) (p.lacks.getD (rows.getD i 0) 0)
  let costs :=
    Simplex.tabulate columns.size fun k =>
      match columns[k]? with
      | some c => shrink costShift c.cost
      | none => 0
  let tableau := (Tableau.start costs body amounts).solve (20 * (columns.size + rows.size))
  let prices := tableau.prices
  let values := tableau.values
  { rows, shifts, tableau
    prices :=
      rows.zipIdx.foldl
        (fun all (r, i) =>
          all.set! r (max 0 (grow costShift (prices.get! i) / pow2 (shifts.getD i 0))))
        (Array.replicate p.lacks.size 0)
    shares :=
      columns.zipIdx.foldl (fun shares (c, k) => shares.set! c.place (values.get! k))
        (Simplex.tabulate (p.free.foldl (fun places c => max places (c.place + 1)) 0) fun _ => 0) }

end NoisyCover.BranchAndBound
