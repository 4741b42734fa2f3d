import NoisyCover.Solver.Relaxation

/-!
# Cuts

Rows with multipliers that are not negative add up to a row that follows from them.  If a variable's
coefficient there is rounded up, or is rounded down and what the row has to reach is lowered by the
difference, the row still follows, since a variable lies between zero and one; and once all
coefficients are whole, so is what the variables reach, and what the row has to reach may be rounded
up as well.  The outcome holds for all assignments, but often not for the relaxation, and then it
brings the relaxation closer to the truth.

The multipliers come from the relaxation: those by which a variable with a fractional value is
expressed, without their whole parts.
-/

namespace NoisyCover.BranchAndBound

/-- A row that follows from others: the coefficients of the free variables, in their order, and what
the row lacks. -/
structure Cut where
  coefficients : List Int
  lack : Int
  deriving BEq

def ceilDiv (n : Int) (denominator : Nat) : Int := -(-n / denominator)

namespace Subproblem

/-- The sum of the rows with their multipliers over a denominator, made whole.  The coefficients of
the variables for which `down` holds are rounded down. -/
def roundedSum (p : Subproblem) (multipliers : Array Int) (denominator : Nat)
    (down : Column → Bool) : Cut :=
  let sums := p.free.map fun c => (c.weigh multipliers, down c)
  let lack := (p.lacks.zipWith (· * ·) multipliers).foldl (· + ·) 0
  let given := sums.foldl (fun given (n, down) => if down then given + n else given) 0
  let kept := sums.foldl (fun kept (n, down) => if down then kept + n / denominator else kept) 0
  { coefficients :=
      sums.map fun (n, down) => if down then n / denominator else ceilDiv n denominator
    lack := ceilDiv (lack - given) denominator + kept }

def addCut (p : Subproblem) (cut : Cut) : Subproblem :=
  { p with
    free := p.free.zipWith
      (fun c a => if a = 0 then c else { c with entries := c.entries ++ [(p.lacks.size, a)] })
      cut.coefficients
    lacks := p.lacks.push cut.lack }

end Subproblem

/-- How far a point is from satisfying a cut. -/
def Cut.depth (cut : Cut) (shares : List Float) : Float :=
  let reached := (cut.coefficients.zipWith (fun a x => Float.ofInt a * x) shares).foldl (· + ·) 0
  let square := cut.coefficients.foldl (fun sum a => sum + Float.ofInt (a * a)) 0
  (Float.ofInt cut.lack - reached) / square.sqrt

def nearlyWhole (x : Float) : Bool := (x - x.round).abs < 1e-6

namespace Relaxation

/-- The multipliers of the rows of the linear program in the expression of a basic variable; nothing
if a row with large coefficients takes part. -/
def multipliers? (r : Relaxation) (basic : Nat) : Option (List Float) :=
  let multipliers := r.tableau.multipliers basic
  (List.range r.rows.size).mapM fun i =>
    let x := multipliers.get! i
    if r.shifts.getD i 0 = 0 then some x
    else if x.abs < Simplex.Tableau.tiny then some 0
    else none

/-- The least denominator of some numbers that are not all whole, if it is small. -/
def denominator? (numbers : List Float) : Option Nat :=
  (List.range' 2 4).find? fun d => numbers.all fun x => nearlyWhole (x * d.toFloat)

/-- The cuts from the expression of a basic variable: one for every multiple of its multipliers. -/
def cutsOf (r : Relaxation) (p : Subproblem) (basic : Nat) : List Cut :=
  if nearlyWhole (r.tableau.level.get! basic) then []
  else
    match r.multipliers? basic with
    | none => []
    | some multipliers =>
      match denominator? multipliers with
      | none => []
      | some d =>
        (List.range' 1 (d - 1)).map fun times =>
          let numerators : Array Int :=
            (r.rows.toList.zip multipliers).foldl
              (fun all (row, x) =>
                all.set! row ((x * d.toFloat).round.toInt64.toInt * times % d))
              (Array.replicate p.lacks.size 0)
          p.roundedSum numerators d fun c => 0.5 < r.share c

/-- The cuts that the relaxation violates, the deepest first. -/
def cuts (r : Relaxation) (p : Subproblem) : List Cut :=
  let shares := p.free.map r.share
  let deep :=
    (List.range r.rows.size).flatMap fun basic =>
      (r.cutsOf p basic).filterMap fun cut =>
        let depth := cut.depth shares
        if 1e-4 < depth then some (depth, cut) else none
  let sorted := (deep.mergeSort fun a b => decide (b.1 ≤ a.1)).map Prod.snd
  (sorted.take (2 * p.free.length)).eraseDups.take (max 10 (p.free.length / 2))

/-- Whether a row, not one of the first `essential` ones, has a surplus. -/
def slack (r : Relaxation) (essential row : Nat) : Bool :=
  essential ≤ row &&
    (List.range r.rows.size).any fun i =>
      let v := r.tableau.basic.getD i 0
      r.tableau.width ≤ v && r.rows.getD (v - r.tableau.width) 0 == row
        && 1e-6 < r.tableau.level.get! i

end Relaxation

namespace Subproblem

/-- Drops the rows other than the first `essential` ones that have a surplus. -/
def dropSlack (p : Subproblem) (essential : Nat) (r : Relaxation) : Subproblem :=
  p.trim ((Array.range p.lacks.size).map fun row => !r.slack essential row)

end Subproblem

end NoisyCover.BranchAndBound
