import NoisyCover.Arithmetic.Double
import NoisyCover.FirstLeast
import NoisyCover.Solver.Component
import NoisyCover.Solver.Cut
import NoisyCover.Solver.Milp
import NoisyCover.Solver.Pricing
import NoisyCover.Solver.Scaling

/-!
# Branch and bound over zero-one assignments

The optimiser that runs.  It keeps the best assignment found so far, makes the decisions that need
no choice, and lets the relaxation, which cuts make stronger, suggest prices; these prove how cheap
the rest can be at most.  If that is no better than what is known, it gives the branch up.
Otherwise it decides the variables whose other value is of no use.  If what is left falls apart it
solves the parts one by one, and else it tries both values of a variable with a fractional share.

Whole numbers decide everything here; doubles only suggest prices, cuts, assignments to try and
variables to branch on.
-/

namespace NoisyCover.BranchAndBound

namespace Subproblem

/-- The assignment with all free variables zero, if it satisfies the rows. -/
def complete (p : Subproblem) : Option Assignment :=
  if p.lacks.all satisfied then some ⟨p.cost, p.ones⟩ else none

/-- Takes the free variables by their shares as long as they are of use. -/
def take (p : Subproblem) (r : Relaxation) : List Column × Array Int :=
  (p.free.mergeSort fun a b => decide (r.share b ≤ r.share a)).foldl
    (fun (taken, lacks) c =>
      let useful := c.entries.any fun e => decide (0 < e.2) && !satisfied (lacks.getD e.1 0)
      if c.cost < 0 || useful then (c :: taken, c.cover lacks) else (taken, lacks))
    ([], p.lacks)

/-- Gives back the variables that no row needs, the dearest first. -/
def giveBack (taken : List Column) (lacks : Array Int) : List Column × Array Int :=
  (taken.mergeSort fun a b => decide (b.cost ≤ a.cost)).foldl
    (fun (kept, lacks) c =>
      let spare := c.entries.all fun e => satisfied (lacks.getD e.1 0 + e.2)
      if 0 < c.cost && spare then (kept, c.uncover lacks) else (c :: kept, lacks))
    ([], lacks)

/-- A good assignment, found by shares. -/
def round (p : Subproblem) (r : Relaxation) : Option Assignment :=
  let (taken, lacks) := p.take r
  let (kept, lacks) := giveBack taken lacks
  let chosen := p.decideAll fun c => some (kept.any fun d => d.place == c.place)
  ({ chosen with lacks } : Subproblem).complete

/-- The free variable to branch on: of those with a fractional share one that counts in the most of
the first `essential` rows, and of these the one whose share is nearest to a half. -/
def branching (p : Subproblem) (essential : Nat) (r : Relaxation) : Option Column :=
  let score (c : Column) : Float :=
    let x := r.share c
    let doubt := if x < 0.5 then x else 1 - x
    if doubt < 1e-6 then 0
    else doubt + (c.entries.countP fun e => decide (e.1 < essential)).toFloat
  (firstLeast (fun c => some (-score c)) p.free).map Prod.fst

/-- Relaxes a subproblem and adds cuts, in at most so many rounds.  Nothing is left of it once
prices prove that it is of no use. -/
def examine (essential : Nat) : (rounds : Nat) → Subproblem → Incumbent →
    Incumbent × Option (Subproblem × Relaxation)
  | rounds, p, best =>
    let r := p.relax
    let best := best.orBetter (p.round r)
    if best.excludes (p.bound r.prices) then (best, none)
    else
      match rounds with
      | 0 => (best, some (p, r))
      | rounds + 1 =>
        let cuts := r.cuts p
        if cuts.isEmpty then (best, some (p, r))
        else examine essential rounds (cuts.foldl addCut (p.dropSlack essential r)) best

/-- Solves independent parts one by one and puts the assignments together with the variables
decided before, whose cost and places are `cost` and `ones`.  Each part may cost what the ceiling
leaves once the others cost no more than the prices prove. -/
def searchParts (solve : Subproblem → Incumbent → Incumbent) (prices : Array Int)
    (best : Incumbent) : List Subproblem → (cost : Int) → (ones : List Nat) → Incumbent
  | [], cost, ones => best.orBetter (some ⟨cost, ones⟩)
  | part :: rest, cost, ones =>
    let others := rest.foldl (fun sum other => sum + other.bound prices) cost
    let found := solve part { best with ceiling := best.ceiling - others, assignment := none }
    match found.assignment with
    | some a => searchParts solve prices best rest (cost + a.cost) (a.ones ++ ones)
    | none => best

/-- The best assignment of a subproblem or the best one so far.  Every level decides a variable or
takes the subproblem apart, so that `levels` need not exceed the number of variables by more than
one. -/
def search (essential : Nat) : (levels rounds : Nat) → Subproblem → Incumbent → Incumbent
  | 0, _, _, best => best
  | levels + 1, rounds, p, best =>
    match p.settle (p.free.length + 1) with
    | none => best
    | some p =>
      if p.free.isEmpty then best.orBetter p.complete
      else
        match p.examine essential rounds best with
        | (best, none) => best
        | (best, some (p, r)) =>
          let bound := p.bound r.prices
          let decided := p.decideAll fun c => best.verdict bound (c.reducedCost r.prices)
          match decided.settle (decided.free.length + 1) with
          | none => best
          | some p =>
            match p.parts essential, p.branching essential r with
            | [_], some c =>
              let withOne := search essential levels 1 (p.assign c true) best
              search essential levels 1 (p.assign c false) withOne
            | parts, _ =>
              searchParts (search essential levels 1) r.prices best parts p.cost p.ones

/-- The best assignment of a program, if any satisfies all rows.  None costs as much as `ceiling`,
and costs closer than `margin` are taken for equal. -/
def minimise (p : Subproblem) (ceiling margin : Int) : Option Assignment :=
  let essential := p.lacks.size
  let solve (part : Subproblem) : Incumbent → Incumbent :=
    part.search essential (part.free.length + 1) 12
  (p.settle (p.free.length + 1)).bind fun p =>
    (searchParts solve (Array.replicate essential 0) ⟨ceiling, margin, none⟩
      (p.parts essential) p.cost p.ones).assignment

end Subproblem

/-- The best zero-one values, if any satisfy all rows.  Costs closer than a millionth are taken for
equal. -/
def minimise (objective : List Float) (rows : List (List Float)) : Option (List Float) :=
  let whole := WholeProgram.ofDoubles Relaxation.precision objective rows
  let ceiling := whole.program.free.foldl (fun sum c => sum + max 0 c.cost) (Int.ofNat whole.one)
  (whole.program.minimise ceiling (whole.one / pow10 6)).map fun found =>
    (List.range objective.length).map fun k => if found.ones.contains k then 1 else 0

/-- Whether a request is well-formed: a finite objective, and rows with one entry per variable. -/
def accepts (request : MilpRequest Float) : Bool :=
  request.objective.all Binary64.isFinite &&
    (request.rows.getD []).all (fun row => row.length == request.objective.length)

def optimise {m : Type → Type v} [Monad m] : Optimiser m Float := fun request =>
  if accepts request then
    pure (.ok ⟨minimise request.objective (request.rows.getD []), true⟩)
  else pure (.error .rejected)

end NoisyCover.BranchAndBound
