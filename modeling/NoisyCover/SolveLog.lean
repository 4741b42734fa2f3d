import NoisyCover.Arithmetic
import NoisyCover.Quantity

/-!
# The log of solver calls

The log lists the calls of a solver since the last reset, oldest first.  Its statistics are computed
on doubles: a total over no calls is the whole number zero, an average over no calls is the double
zero, and a summary rounds seconds to four places and counts to two.
-/

namespace NoisyCover

structure SolveCall (K : Type u) where
  seconds : K
  variableCount : Int
  selectedCount : Int
  feasible : Bool

/-- The calls since the last reset, oldest first. -/
structure SolveLog (K : Type u) where
  calls : List (SolveCall K)

structure SolveSummary where
  solverCalls : Int
  infeasible : Int
  totalSeconds : Quantity
  averageSeconds : Quantity
  averageSelected : Quantity

namespace SolveLog

variable {K : Type u}

def empty : SolveLog K := ⟨[]⟩

def record (t : SolveLog K) (r : SolveCall K) : SolveLog K := ⟨t.calls ++ [r]⟩

def callCount (t : SolveLog K) : Nat := t.calls.length

/-- The number of calls that found no solution. -/
def infeasibleCount (t : SolveLog K) : Nat := t.calls.countP (fun r => !r.feasible)

/-- The seconds of all calls, added up from the first. -/
def totalSeconds (t : SolveLog Float) : Quantity :=
  match t.calls with
  | [] => .whole 0
  | calls => .real (calls.foldl (fun total r => total + r.seconds) 0)

def averageSeconds (t : SolveLog Float) : Float :=
  match t.totalSeconds with
  | .whole _ => 0
  | .real total => total / Float.ofNat t.callCount

def selectedTotal (t : SolveLog K) : Int :=
  t.calls.foldl (fun total r => total + r.selectedCount) 0

/-- The variables selected per call, from the exact sum. -/
def averageSelected (t : SolveLog K) : Except Fault Float :=
  if t.calls.isEmpty then .ok 0
  else
    match Binary64.ofIntQuotient? t.selectedTotal t.callCount with
    | some x => .ok x
    | none => .error .quotientTooLarge

/-- The rounded statistics. -/
def summary (t : SolveLog Float) : Except Fault SolveSummary :=
  t.averageSelected.map fun averageSelected =>
    { solverCalls := t.callCount
      infeasible := t.infeasibleCount
      totalSeconds := t.totalSeconds.round 4
      averageSeconds := (Quantity.real t.averageSeconds).round 4
      averageSelected := (Quantity.real averageSelected).round 2 }

def text (t : SolveLog Float) : Except Fault String :=
  t.summary.map fun s =>
    s!"SolverTimer({s.solverCalls} calls, solve={s.totalSeconds.text}s, infeasible={s.infeasible})"

end SolveLog

/-- The statistics with their names, in the order in which they are listed. -/
def SolveSummary.fields (s : SolveSummary) : List (String × Quantity) :=
  [("num_solver_calls", .whole s.solverCalls), ("num_infeasible", .whole s.infeasible),
    ("total_solve_seconds", s.totalSeconds), ("avg_solve_seconds", s.averageSeconds),
    ("avg_selected_per_call", s.averageSelected)]

end NoisyCover
