import NoisyCover.Solver
import NoisyCover.SolveLog

/-!
# Solving covering programs with a mixed-integer optimiser

The solver answers programs with an empty row or without variables itself and hands all others to an
optimiser, once.  A refusal by the optimiser counts as no solution, and so do values of the wrong
number; a solution that was not proved optimal is used all the same.  With a log it also records
every call that gives an answer.
-/

namespace NoisyCover

/-- What the optimiser is asked: minimise the objective over zero-one values of the variables. -/
structure MilpRequest (K : Type u) where
  objective : List K
  /-- Rows that each have to reach one, if there are constraints at all. -/
  rows : Option (List (List K))
  integrality : List Nat
  /-- The relative gap to the optimum at which to stop. -/
  gap : Quantity
  /-- The time limit in seconds. -/
  timeLimit : Option Float

structure MilpReply (K : Type u) where
  values : Option (List K)
  proven : Bool

inductive OptimiserFault where
  | rejected
  | failed
  deriving DecidableEq, Repr

abbrev Optimiser (m : Type u → Type v) (K : Type u) :=
  MilpRequest K → m (Except OptimiserFault (MilpReply K))

structure MilpSolver where
  timeLimit : Option Quantity := none
  gap : Quantity := .real 0

namespace MilpSolver

variable {K : Type} {m : Type → Type v} [Monad m]

def limit (s : MilpSolver) : Except Fault (Option Float) :=
  match s.timeLimit with
  | none => .ok none
  | some q =>
    match q.toFloat? with
    | some x => .ok (some x)
    | none => .error .integerTooLarge

def request (s : MilpSolver) (timeLimit : Option Float) (p : BinaryProgram K) : MilpRequest K where
  objective := p.objective
  rows := if p.constraintCount = 0 then none else some p.rows
  integrality := p.integrality
  gap := s.gap
  timeLimit := timeLimit

/-- What an optimiser's reply means for a program with `n` variables. -/
def interpret (n : Nat) : Except OptimiserFault (MilpReply K) → SolverAnswer K
  | .error .rejected => ⟨.ok none, [.rejected]⟩
  | .error .failed => ⟨.error .optimiserFailed, []⟩
  | .ok reply =>
    match reply.values with
    | none => ⟨.ok none, [.noSolution]⟩
    | some x =>
      if x.length = n then ⟨.ok (some x), if reply.proven then [] else [.unproven]⟩
      else ⟨.ok none, [.noSolution]⟩

variable [Arithmetic K]

/-- Answers a program, untimed. -/
def attempt (s : MilpSolver) (optimise : Optimiser m K) : Solver m K := fun p =>
  if p.hasEmptyRow then pure ⟨.ok none, [.emptyRow]⟩
  else if p.variableCount = 0 then
    pure ⟨.ok (if p.constraintCount = 0 then some [] else none), []⟩
  else
    match s.limit with
    | .error fault => pure ⟨.error fault, []⟩
    | .ok timeLimit => do
      let reply ← optimise (s.request timeLimit p)
      return interpret p.variableCount reply

/-- The number of variables that an answer selects: the sum of its rounded values. -/
def selectedCount : Option (List K) → Except Fault Int
  | none => .ok 0
  | some x => Arithmetic.nearestInt (Arithmetic.pairwiseSum (x.map Arithmetic.roundToInt))

/-- Answers a program and records the call, if there is a log.  The clock is read before the
attempt, and after it only for a record.  An answer that cannot be counted is lost. -/
def solve (s : MilpSolver) (now : m K) (optimise : Optimiser m K) (p : BinaryProgram K)
    (solves : Option (SolveLog K)) : m (SolverAnswer K × Option (SolveLog K)) := do
  let start ← now
  let answer ← s.attempt optimise p
  match answer.values, solves with
  | .ok values, some calls =>
    let stop ← now
    match selectedCount values with
    | .error fault => return ({ answer with values := .error fault }, solves)
    | .ok selected =>
      return (answer, some (calls.record ⟨stop - start, p.variableCount, selected, values.isSome⟩))
  | _, _ => return (answer, solves)

/-- The solver whose state is the log of its calls. -/
def solver (s : MilpSolver) (now : m K) (optimise : Optimiser m K) :
    Solver (StateT (Option (SolveLog K)) m) K :=
  fun p solves => s.solve now optimise p solves

end MilpSolver

end NoisyCover
