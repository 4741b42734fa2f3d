import NoisyCover.Algorithm
import NoisyCover.Inference
import NoisyCover.Instance.Basic
import NoisyCover.Solver.BranchAndBound

/-!
# Sessions

A session keeps one algorithm, with its random state, and the log of its solver calls over a
sequence of inferences.
-/

namespace NoisyCover

/-- What a session carries from one inference to the next. -/
structure Session where
  algorithm : Algorithm
  solves : SolveLog Float := .empty

namespace Session

variable {m : Type → Type} [Monad m]

/-- Runs exact inference with the chosen solver; a timed solver records its call. -/
def inferExact (now : m Float) (choice : SolverChoice) (covering : Covering)
    (problem : Instance Float) (solves : SolveLog Float) :
    m (Inference Float × SolveLog Float) :=
  match choice with
  | .fixed values => do
    let found ← Exact.infer (fixedSolver values) covering problem.pool problem.transaction
    return (found, solves)
  | .milp settings timed => do
    let solve := settings.solver now BranchAndBound.optimise
    let (found, solves') ←
      (Exact.infer solve covering problem.pool problem.transaction).run
        (if timed then some solves else none)
    return (found, solves'.getD solves)

/-- Explains an instance into a covering and moves the session on. -/
def infer (now : m Float) (covering : Covering) (problem : Instance Float) (session : Session) :
    m (Inference Float × Session) :=
  match session.algorithm with
  | .greedy => return (Greedy.infer covering problem.pool problem.transaction, session)
  | .primalDual draws =>
    let (found, draws) :=
      PrimalDual.infer Draws.source covering problem.pool problem.transaction draws
    return (found, { session with algorithm := .primalDual draws })
  | .exact choice => do
    let (found, solves) ← inferExact now choice covering problem session.solves
    return (found, { session with solves })

def resetSolves (session : Session) : Session := { session with solves := .empty }

end Session

/-- The next of a list of clock readings; the last one repeats. -/
def scriptedClock : StateM (List Float) Float
  | [] => (0, [])
  | [x] => (x, [x])
  | x :: rest => (x, rest)

end NoisyCover
