import NoisyCover.BinaryProgram

/-!
# Solvers of covering programs

A solver answers a covering program with one value per variable, to be rounded to zero or one, or
with nothing when it found no solution.  It may act in any monad, so that it can be a function, a
machine with a state, or something outside.
-/

namespace NoisyCover

inductive SolverNote where
  /-- A row adds up to zero, so the optimiser was not asked. -/
  | emptyRow
  /-- The optimiser refused the program. -/
  | rejected
  | noSolution
  /-- The solution is feasible, but was not proved optimal. -/
  | unproven
  deriving DecidableEq, Repr

structure SolverAnswer (K : Type u) where
  values : Except Fault (Option (List K))
  notes : List SolverNote

abbrev Solver (m : Type u → Type v) (K : Type u) := BinaryProgram K → m (SolverAnswer K)

def fixedSolver {m : Type u → Type v} [Monad m] {K : Type u} (values : Option (List K)) :
    Solver m K := fun _ => pure ⟨.ok values, []⟩

end NoisyCover
