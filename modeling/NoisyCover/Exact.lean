import NoisyCover.Incidence
import NoisyCover.Solver

/-!
# Exact covering

The transaction's covering program is handed to a solver, and the candidates whose value rounds to
one are selected.  Unlike the approximations this explains every item or nothing: without a solution
the cost is infinite and nothing is selected.
-/

namespace NoisyCover.Exact

variable {K : Type u} [Arithmetic K]

/-- The itemsets whose value rounds to one. -/
def decode : List (Candidate K) → List K → Except Fault (List Itemset)
  | c :: candidates, v :: values => do
    let n ← Arithmetic.nearestInt v
    let rest ← decode candidates values
    return if n = 1 then c.1 :: rest else rest
  | _, _ => .ok []

/-- The selection that a solver's answer stands for. -/
def selection (candidates : List (Candidate K)) : Option (List K) → Except Fault (Option Covering)
  | none => .ok none
  | some values => (decode candidates values).map fun sets => some (SortedSet.ofList sets)

/-- The solver's answer to the covering program of a transaction. -/
def answer {m : Type u → Type v} [Monad m] (solve : Solver m K) (pool : Pool K)
    (transaction : Transaction) : m (SolverAnswer K) :=
  match BinaryProgram.build (pool.within transaction) transaction with
  | .error fault => pure ⟨.error fault, []⟩
  | .ok program => solve program

def cost (pool : Pool K) (transaction : Transaction) : Option Covering → Except Fault (Cost K)
  | none => .ok .infinite
  | some selected => ((pool.within transaction).cost selected).map .value

inductive Note where
  /-- No covering was found; these items are in no candidate. -/
  | noCovering (uncoverable : List Item)
  deriving DecidableEq, Repr

end NoisyCover.Exact
