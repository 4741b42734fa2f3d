import NoisyCover.Exact
import NoisyCover.Greedy
import NoisyCover.PrimalDual

/-!
# Inference into a covering

Every algorithm adds the itemsets it selects to a covering that the caller owns and reports a cost.
Greedy and exact inference add their selection before the cost is known, primal-dual inference after
it; so when the cost cannot be computed, the first two have changed the covering and the last one
has not.
-/

namespace NoisyCover

/-- An entry of the log, by the part that wrote it. -/
inductive LogEntry (K : Type u) where
  | greedy (note : Greedy.Note K)
  | primalDual (note : PrimalDual.Note K)
  | solver (note : SolverNote)
  | exact (note : Exact.Note)
  /-- The size of a random instance about to be explained: its items, its itemsets, those among them
  that can take part, and the largest number of them at one item. -/
  | randomInstance (items itemsets admissible frequency : Nat)

/-- What an inference leaves behind. -/
structure Inference (K : Type u) where
  /-- The caller's covering afterwards. -/
  covering : Covering
  cost : Except Fault (Cost K)
  log : List (LogEntry K)

variable {K : Type u} [Arithmetic K]

def Greedy.conclude (covering : Covering) (pool : Pool K) (transaction : Transaction)
    (picks : List (Greedy.Pick K)) : Inference K :=
  let selection := Greedy.selected picks
  { covering := covering ∪ selection
    cost := ((pool.within transaction).cost selection).map .value
    log := (Greedy.notes transaction picks).map .greedy }

def Greedy.infer (covering : Covering) (pool : Pool K) (transaction : Transaction) :
    Inference K :=
  Greedy.conclude covering pool transaction (Greedy.picks pool transaction)

def PrimalDual.conclude {σ : Type} (covering : Covering) (candidates : List (Candidate K))
    (r : PrimalDual.Run K σ) : Inference K :=
  let cost := r.cost candidates
  { covering := match cost with
      | .ok _ => covering ∪ r.selection
      | .error _ => covering
    cost := cost.map .value
    log := r.notes.map .primalDual }

/-- Primal-dual inference, with the state of the random source afterwards. -/
def PrimalDual.infer {σ : Type} (source : RandomSource σ) (covering : Covering) (pool : Pool K)
    (transaction : Transaction) (state : σ) : Inference K × σ :=
  let r := PrimalDual.run source pool transaction state
  (PrimalDual.conclude covering (pool.within transaction).candidates r, r.source)

def Exact.conclude (covering : Covering) (pool : Pool K) (transaction : Transaction)
    (answer : SolverAnswer K) : Inference K :=
  let solverLog := answer.notes.map .solver
  match answer.values.bind (Exact.selection (pool.within transaction).candidates) with
  | .error fault => ⟨covering, .error fault, solverLog⟩
  | .ok none =>
    ⟨covering, Exact.cost pool transaction none,
      solverLog ++ [.exact (.noCovering (isolatedItems (pool.within transaction) transaction))]⟩
  | .ok (some selected) =>
    ⟨covering ∪ selected, Exact.cost pool transaction (some selected), solverLog⟩

def Exact.infer {m : Type u → Type v} [Monad m] (solve : Solver m K) (covering : Covering)
    (pool : Pool K) (transaction : Transaction) : m (Inference K) := do
  let answer ← Exact.answer solve pool transaction
  return Exact.conclude covering pool transaction answer

end NoisyCover
