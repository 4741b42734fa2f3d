import NoisyCover.Instance.Random
import NoisyCover.Session
import NoisyCover.Audit

/-!
# Comparing the algorithms on a random instance

A trial runs all three algorithms on one random instance and keeps, for each of them, the cost it
reports, the cost of its covering, and how long it took.
-/

namespace NoisyCover

/-- What one algorithm did in a trial.  There are no costs when it found no explanation. -/
structure Performance where
  reported : Option Float
  /-- The cost of the covering, which a reported cost may undercut. -/
  actual : Option Float
  itemsetCount : Nat
  complete : Bool
  seconds : Float

structure Trial where
  itemCount : Int
  /-- The number of candidates within the transaction. -/
  candidateCount : Nat
  seed : Int
  /-- The largest number of candidates at one item. -/
  frequency : Nat
  greedy : Performance
  primalDual : Performance
  exact : Performance

variable {m : Type → Type} [Monad m]

def Performance.measure (now : m Float) (problem : Instance Float) (algorithm : Algorithm) :
    ExceptT Fault m Performance := do
  let start ← ExceptT.lift now
  let session : Session := { algorithm }
  let (found, _) ← ExceptT.lift (session.infer now ∅ problem)
  let reported := match ← found.cost with
    | .value x => if Binary64.isFinite x then some x else none
    | .infinite => none
  let actual ← reported.mapM fun _ =>
    (problem.pool.within problem.transaction).cost found.covering
  let complete := isComplete found.covering problem.pool problem.transaction
  let stop ← ExceptT.lift now
  return { reported, actual, itemsetCount := found.covering.size, complete,
           seconds := stop - start }

def Trial.run (now : m Float) (itemCount setCount seed : Int) (timeLimit : Quantity) :
    ExceptT Fault m Trial := do
  let problem ← Instance.ofSeed itemCount setCount seed
  let admissible := problem.pool.within problem.transaction
  let greedy ← Performance.measure now problem .greedy
  let primalDual ← Performance.measure now problem (.primalDual (.ofSeed seed))
  let exact ← Performance.measure now problem (.exact (.milp { timeLimit := some timeLimit } false))
  return { itemCount, candidateCount := admissible.size, seed,
           frequency := largestItemDegree admissible problem.transaction,
           greedy, primalDual, exact }

end NoisyCover
