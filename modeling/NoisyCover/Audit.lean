import NoisyCover.Cost

/-!
# Checks on pools and coverings

A covering of a transaction is complete when all its itemsets are admissible candidates and together
contain every item.  `isComplete` answers yes or no, `audit` says what is wrong, and both look only
at the candidates within the transaction.
-/

namespace NoisyCover

variable {K : Type u} [Arithmetic K]

/-- The first candidate whose probability is not strictly between zero and one, if any. -/
def improbable? (pool : Pool K) : Option (Candidate K) :=
  pool.candidates.find? (fun c => !(decide (0 < c.2) && decide (c.2 < 1)))

/-- Whether a covering is drawn from the candidates of the transaction and contains every item. -/
def isComplete (covering : Covering) (pool : Pool K) (transaction : Transaction) : Bool :=
  let filtered := pool.within transaction
  covering.toList.all filtered.has &&
    decide (transaction.items ⊆ unionOf covering.toList)

/-- What a check of a covering finds. -/
structure Audit (K : Type u) where
  valid : Bool
  itemsetCount : Nat
  coveredCount : Nat
  expectedCount : Nat
  /-- The uncovered items, in transaction order with repeats. -/
  missing : List Item
  /-- The itemsets that are no candidates of the transaction. -/
  foreign : Covering
  /-- The cost that an algorithm has to report for the covering. -/
  expectedCost : K

/-- Checks a covering of a transaction.  Itemsets from elsewhere cover nothing. -/
def audit (covering : Covering) (pool : Pool K) (transaction : Transaction) :
    Except Fault (Audit K) :=
  let filtered := pool.within transaction
  let own := covering.filter filtered.has
  let foreign := covering \ own
  let covered := unionOf own.toList
  let missing := transaction.filter (fun i => !decide (i ∈ covered))
  (filtered.cost covering).map fun expectedCost =>
    { valid := missing.isEmpty && foreign.size == 0
      itemsetCount := covering.size
      coveredCount := (covered ∩ transaction.items).size
      expectedCount := transaction.items.size
      missing
      foreign
      expectedCost }

end NoisyCover
