import NoisyCover.Instance.Basic
import NoisyCover.Random.Sample
import NoisyCover.Random.Twister

/-!
# Random instances

The transaction holds the items from zero on.  Its pool has a singleton for every item, so that a
complete covering exists, and then random itemsets of two to four items out of the transaction and
two more.  An itemset that comes up again keeps its first probability.
-/

namespace NoisyCover

structure Sampler (σ : Type) (K : Type u) where
  uniform : (low high : K) → σ → K × σ
  /-- A natural number from `low` to `high`, if there is one. -/
  between : (low high : Nat) → σ → Except Fault (Nat × σ)
  /-- Some members of a list, each position at most once. -/
  sample : List Item → (count : Nat) → σ → List Item × σ

namespace Instance

variable {σ : Type} {K : Type u}

structure ProbabilityRange (K : Type u) where
  low : K
  high : K

/-- The integers from zero up to, but without, `n`. -/
def rangeTo (n : Int) : List Item := (List.range n.toNat).map Int.ofNat

/-- Adds a singleton for every item of a list. -/
def addSingletons (sampler : Sampler σ K) (range : ProbabilityRange K) (items : List Item)
    (start : Pool K × σ) : Pool K × σ :=
  items.foldl
    (fun (pool, state) i =>
      let (p, state) := sampler.uniform range.low range.high state
      (pool.put (SortedSet.ofList [i]) p, state))
    start

/-- Adds so many random itemsets of two to `largest` items. -/
def addRandomSets (sampler : Sampler σ K) (range : ProbabilityRange K) (population : List Item)
    (largest : Nat) : (count : Nat) → Pool K × σ → Except Fault (Pool K × σ)
  | 0, drawn => .ok drawn
  | count + 1, (pool, state) =>
    (sampler.between 2 largest state).bind fun (size, state) =>
      let (items, state) := sampler.sample population size state
      let (p, state) := sampler.uniform range.low range.high state
      addRandomSets sampler range population largest count
        (pool.putNew (SortedSet.ofList items) p, state)

/-- A random instance with so many items and random itemsets.  Random itemsets need a universe of
two items at least. -/
def random (sampler : Sampler σ K) (range : ProbabilityRange K) (itemCount setCount : Int)
    (state : σ) : Except Fault (Instance K) :=
  let transaction := rangeTo itemCount
  let population := rangeTo (itemCount + 2)
  let singletons := addSingletons sampler range transaction (Pool.empty, state)
  (addRandomSets sampler range population (min 4 population.length) setCount.toNat singletons).map
    fun drawn => { transaction, pool := drawn.1 }

def twisterSampler : Sampler Twister Float where
  uniform := Twister.uniform
  between low high state :=
    if high < low then .error (.emptyRange low (high + 1))
    else
      let (k, state) := Twister.source.index (high - low) state
      .ok (low + k, state)
  sample := Twister.source.sample

/-- Probabilities keep away from zero and one. -/
def probabilities : ProbabilityRange Float := ⟨0.05, 0.95⟩

def ofSeed (itemCount setCount seed : Int) : Except Fault (Instance Float) :=
  random twisterSampler probabilities itemCount setCount (Twister.ofSeed seed)

end Instance

end NoisyCover
