import NoisyCover.Itemset
import NoisyCover.Arithmetic

/-!
# Pools of candidate itemsets

A pool lists candidate itemsets with their probabilities, each itemset once, in the order in which
they first came.  The order matters: it decides ties.
-/

namespace NoisyCover

/-- A candidate itemset with its probability. -/
abbrev Candidate (K : Type u) := Itemset × K

/-- Candidate itemsets in order of first appearance. -/
structure Pool (K : Type u) where
  candidates : List (Candidate K)
  nodup : (candidates.map Prod.fst).Nodup

namespace Pool

variable {K : Type u}

@[ext] theorem ext_candidates {a b : Pool K} (h : a.candidates = b.candidates) : a = b := by
  cases a; cases b; cases h; rfl

def empty : Pool K := ⟨[], .nil⟩

def itemsets (pool : Pool K) : List Itemset := pool.candidates.map Prod.fst

def has (pool : Pool K) (s : Itemset) : Bool := decide (s ∈ pool.itemsets)

@[simp] theorem has_iff {pool : Pool K} {s : Itemset} : pool.has s = true ↔ s ∈ pool.itemsets := by
  simp [has]

def size (pool : Pool K) : Nat := pool.candidates.length

/-- Writes a probability at an itemset's place, or at the end if it is new. -/
def putIn (s : Itemset) (p : K) : List (Candidate K) → List (Candidate K)
  | [] => [(s, p)]
  | c :: rest => if c.1 = s then (s, p) :: rest else c :: putIn s p rest

theorem mem_itemsets_putIn {s x : Itemset} {p : K} {l : List (Candidate K)} :
    x ∈ (putIn s p l).map Prod.fst ↔ x = s ∨ x ∈ l.map Prod.fst := by
  induction l with
  | nil => simp [putIn]
  | cons c rest ih =>
    unfold putIn
    split
    · rename_i h
      simp [h]
    · simp only [List.map_cons, List.mem_cons, ih]
      constructor
      · rintro (h | h | h) <;> simp [h]
      · rintro (h | h | h) <;> simp [h]

theorem nodup_putIn {s : Itemset} {p : K} {l : List (Candidate K)}
    (h : (l.map Prod.fst).Nodup) : ((putIn s p l).map Prod.fst).Nodup := by
  induction l with
  | nil => simp [putIn]
  | cons c rest ih =>
    have hc := List.nodup_cons.1 h
    unfold putIn
    split
    · rename_i hs
      subst hs
      exact List.nodup_cons.2 hc
    · rename_i hs
      refine List.nodup_cons.2 ⟨fun hm => ?_, ih hc.2⟩
      rcases mem_itemsets_putIn.1 hm with e | e
      · exact hs e
      · exact hc.1 e

/-- The pool with a probability set: a known itemset keeps its place, a new one goes to the end. -/
def put (pool : Pool K) (s : Itemset) (p : K) : Pool K :=
  ⟨putIn s p pool.candidates, nodup_putIn pool.nodup⟩

/-- The pool with a new itemset at the end; a known itemset keeps the probability it has. -/
def putNew (pool : Pool K) (s : Itemset) (p : K) : Pool K :=
  if pool.has s then pool else pool.put s p

/-- The pool of a list of candidates, read in order. -/
def ofList (l : List (Candidate K)) : Pool K := l.foldl (fun pool c => pool.put c.1 c.2) empty

def filter (pool : Pool K) (test : Candidate K → Bool) : Pool K :=
  ⟨pool.candidates.filter test, pool.nodup.sublist (pool.candidates.filter_sublist.map _)⟩

@[simp] theorem candidates_filter (pool : Pool K) (test : Candidate K → Bool) :
    (pool.filter test).candidates = pool.candidates.filter test := rfl

section Admissible
variable [Arithmetic K]

/-- Whether a candidate can take part in explaining a set of items: it is possible at all, and all
its items are among them. -/
def isAdmissible (items : SortedSet Item) (c : Candidate K) : Bool :=
  decide (0 < c.2) && decide (c.1 ⊆ items)

/-- The candidates with positive probability that lie within the transaction, in order. -/
def within (pool : Pool K) (transaction : Transaction) : Pool K :=
  pool.filter (isAdmissible transaction.items)

theorem mem_within {pool : Pool K} {t : Transaction} {c : Candidate K} :
    c ∈ (pool.within t).candidates ↔
      c ∈ pool.candidates ∧ 0 < c.2 ∧ ∀ i ∈ c.1, i ∈ t := by
  simp [within, isAdmissible, SortedSet.subset_def]

end Admissible

end Pool

end NoisyCover
