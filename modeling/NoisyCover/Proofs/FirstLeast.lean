import Mathlib
import NoisyCover.PrimalDual
import NoisyCover.Proofs.Greedy.Prices

/-!
# Which element a scan finds

A scan keeps the best element so far.  An element that stands after larger keys only and before no
smaller one replaces whatever was found before it, and is never replaced itself
(`firstLeast_of_isFirstLeast`).  Conversely, what has been found after each element is the first
with the least key so far, provided that the keys are ordered (`isFirstLeast_of_firstLeast`).

Both approximation algorithms scan the candidates of a pool in this way, one for the least cost per
uncovered item, the other for the least residual cost at an item (`scans_findFirstLeast`).
-/

namespace NoisyCover

section Lists

variable {K : Type u} [Arithmetic K] {α : Type v}

/-- Of the elements that have a key, the first with the least key: it stands after larger keys only
and before no smaller one. -/
def IsFirstLeast (HasKey : α → K → Prop) (l : List α) (a : α) (k : K) : Prop :=
  HasKey a k ∧ Arithmetic.bounded k = true ∧ ∃ before after, l = before ++ a :: after ∧
    (∀ b ∈ before, ∀ k', HasKey b k' → k < k') ∧ ∀ b ∈ after, ∀ k', HasKey b k' → k ≤ k'

variable {key : α → Option K} {P : K → Prop} {HasKey : α → K → Prop} {l : List α} {a b : α}
  {k k' : K}

theorem IsFirstLeast.append (h : IsFirstLeast HasKey l a k)
    (hlast : ∀ k', HasKey b k' → k ≤ k') : IsFirstLeast HasKey (l ++ [b]) a k := by
  obtain ⟨hkey, hbounded, before, after, rfl, hbefore, hafter⟩ := h
  refine ⟨hkey, hbounded, before, after ++ [b], List.append_assoc .., hbefore, fun c hc => ?_⟩
  rcases List.mem_append.1 hc with hc | hc
  · exact hafter c hc
  · obtain rfl := List.mem_singleton.1 hc
    exact hlast

theorem IsFirstLeast.congr {HasKey' : α → K → Prop} (hiff : ∀ a ∈ l, ∀ k, HasKey a k ↔ HasKey' a k)
    (h : IsFirstLeast HasKey l a k) : IsFirstLeast HasKey' l a k := by
  obtain ⟨hkey, hbounded, before, after, rfl, hbefore, hafter⟩ := h
  refine ⟨(hiff a (by simp) k).1 hkey, hbounded, before, after, rfl, fun b hb k' hk' => ?_,
    fun b hb k' hk' => ?_⟩
  · exact hbefore b hb k' ((hiff b (by simp [hb]) k').2 hk')
  · exact hafter b hb k' ((hiff b (by simp [hb]) k').2 hk')

theorem foldl_better_of_not_lt : ∀ l : List α, (∀ b ∈ l, ∀ k', key b = some k' → ¬ k' < k) →
    l.foldl (better key) (some (a, k)) = some (a, k)
  | [], _ => rfl
  | b :: l, h => by
    obtain ⟨hb, hl⟩ := List.forall_mem_cons.1 h
    have hkept : better key (some (a, k)) b = some (a, k) := by
      unfold better
      split
      · rfl
      · rename_i k' hk'
        exact if_neg fun hlt => hb k' hk' (of_decide_eq_true hlt)
    rw [List.foldl_cons, hkept]
    exact foldl_better_of_not_lt l hl

/-- The first element with the least key is found. -/
theorem firstLeast_of_isFirstLeast (hP : OrderedOn P) (hkeys : ∀ a ∈ l, ∀ k, key a = some k → P k)
    (h : IsFirstLeast (fun a k => key a = some k) l a k) : firstLeast key l = some (a, k) := by
  obtain ⟨hkey, hbounded, before, after, rfl, hbefore, hafter⟩ := h
  have hbeats : beats k (firstLeast key before) = true := by
    rcases hfirst : firstLeast key before with _ | best
    · exact hbounded
    · obtain ⟨hmem, hbest⟩ := firstLeast_mem hfirst
      exact decide_eq_true (hbefore _ hmem _ hbest)
  have hbetter : better key (firstLeast key before) a = some (a, k) := by
    simp only [better, hkey, hbeats, if_true]
  rw [firstLeast, List.foldl_append, List.foldl_cons]
  refine (congrArg (after.foldl (better key)) hbetter).trans (foldl_better_of_not_lt after ?_)
  intro b hb k' hk'
  rw [← hP.le_iff_not_lt (hkeys a (by simp) k hkey) (hkeys b (by simp [hb]) k' hk')]
  exact hafter b hb k' hk'

/-- What beats all that was found before is below all keys so far. -/
theorem isFirstLeast_of_beats (hP : OrderedOn P) (hkeys : ∀ a ∈ l, ∀ k, key a = some k → P k)
    (hkey : key b = some k) (hk : P k) (hbeats : beats k (firstLeast key l) = true) :
    IsFirstLeast (fun a k => key a = some k) (l ++ [b]) b k := by
  rcases hfirst : firstLeast key l with _ | ⟨a, best⟩
  · rw [hfirst] at hbeats
    refine ⟨hkey, hbeats, l, [], rfl, fun c hc k' hk' => ?_, by simp⟩
    exact hP.lt_of_bounded hk (hkeys c hc k' hk') hbeats
      (firstLeast_eq_none_iff.1 hfirst c hc k' hk')
  · rw [hfirst] at hbeats
    obtain ⟨hmem, hbestkey⟩ := firstLeast_mem hfirst
    have hPbest := hkeys _ hmem _ hbestkey
    have hlt : k < best := of_decide_eq_true hbeats
    refine ⟨hkey, ?_, l, [], rfl, fun c hc k' hk' => ?_, by simp⟩
    · by_contra hunbounded
      exact hP.top hk hPbest (Bool.eq_false_of_not_eq_true hunbounded) hlt
    · have hle := not_lt_firstLeast hP.toTotalOn hkeys hfirst c hc k' hk'
      exact hP.lt_of_lt_of_le hk hPbest (hkeys c hc k' hk') hlt
        ((hP.le_iff_not_lt hPbest (hkeys c hc k' hk')).2 hle)

/-- What is found is the first element with the least key. -/
theorem isFirstLeast_of_firstLeast (hP : OrderedOn P)
    (hkeys : ∀ a ∈ l, ∀ k, key a = some k → P k) (h : firstLeast key l = some (a, k)) :
    IsFirstLeast (fun a k => key a = some k) l a k := by
  induction l using List.reverseRecOn generalizing a k with
  | nil => cases h
  | append_singleton l b ih =>
    have hkeysl : ∀ a ∈ l, ∀ k, key a = some k → P k :=
      fun a ha => hkeys a (List.mem_append_left _ ha)
    have hkeysb : ∀ k, key b = some k → P k :=
      hkeys b (List.mem_append_right _ List.mem_cons_self)
    rw [firstLeast, List.foldl_append, List.foldl_cons, List.foldl_nil] at h
    change better key (firstLeast key l) b = some (a, k) at h
    unfold better at h
    split at h
    · rename_i hb
      exact (ih hkeysl h).append fun k' hk' => by simp [hb] at hk'
    · rename_i kb hb
      split_ifs at h with hbeats
      · obtain ⟨rfl, rfl⟩ := Prod.mk.inj (Option.some.inj h)
        exact isFirstLeast_of_beats hP hkeysl hb (hkeysb _ hb) hbeats
      · refine (ih hkeysl h).append fun k' hk' => ?_
        obtain rfl := Option.some.inj (hb.symm.trans hk')
        obtain ⟨hmem, hk⟩ := firstLeast_mem h
        rw [hP.le_iff_not_lt (hkeysl _ hmem _ hk) (hkeysb _ hb)]
        rw [h] at hbeats
        exact fun hlt => hbeats (decide_eq_true hlt)

/-- Elements that are filtered out have no key. -/
theorem firstLeast_filter (p : α → Bool) (l : List α) :
    firstLeast key (l.filter p) = firstLeast (fun a => if p a then key a else none) l := by
  rw [firstLeast, firstLeast, List.foldl_filter]
  congr 1
  funext best a
  by_cases h : p a <;> simp [better, h]

end Lists

section Pools

variable {K : Type u} [Arithmetic K] {P : K → Prop}

/-- What a scan of a pool finds.  It is nothing if every key is infinite, and otherwise the first
itemset with the least key, in the order of the pool. -/
structure FindsFirstLeast (HasKey : Candidate K → K → Prop) (pool : Pool K)
    (found : Option (Itemset × K)) : Prop where
  eq_none_iff : found = none ↔ ∀ c k, HasKey c k → Arithmetic.bounded k = false
  eq_some_iff : ∀ s k, found = some (s, k) ↔
    ∃ c, c.1 = s ∧ IsFirstLeast HasKey pool.candidates c k

theorem findsFirstLeast (hP : OrderedOn P) {pool : Pool K} {HasKey : Candidate K → K → Prop}
    {key : Candidate K → Option K} (hmem : ∀ c k, HasKey c k → c ∈ pool.candidates)
    (hkey : ∀ c ∈ pool.candidates, ∀ k, key c = some k ↔ HasKey c k)
    (hkeys : ∀ c k, HasKey c k → P k) :
    FindsFirstLeast HasKey pool
      ((firstLeast key pool.candidates).map fun found => (found.1.1, found.2)) where
  eq_none_iff := by
    rw [Option.map_eq_none_iff, firstLeast_eq_none_iff]
    constructor
    · intro h c k hk
      exact h c (hmem c k hk) k ((hkey c (hmem c k hk) k).2 hk)
    · intro h c hc k hk
      exact h c k ((hkey c hc k).1 hk)
  eq_some_iff s k := by
    have hkeys' : ∀ c ∈ pool.candidates, ∀ k, key c = some k → P k :=
      fun c hc k hk => hkeys c k ((hkey c hc k).1 hk)
    rw [Option.map_eq_some_iff]
    constructor
    · rintro ⟨⟨c, k'⟩, hfound, heq⟩
      obtain ⟨rfl, rfl⟩ := Prod.mk.inj heq
      exact ⟨c, rfl, (isFirstLeast_of_firstLeast hP hkeys' hfound).congr hkey⟩
    · rintro ⟨c, rfl, hfirst⟩
      exact ⟨(c, k), firstLeast_of_isFirstLeast hP hkeys'
        (hfirst.congr fun c hc k => (hkey c hc k).symm), rfl⟩

/-- A candidate with an uncovered item, and its cost per uncovered item. -/
def Greedy.HasPrice (pool : Pool K) (t : Transaction) (covered : SortedSet Item)
    (c : Candidate K) (k : K) : Prop :=
  c ∈ (pool.within t).candidates ∧ (∃ i ∈ c.1, i ∉ covered) ∧ k = price covered c

/-- A candidate that contains an item, and its residual cost. -/
def PrimalDual.HasResidual (pool : Pool K) (t : Transaction) (residual : Itemset → K) (item : Item)
    (c : Candidate K) (k : K) : Prop :=
  c ∈ (pool.within t).candidates ∧ item ∈ c.1 ∧ k = residual c.1

theorem isAdmissible_iff_mem_within {pool : Pool K} {t : Transaction} {c : Candidate K}
    (hc : c ∈ pool.candidates) :
    Pool.isAdmissible t.items c = true ↔ c ∈ (pool.within t).candidates :=
  (List.mem_filter.trans (and_iff_right hc)).symm

theorem Greedy.hasPrice_iff {pool : Pool K} {t : Transaction} {covered : SortedSet Item}
    {c : Candidate K} (hc : c ∈ pool.candidates) (k : K) :
    (if Pool.isAdmissible t.items c then costPerItem covered c else none) = some k ↔
      HasPrice pool t covered c k := by
  rw [HasPrice, ← isAdmissible_iff_mem_within hc, ← size_sdiff_ne_zero_iff,
    ← costPerItem_eq_some_iff]
  split_ifs with h <;> simp [h]

theorem PrimalDual.hasResidual_iff {pool : Pool K} {t : Transaction} {residual : Itemset → K}
    {item : Item} {c : Candidate K} (hc : c ∈ pool.candidates) (k : K) :
    (if Pool.isAdmissible t.items c then residualFor item (c.1, residual c.1) else none) = some k ↔
      HasResidual pool t residual item c k := by
  rw [HasResidual, ← isAdmissible_iff_mem_within hc]
  unfold residualFor
  split_ifs with h hin <;> simp [eq_comm, *]

/-- As long as the keys can be compared, both scans find the first candidate with the least key, in
the order of the pool and together with that key, and nothing only if no key is below infinity.
Greedy covering scans the candidates with an uncovered item for the least cost per such item, and
primal-dual covering those that contain the drawn item for the least residual cost. -/
theorem scans_findFirstLeast (hP : OrderedOn P) (pool : Pool K) (t : Transaction) :
    (∀ covered : SortedSet Item, (∀ c k, Greedy.HasPrice pool t covered c k → P k) →
      FindsFirstLeast (Greedy.HasPrice pool t covered) pool
        ((Greedy.choose (pool.within t).candidates covered).map
          fun found => (found.1.1, found.2))) ∧
    ∀ (residual : Itemset → K) (item : Item),
      (∀ c k, PrimalDual.HasResidual pool t residual item c k → P k) →
        FindsFirstLeast (PrimalDual.HasResidual pool t residual item) pool
          ((PrimalDual.tightest item
            ((pool.within t).itemsets.map fun s => (s, residual s))).map
              fun found => (found.1.1, found.2)) := by
  refine ⟨fun covered hkeys => ?_, fun residual item hkeys => ?_⟩
  · rw [Greedy.choose, Pool.within, Pool.candidates_filter, firstLeast_filter]
    exact findsFirstLeast hP (fun c k h => (Pool.mem_within.1 h.1).1)
      (fun c hc k => Greedy.hasPrice_iff hc k) hkeys
  · rw [PrimalDual.tightest, Pool.itemsets, List.map_map, firstLeast_map, Option.map_map,
      Pool.within, Pool.candidates_filter, firstLeast_filter]
    exact findsFirstLeast hP (fun c k h => (Pool.mem_within.1 h.1).1)
      (fun c hc k => PrimalDual.hasResidual_iff hc k) hkeys

end Pools

section Twins

/-- An item that is not in the transaction, and two that are, each as an even candidate. -/
def twins : Pool Float where
  candidates := [(SortedSet.ofList [3], 0.5), (SortedSet.ofList [1], 0.5),
    (SortedSet.ofList [2], 0.5)]
  nodup := by decide

theorem twins_within :
    letI := Arithmetic.doublesWith Double.nearestLog
    (twins.within [1, 2]).candidates =
      [(SortedSet.ofList [1], 0.5), (SortedSet.ofList [2], 0.5)] := by
  decide

theorem isFirstLeast_twins {HasKey : Candidate Float → Float → Prop} {k : Float} {a : ℝ} :
    letI := Arithmetic.doublesWith Double.nearestLog
    HasKey (SortedSet.ofList [1], 0.5) k → Double.value k = some (a : EReal) →
      (∀ c k', HasKey c k' → c ∈ (twins.within [1, 2]).candidates ∧ k' = k) →
        IsFirstLeast HasKey twins.candidates (SortedSet.ofList [1], 0.5) k := by
  let _ := Arithmetic.doublesWith Double.nearestLog
  intro hkey hk hkeys
  let R := Double.doubleRounding Double.nearestLog_isLogarithm
  refine ⟨hkey, R.bounded_of_isFinite ⟨a, hk⟩, [_], [_], rfl, fun b hb k' hk' => ?_,
    fun b _ k' hk' => ?_⟩
  · obtain rfl := List.mem_singleton.1 hb
    have hout := (hkeys _ k' hk').1
    rw [twins_within] at hout
    rcases List.mem_pair.1 hout with h | h <;> exact absurd (congrArg Prod.fst h) (by decide)
  · rw [(hkeys b k' hk').2]
    exact (R.le_iff_of_value hk hk).2 le_rfl

/-- Of two candidates with the same key, the first in the pool is found. -/
theorem scans_find_first_twin :
    letI := Arithmetic.doublesWith Double.nearestLog
    (Greedy.choose (twins.within [1, 2]).candidates ∅).map (fun found => (found.1.1, found.2)) =
        some (SortedSet.ofList [1], selectionCost 0.5 / ((1 : ℕ) : Float)) ∧
      (PrimalDual.tightest 1 ((twins.within [1, 2]).itemsets.map fun s => (s, (1 : Float)))).map
          (fun found => (found.1.1, found.2)) =
        some (SortedSet.ofList [1], 1) := by
  let _ := Arithmetic.doublesWith Double.nearestLog
  let R := Double.doubleRounding Double.nearestLog_isLogarithm
  obtain ⟨hgreedy, hprimalDual⟩ := scans_findFirstLeast R.orderedOn twins [1, 2]
  constructor
  · obtain ⟨a, -, ha⟩ := (R.isCost_selectionCost (p := 0.5) (by decide) (by decide)).div
      R.toRounding one_ne_zero
    have hprice : ∀ c k, Greedy.HasPrice twins [1, 2] ∅ c k →
        c ∈ (twins.within [1, 2]).candidates ∧ k = selectionCost 0.5 / ((1 : ℕ) : Float) := by
      rintro c k ⟨hc, -, rfl⟩
      refine ⟨hc, ?_⟩
      rw [twins_within, List.mem_pair] at hc
      rcases hc with rfl | rfl <;> rfl
    refine ((hgreedy ∅ fun c k h => ?_).eq_some_iff _ _).2
      ⟨_, rfl, isFirstLeast_twins ⟨?_, by simp, rfl⟩ ha hprice⟩
    · rw [(hprice c k h).2]
      exact ⟨a, ha⟩
    · rw [twins_within]
      exact List.mem_cons_self
  · refine ((hprimalDual (fun _ => 1) 1 fun c k h => ?_).eq_some_iff _ _).2
      ⟨_, rfl, isFirstLeast_twins ⟨?_, by decide, rfl⟩ R.value_one fun c k h => ⟨h.1, h.2.2⟩⟩
    · rw [h.2.2]
      exact ⟨1, R.value_one⟩
    · rw [twins_within]
      exact List.mem_cons_self

end Twins

end NoisyCover
