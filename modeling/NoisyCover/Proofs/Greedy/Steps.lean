import Mathlib
import NoisyCover.Greedy
import NoisyCover.Proofs.Covering
import NoisyCover.Proofs.Scan

/-!
# The steps of greedy covering

A step selects a candidate of least cost per newly covered item (`choose_spec`), namely what the
scan finds once the steps before it have covered their items (`choose_of_picksFrom_eq`).  Other
statements about all steps follow the recursion that takes them: a selection is the itemset of the
first step put into the selection of the others.
-/

namespace NoisyCover.Greedy

/-- A step covers what it newly covers, and leaves what it does not. -/
theorem size_sdiff_union_add (s u covered : SortedSet Item) :
    (s \ (covered ∪ u)).size + ((u \ covered) ∩ s).size = (s \ covered).size := by
  have hsdiff : (s \ covered) \ (u \ covered) = s \ (covered ∪ u) := by
    refine SortedSet.ext_mem fun i => ?_
    simp only [SortedSet.mem_sdiff, SortedSet.mem_union]
    tauto
  have hinter : (s \ covered) ∩ (u \ covered) = (u \ covered) ∩ s := by
    refine SortedSet.ext_mem fun i => ?_
    simp only [SortedSet.mem_sdiff, SortedSet.mem_inter]
    tauto
  rw [← hsdiff, ← hinter]
  exact SortedSet.size_sdiff_add_size_inter _ _

theorem union_unionOf_cons (covered s : SortedSet Item) (sets : List Itemset) :
    covered ∪ unionOf (s :: sets) = (covered ∪ s) ∪ unionOf sets := by
  refine SortedSet.ext_mem fun i => ?_
  simp only [SortedSet.mem_union, mem_unionOf, List.exists_mem_cons_iff, or_assoc]

section Selected

variable {K : Type u}

theorem selected_nil : selected ([] : List (Pick K)) = ∅ := rfl

theorem mem_selected {picks : List (Pick K)} {s : Itemset} :
    s ∈ selected picks ↔ ∃ p ∈ picks, p.itemset = s := by
  rw [selected, SortedSet.mem_ofList, List.mem_map]

theorem selected_cons (p : Pick K) (picks : List (Pick K)) :
    selected (p :: picks) = (selected picks).insert p.itemset := by
  refine SortedSet.ext_mem fun s => ?_
  rw [SortedSet.mem_insert, mem_selected, mem_selected, List.exists_mem_cons_iff, eq_comm]

variable [Arithmetic K] {candidates : List (Candidate K)} {items covered : SortedSet Item}

theorem picksFrom_of_choose_eq_none (h : ¬ items ⊆ covered)
    (hnone : choose candidates covered = none) : picksFrom candidates items covered = [] := by
  rw [picksFrom, if_neg h]
  split
  · rfl
  · rename_i hsome
    rw [hnone] at hsome
    cases hsome

theorem picksFrom_of_choose_eq_some {found : Candidate K × K} (h : ¬ items ⊆ covered)
    (hsome : choose candidates covered = some found) :
    picksFrom candidates items covered =
      ⟨found.1.1, found.2⟩ :: picksFrom candidates items (covered ∪ found.1.1) := by
  rw [picksFrom, if_neg h]
  split
  · rename_i hnone
    rw [hsome] at hnone
    cases hnone
  · rename_i found' hsome'
    rw [hsome] at hsome'
    obtain rfl := Option.some.inj hsome'
    rfl

/-- Every selected itemset is one of the candidates. -/
theorem mem_itemsets_of_mem_picksFrom {p : Pick K} (hp : p ∈ picksFrom candidates items covered) :
    p.itemset ∈ candidates.map Prod.fst := by
  fun_induction picksFrom candidates items covered with
  | case1 covered h => simp at hp
  | case2 covered h hnone => simp at hp
  | case3 covered h found hsome ih =>
    rcases List.mem_cons.1 hp with rfl | hp
    · exact List.mem_map_of_mem (firstLeast_mem hsome).1
    · exact ih hp

theorem mem_itemsets_of_mem_selection {pool : Pool K} {t : Transaction} {s : Itemset}
    (hs : s ∈ selection pool t) : s ∈ (pool.within t).itemsets := by
  obtain ⟨p, hp, rfl⟩ := mem_selected.1 hs
  rw [picks_eq] at hp
  exact mem_itemsets_of_mem_picksFrom hp

end Selected

section Choice

variable {K : Type u} [Arithmetic K] {candidates : List (Candidate K)}
  {items covered : SortedSet Item}

/-- What a candidate costs per uncovered item. -/
def price (covered : SortedSet Item) (c : Candidate K) : K :=
  selectionCost c.2 / ((c.1 \ covered).size : K)

theorem costPerItem_eq_some_iff {c : Candidate K} {k : K} : costPerItem covered c = some k ↔
    (c.1 \ covered).size ≠ 0 ∧ k = price covered c := by
  unfold costPerItem Offer.costPerItem offer price
  split_ifs with h <;> simp [h, eq_comm]

/-- A step selects a candidate with an uncovered item, at its price. -/
theorem eq_price_of_choose {found : Candidate K × K} (h : choose candidates covered = some found) :
    found.1 ∈ candidates ∧ (found.1.1 \ covered).size ≠ 0 ∧ found.2 = price covered found.1 :=
  ⟨(firstLeast_mem h).1, costPerItem_eq_some_iff.1 (firstLeast_mem h).2⟩

/-- What a step selects when the steps before it have covered their items. -/
theorem choose_of_picksFrom_eq {before after : List (Pick K)} {p : Pick K}
    (h : picksFrom candidates items covered = before ++ p :: after) :
    ∃ c, choose candidates (covered ∪ unionOf (before.map Pick.itemset)) = some (c, p.price) ∧
      c.1 = p.itemset := by
  fun_induction picksFrom candidates items covered generalizing before with
  | case1 covered hdone => simp at h
  | case2 covered hdone hnone => simp at h
  | case3 covered hdone found hsome ih =>
    cases before with
    | nil =>
      obtain ⟨rfl, -⟩ := List.cons.inj h
      rw [List.map_nil, show unionOf [] = ∅ from rfl, SortedSet.union_empty]
      exact ⟨found.1, hsome, rfl⟩
    | cons q before =>
      obtain ⟨rfl, hrest⟩ := List.cons.inj h
      rw [List.map_cons, union_unionOf_cons]
      exact ih hrest

end Choice

section Reals

variable {candidates : List (Candidate ℝ)} {covered : SortedSet Item}

theorem costPerItem_eq_some {c : Candidate ℝ} (h : (c.1 \ covered).size ≠ 0) :
    costPerItem covered c = some (onCost c.2 / (c.1 \ covered).size) :=
  costPerItem_eq_some_iff.2 ⟨h, rfl⟩

/-- A step selects a candidate with an uncovered item, at the least cost per such item. -/
theorem choose_spec {found : Candidate ℝ × ℝ} (h : choose candidates covered = some found) :
    found.1 ∈ candidates ∧ (found.1.1 \ covered).size ≠ 0 ∧
      found.2 = onCost found.1.2 / (found.1.1 \ covered).size ∧
      ∀ c ∈ candidates, (c.1 \ covered).size ≠ 0 →
        found.2 ≤ onCost c.2 / (c.1 \ covered).size := by
  obtain ⟨hmem, hfresh, hprice⟩ := eq_price_of_choose h
  exact ⟨hmem, hfresh, hprice, fun c hc hsize => firstLeast_le h hc (costPerItem_eq_some hsize)⟩

/-- A step selects the candidate whose cost per uncovered item is below that of all others. -/
theorem choose_eq_some {c : Candidate ℝ} {price : ℝ} (hc : c ∈ candidates)
    (hfresh : (c.1 \ covered).size ≠ 0) (hprice : onCost c.2 / (c.1 \ covered).size = price)
    (hlt : ∀ d ∈ candidates, d ≠ c → (d.1 \ covered).size ≠ 0 →
      price < onCost d.2 / (d.1 \ covered).size) :
    choose candidates covered = some (c, price) := by
  refine firstLeast_eq_some hc (hprice ▸ costPerItem_eq_some hfresh) fun d hd hne k hk => ?_
  obtain ⟨hsize, rfl⟩ := costPerItem_eq_some_iff.1 hk
  exact hlt d hd hne hsize

end Reals

end NoisyCover.Greedy
