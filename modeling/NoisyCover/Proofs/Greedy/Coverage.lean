import Mathlib
import NoisyCover.Inference
import NoisyCover.Proofs.Charges
import NoisyCover.Proofs.Greedy.Steps

/-!
# What greedy covering covers

A step selects an itemset with an item that no earlier step has covered (`exists_fresh`).  So no
itemset is selected twice, and there are at most as many steps as items (`length_picksFrom_le`).
While a candidate has an uncovered item its price is a number below positive infinity, which the
scan for the least price finds.  So the steps only end when they have covered every item of every
candidate (`covers_candidates`), and what is left over is what no candidate contains.
-/

namespace NoisyCover.Greedy

section Steps

variable {K : Type u} [Arithmetic K] {candidates : List (Candidate K)}
  {items covered : SortedSet Item}

theorem size_sdiff_ne_zero_iff {s : Itemset} : (s \ covered).size ≠ 0 ↔ ∃ i ∈ s, i ∉ covered := by
  rw [Ne, SortedSet.size_eq_zero_iff]
  simp only [SortedSet.mem_sdiff]
  push Not
  rfl

theorem choose_mem {found : Candidate K × K} (h : choose candidates covered = some found) :
    found.1 ∈ candidates ∧ ∃ i ∈ found.1.1, i ∉ covered := by
  obtain ⟨hmem, hsize, -⟩ := eq_price_of_choose h
  exact ⟨hmem, size_sdiff_ne_zero_iff.1 hsize⟩

/-- Every selected itemset has an item that is in no earlier one. -/
theorem exists_fresh {before after : List (Pick K)} {p : Pick K}
    (h : picksFrom candidates items covered = before ++ p :: after) :
    ∃ i ∈ p.itemset, i ∉ covered ∧ ∀ q ∈ before, i ∉ q.itemset := by
  obtain ⟨c, hchoose, hc⟩ := choose_of_picksFrom_eq h
  obtain ⟨i, hi, hnew⟩ := (choose_mem hchoose).2
  rw [SortedSet.mem_union, not_or, mem_unionOf] at hnew
  exact ⟨i, hc ▸ hi, hnew.1, fun q hq hin => hnew.2 ⟨_, List.mem_map_of_mem hq, hin⟩⟩

theorem nodup_itemsets_picksFrom :
    ((picksFrom candidates items covered).map Pick.itemset).Nodup := by
  fun_induction picksFrom candidates items covered with
  | case1 covered hdone => exact List.nodup_nil
  | case2 covered hdone hnone => exact List.nodup_nil
  | case3 covered hdone found hsome ih =>
    refine List.nodup_cons.2 ⟨fun hmem => ?_, ih⟩
    obtain ⟨p, hp, heq : p.itemset = found.1.1⟩ := List.mem_map.1 hmem
    obtain ⟨before, after, hsplit⟩ := List.append_of_mem hp
    obtain ⟨i, hi, hnew, -⟩ := exists_fresh hsplit
    rw [heq] at hi
    exact hnew (SortedSet.mem_union.2 (.inr hi))

/-- Every step covers another of the items. -/
theorem length_picksFrom_le (hsub : ∀ c ∈ candidates, c.1 ⊆ items) :
    (picksFrom candidates items covered).length ≤ (items \ covered).size := by
  fun_induction picksFrom candidates items covered with
  | case1 covered hdone => exact Nat.zero_le _
  | case2 covered hdone hnone => exact Nat.zero_le _
  | case3 covered hdone found hsome ih =>
    obtain ⟨hmem, i, hi, hnew⟩ := choose_mem hsome
    have hsize := size_sdiff_union_add items found.1.1 covered
    have hpos : ((found.1.1 \ covered) ∩ items).size ≠ 0 := fun hzero =>
      SortedSet.size_eq_zero_iff.1 hzero i
        (SortedSet.mem_inter.2 ⟨SortedSet.mem_sdiff.2 ⟨hi, hnew⟩, hsub _ hmem i hi⟩)
    rw [List.length_cons]
    omega

/-- The steps end when they have covered every item of every candidate. -/
theorem covers_candidates (R : Rounding K) (hsub : ∀ c ∈ candidates, c.1 ⊆ items)
    (hp : ∀ c ∈ candidates, 0 < c.2 ∧ c.2 ≤ 1) :
    ∀ c ∈ candidates, ∀ i ∈ c.1,
      i ∈ covered ∨ ∃ p ∈ picksFrom candidates items covered, i ∈ p.itemset := by
  fun_induction picksFrom candidates items covered with
  | case1 covered hdone => exact fun c hc i hi => .inl (hdone i (hsub c hc i hi))
  | case2 covered hdone hnone =>
    intro c hc i hi
    by_contra hnew
    have hsize := size_sdiff_ne_zero_iff.2 ⟨i, hi, fun h => hnew (.inl h)⟩
    have hbounded := R.bounded_div (R.isCost_selectionCost (hp c hc).1 (hp c hc).2) hsize
    have hunbounded := firstLeast_eq_none_iff.1 hnone c hc _ (if_neg hsize)
    exact Bool.false_ne_true (hunbounded.symm.trans hbounded)
  | case3 covered hdone found hsome ih =>
    intro c hc i hi
    rcases ih c hc i hi with hcovered | ⟨p, hp, hip⟩
    · rcases SortedSet.mem_union.1 hcovered with h | h
      · exact .inl h
      · exact .inr ⟨_, List.mem_cons_self, h⟩
    · exact .inr ⟨p, List.mem_cons_of_mem _ hp, hip⟩

end Steps

section Selection

variable {K : Type u} [Arithmetic K] {pool : Pool K} {t : Transaction}

theorem unionOf_picks (R : Rounding K) (hp : ∀ c ∈ (pool.within t).candidates, c.2 ≤ 1) :
    unionOf ((picks pool t).map Pick.itemset) = unionOf (pool.within t).itemsets := by
  have hcovers : ∀ c ∈ (pool.within t).candidates, ∀ i ∈ c.1, i ∈ (∅ : SortedSet Item) ∨
      ∃ p ∈ picksFrom (pool.within t).candidates t.items ∅, i ∈ p.itemset :=
    covers_candidates R (fun c hc i hi => Transaction.mem_items.2 ((Pool.mem_within.1 hc).2.2 i hi))
      fun c hc => ⟨Pool.pos_of_mem_within c hc, hp c hc⟩
  refine SortedSet.ext_mem fun i => ?_
  rw [mem_unionOf, mem_unionOf, picks_eq]
  constructor
  · rintro ⟨s, hs, hi⟩
    obtain ⟨p, hp, rfl⟩ := List.mem_map.1 hs
    exact ⟨_, mem_itemsets_of_mem_picksFrom hp, hi⟩
  · rintro ⟨s, hs, hi⟩
    obtain ⟨c, hc, rfl⟩ := List.mem_map.1 hs
    obtain ⟨p, hp, hip⟩ := (hcovers c hc i hi).resolve_left (SortedSet.notMem_empty i)
    exact ⟨_, List.mem_map_of_mem hp, hip⟩

theorem unionOf_selection (pool : Pool K) (t : Transaction) :
    unionOf (selection pool t).toList = unionOf ((picks pool t).map Pick.itemset) := by
  refine SortedSet.ext_mem fun i => ?_
  rw [mem_unionOf, mem_unionOf]
  exact exists_congr fun s => and_congr_left fun _ => SortedSet.mem_ofList

/-- A step selects a candidate that was not selected before, so there are at most as many steps as
candidates. -/
theorem length_picks_le (pool : Pool K) (t : Transaction) :
    (picks pool t).length ≤ min t.items.size (pool.within t).size := by
  rw [picks_eq, le_min_iff]
  constructor
  · refine (length_picksFrom_le fun c hc i hi => ?_).trans_eq ?_
    · exact Transaction.mem_items.2 ((Pool.mem_within.1 hc).2.2 i hi)
    · rw [show t.items \ ∅ = t.items from SortedSet.ext_mem fun i => by simp]
  · rw [Pool.size, ← List.length_map Pick.itemset, ← List.length_map Prod.fst]
    refine (nodup_itemsets_picksFrom.subperm fun s hs => ?_).length_le
    obtain ⟨p, hp, rfl⟩ := List.mem_map.1 hs
    exact mem_itemsets_of_mem_picksFrom hp

theorem leftover_picks (h : unionOf ((picks pool t).map Pick.itemset) =
    unionOf (pool.within t).itemsets) :
    leftover t (picks pool t) = SortedSet.ofList (isolatedItems (pool.within t) t) := by
  refine SortedSet.ext_mem fun i => ?_
  rw [leftover, h, SortedSet.mem_sdiff, Transaction.mem_items, SortedSet.mem_ofList,
    mem_isolatedItems]

theorem covering_infer_empty (pool : Pool K) (t : Transaction) :
    (infer ∅ pool t).covering = selection pool t :=
  SortedSet.empty_union _

theorem exists_mem_selection (R : Rounding K)
    (hp : ∀ c ∈ (pool.within t).candidates, c.2 ≤ 1) {i : Item} :
    (∃ d ∈ selection pool t, i ∈ d) ↔ ∃ s ∈ (pool.within t).itemsets, i ∈ s := by
  rw [← mem_unionOf, ← unionOf_picks R hp, ← unionOf_selection, mem_unionOf]
  rfl

theorem isComplete_selection (R : Rounding K) (hp : ∀ c ∈ (pool.within t).candidates, c.2 ≤ 1)
    (h : isolatedItems (pool.within t) t = []) : isComplete (selection pool t) pool t = true := by
  refine isComplete_iff.2 ⟨fun s hs => mem_itemsets_of_mem_selection hs, fun i hi => ?_⟩
  exact (exists_mem_selection R hp).2 ((isolatedItems_eq_nil_iff _).1 h i hi)

/-- A selection that contains the items of all candidates passes every check but for the items that
no candidate contains. -/
theorem audit_selection (R : Rounding K) (hp : ∀ c ∈ (pool.within t).candidates, c.2 < 1) :
    ∃ a, audit (selection pool t) pool t = .ok a ∧ a.foreign = ∅ ∧
      a.missing = isolatedItems (pool.within t) t := by
  obtain ⟨total, htotal⟩ : ∃ total, (pool.within t).cost (selection pool t) = .ok total :=
    (Pool.exists_cost_iff R Pool.pos_of_mem_within _).2 fun c hc _ => hp c hc
  have hown : (selection pool t).filter (pool.within t).has = selection pool t := by
    refine SortedSet.ext_mem fun s => ?_
    rw [SortedSet.mem_filter, Pool.has_iff]
    exact and_iff_left_of_imp mem_itemsets_of_mem_selection
  unfold audit
  simp only [htotal, hown, Except.map]
  refine ⟨_, rfl, SortedSet.ext_mem fun s => ?_, ?_⟩
  · rw [SortedSet.mem_sdiff]
    exact iff_of_false (fun h => h.2 h.1) (SortedSet.notMem_empty s)
  · rw [isolatedItems_eq_filter, unionOf_selection,
      unionOf_picks R fun c hc => R.le_of_lt (hp c hc)]

end Selection

/-- Greedy covering covers every item that a candidate contains, and every step is needed for that:
its itemset is a candidate that no other step selects, with an item that no earlier step covers.
So there are at most as many steps as items and as candidates.  A check of the selection misses
exactly the isolated items, and these are what the log says is left over, if any. -/
theorem infer_covers_coverable {K : Type u} [Arithmetic K] (R : Rounding K) (covering : Covering)
    (pool : Pool K) (t : Transaction) (hp : ∀ c ∈ (pool.within t).candidates, c.2 < 1) :
    let filtered := pool.within t
    let steps := picks pool t
    let isolated := isolatedItems filtered t
    steps.length ≤ min t.items.size filtered.size ∧
      (∀ p ∈ steps, p.itemset ∈ filtered.itemsets) ∧
      (steps.map Pick.itemset).Nodup ∧
      (∀ before p after, steps = before ++ p :: after →
        ∃ i ∈ p.itemset, ∀ q ∈ before, i ∉ q.itemset) ∧
      unionOf (steps.map Pick.itemset) = unionOf filtered.itemsets ∧
      (infer covering pool t).covering = covering ∪ SortedSet.ofList (steps.map Pick.itemset) ∧
      (∃ a, audit (infer ∅ pool t).covering pool t = .ok a ∧ a.foreign = ∅ ∧
        a.missing = isolated) ∧
      (infer covering pool t).log = (steps.map Note.selected ++ if isolated = [] then []
        else [Note.incomplete (SortedSet.ofList isolated)]).map .greedy := by
  intro filtered steps isolated
  have hunion := unionOf_picks R fun c hc => R.le_of_lt (hp c hc)
  have hleft := leftover_picks hunion
  refine ⟨length_picks_le pool t, ?_, ?_, ?_, hunion, rfl, ?_, ?_⟩
  · intro p hp
    rw [show steps = _ from picks_eq pool t] at hp
    exact mem_itemsets_of_mem_picksFrom hp
  · rw [show steps = _ from picks_eq pool t]
    exact nodup_itemsets_picksFrom
  · intro before p after h
    rw [show steps = _ from picks_eq pool t] at h
    obtain ⟨i, hi, -, hbefore⟩ := exists_fresh h
    exact ⟨i, hi, hbefore⟩
  · rw [covering_infer_empty]
    exact audit_selection R hp
  · have hempty : (SortedSet.ofList isolated).size = 0 ↔ isolated = [] := by
      rw [SortedSet.size_eq_zero_iff, List.eq_nil_iff_forall_not_mem]
      exact forall_congr' fun i => not_congr SortedSet.mem_ofList
    show (notes t steps).map _ = _
    unfold notes
    simp only [steps, hleft]
    rw [if_congr hempty rfl rfl]

theorem infer_covers_overlapping :
    (picks overlapping [1, 2, 3, 4]).length ≤ 3 ∧
      unionOf ((picks overlapping [1, 2, 3, 4]).map Pick.itemset) =
        SortedSet.ofList [1, 2, 3, 4] := by
  obtain ⟨hlength, -, -, -, hunion, -⟩ :=
    infer_covers_coverable exactRounding ∅ overlapping [1, 2, 3, 4] overlapping_lt_one
  rw [overlapping_within] at hlength hunion
  exact ⟨hlength.trans (min_le_right _ _), hunion.trans (by decide)⟩

end NoisyCover.Greedy
