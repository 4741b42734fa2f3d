import Mathlib
import NoisyCover.Audit
import NoisyCover.Proofs.ExactCost
import NoisyCover.Proofs.Graph

/-!
# Complete coverings and the degrees of items

A covering drawn from a pool lists itemsets of the pool, so counting its itemsets at an item is
counting candidates of the pool (`countP_candidates_eq`), and there are at most as many of them as
the item has edges in the incidence graph (`IncidenceGraph.itemDegree_build`).
-/

namespace NoisyCover

namespace SortedSet

variable {α : Type u} [Ord α] [DecidableEq α]

theorem size_inter_eq_countP (s t : SortedSet α) :
    (s ∩ t).size = s.toList.countP fun a => decide (a ∈ t) :=
  List.countP_eq_length_filter.symm

theorem size_sdiff_add_size_inter (s t : SortedSet α) : (s \ t).size + (s ∩ t).size = s.size := by
  have hinter := size_inter_eq_countP s t
  have hsdiff : (s \ t).size = s.toList.countP fun a => !decide (a ∈ t) :=
    List.countP_eq_length_filter.symm
  have hsplit := List.length_eq_countP_add_countP (fun a => decide (a ∈ t)) (l := s.toList)
  rw [hinter, hsdiff, size, hsplit, add_comm]
  simp only [decide_eq_true_eq, decide_not]

omit [DecidableEq α] in
theorem size_ofList_of_nodup [Std.TransOrd α] [Std.LawfulEqOrd α] {l : List α} (h : l.Nodup) :
    (ofList l).size = l.length :=
  ((List.perm_ext_iff_of_nodup (nodup _) h).2 fun _ => mem_ofList).length_eq

omit [DecidableEq α] in
theorem size_le_size [Std.TransOrd α] [Std.LawfulEqOrd α] {s t : SortedSet α} (h : s ⊆ t) :
    s.size ≤ t.size :=
  (s.nodup.subperm h).length_le

end SortedSet

section Greatest

theorem le_foldl_max : ∀ (l : List ℕ) (start : ℕ),
    start ≤ l.foldl max start ∧ ∀ n ∈ l, n ≤ l.foldl max start
  | [], start => by simp
  | m :: l, start => by
    obtain ⟨hstart, hl⟩ := le_foldl_max l (max start m)
    rw [List.foldl_cons, List.forall_mem_cons]
    exact ⟨(le_max_left start m).trans hstart, (le_max_right start m).trans hstart, hl⟩

/-- The number of items of the largest candidate. -/
def Pool.largestSize {K : Type u} (pool : Pool K) : ℕ :=
  (pool.itemsets.map SortedSet.size).foldl max 0

theorem Pool.size_le_largestSize {K : Type u} {pool : Pool K} {c : Candidate K}
    (hc : c ∈ pool.candidates) : c.1.size ≤ pool.largestSize :=
  (le_foldl_max _ 0).2 _ (List.mem_map_of_mem (List.mem_map_of_mem hc))

end Greatest

theorem improbable?_eq_none_iff {K : Type u} [Arithmetic K] {pool : Pool K} :
    improbable? pool = none ↔ ∀ c ∈ pool.candidates, 0 < c.2 ∧ c.2 < 1 := by
  simp [improbable?, List.find?_eq_none]

section Coverings

variable {K : Type u} {pool : Pool K} {covering : Covering} {t : Transaction} {i : Item}

theorem isComplete_iff [Arithmetic K] :
    isComplete covering pool t = true ↔
      (∀ s ∈ covering, s ∈ (pool.within t).itemsets) ∧ ∀ i ∈ t, ∃ s ∈ covering, i ∈ s := by
  unfold isComplete
  rw [Bool.and_eq_true, List.all_eq_true, decide_eq_true_eq, SortedSet.subset_def]
  simp only [Pool.has_iff, Transaction.mem_items, mem_unionOf]
  rfl

/-- A complete covering contains the only candidate with an item. -/
theorem mem_of_isComplete [Arithmetic K] (h : isComplete covering pool t = true) {s : Itemset}
    (hi : i ∈ t) (hunique : ∀ x ∈ (pool.within t).itemsets, i ∈ x → x = s) : s ∈ covering := by
  obtain ⟨hdrawn, hcover⟩ := isComplete_iff.1 h
  obtain ⟨x, hx, hix⟩ := hcover i hi
  exact hunique x (hdrawn x hx) hix ▸ hx

/-- The number of itemsets of a covering that contain an item. -/
def timesCovered (covering : Covering) (i : Item) : ℕ :=
  covering.toList.countP fun s => decide (i ∈ s)

theorem timesCovered_pos {s : Itemset} (hs : s ∈ covering) (hi : i ∈ s) :
    1 ≤ timesCovered covering i :=
  List.countP_pos_iff.2 ⟨s, hs, decide_eq_true hi⟩

/-- Counting the candidates in a covering drawn from the pool is counting the covering. -/
theorem countP_candidates_eq (hdrawn : ∀ s ∈ covering, s ∈ pool.itemsets) :
    (pool.candidates.filter fun c => decide (c.1 ∈ covering)).countP
      (fun c => decide (i ∈ c.1)) = timesCovered covering i := by
  have hperm : ((pool.candidates.filter fun c => decide (c.1 ∈ covering)).map Prod.fst).Perm
      covering.toList := by
    rw [List.perm_ext_iff_of_nodup
      (pool.nodup.sublist (List.filter_sublist.map _)) covering.nodup]
    intro s
    simp only [List.mem_map, List.mem_filter, decide_eq_true_eq]
    constructor
    · rintro ⟨c, ⟨-, hc⟩, rfl⟩
      exact hc
    · intro hs
      obtain ⟨c, hc, rfl⟩ := List.mem_map.1 (hdrawn s hs)
      exact ⟨c, ⟨hc, hs⟩, rfl⟩
  rw [timesCovered, ← hperm.countP_eq, List.countP_map]
  rfl

/-- Summing over a covering what each of its itemsets contains counts every element as often as the
covering contains its item. -/
theorem Pool.sumIn_sum_filter {β : Type*} {pool : Pool ℝ}
    (hdrawn : ∀ s ∈ covering, s ∈ pool.itemsets) (m : List β) (item : β → Item) (w : β → ℝ) :
    pool.sumIn covering (fun c => ((m.filter fun b => decide (item b ∈ c.1)).map w).sum) =
      (m.map fun b => (timesCovered covering (item b) : ℝ) * w b).sum := by
  rw [Pool.sumIn]
  refine (sum_map_sum_filter _ m (fun (c : Candidate ℝ) b => decide (item b ∈ c.1)) w).trans ?_
  refine congrArg List.sum (List.map_congr_left fun b _ => ?_)
  rw [countP_candidates_eq hdrawn]

end Coverings

section Degrees

variable {K : Type u} (pool : Pool K) {t : Transaction} {i : Item}

theorem countP_le_largestItemDegree (hi : i ∈ t) :
    (pool.candidates.countP fun c => decide (i ∈ c.1)) ≤ largestItemDegree pool t := by
  rw [← IncidenceGraph.itemDegree_build pool t i]
  exact (le_foldl_max _ 0).2 _ (List.mem_map_of_mem hi)

/-- A covering drawn from the pool contains an item at most as often as the pool contains any. -/
theorem timesCovered_le_largestItemDegree {covering : Covering}
    (hdrawn : ∀ s ∈ covering, s ∈ pool.itemsets) (hi : i ∈ t) :
    timesCovered covering i ≤ largestItemDegree pool t := by
  rw [← countP_candidates_eq hdrawn]
  exact List.filter_sublist.countP_le.trans (countP_le_largestItemDegree pool hi)

/-- The isolated items are those of the transaction that no candidate contains. -/
theorem isolatedItems_eq_filter (t : Transaction) :
    isolatedItems pool t = t.filter fun i => !decide (i ∈ unionOf pool.itemsets) := by
  refine List.filter_congr fun i _ => ?_
  rw [IncidenceGraph.itemDegree_build, Bool.eq_iff_iff, beq_iff_eq, Bool.not_eq_true',
    decide_eq_false_iff_not, mem_unionOf, List.countP_eq_zero]
  constructor
  · rintro hnone ⟨s, hs, hi⟩
    obtain ⟨c, hc, rfl⟩ := List.mem_map.1 hs
    exact hnone c hc (decide_eq_true hi)
  · intro hnone c hc hi
    exact hnone ⟨c.1, List.mem_map_of_mem hc, of_decide_eq_true hi⟩

theorem mem_isolatedItems : i ∈ isolatedItems pool t ↔ i ∈ t ∧ i ∉ unionOf pool.itemsets := by
  rw [isolatedItems_eq_filter, List.mem_filter, Bool.not_eq_true', decide_eq_false_iff_not]

theorem isolatedItems_eq_nil_iff :
    isolatedItems pool t = [] ↔ ∀ i ∈ t, ∃ s ∈ pool.itemsets, i ∈ s := by
  unfold isolatedItems
  rw [List.filter_eq_nil_iff]
  refine forall₂_congr fun i _ => ?_
  rw [IncidenceGraph.itemDegree_build, beq_iff_eq]
  refine Nat.pos_iff_ne_zero.symm.trans ?_
  rw [List.countP_pos_iff]
  constructor
  · rintro ⟨c, hc, hi⟩
    exact ⟨c.1, List.mem_map_of_mem hc, of_decide_eq_true hi⟩
  · rintro ⟨s, hs, hi⟩
    obtain ⟨c, hc, rfl⟩ := List.mem_map.1 hs
    exact ⟨c, hc, decide_eq_true hi⟩

/-- Some covering is complete exactly when every item of the transaction is in a candidate. -/
theorem exists_isComplete_iff [Arithmetic K] :
    (∃ covering, isComplete covering pool t = true) ↔ isolatedItems (pool.within t) t = [] := by
  rw [isolatedItems_eq_nil_iff]
  constructor
  · rintro ⟨covering, hc⟩ i hi
    obtain ⟨hdrawn, hcover⟩ := isComplete_iff.1 hc
    obtain ⟨s, hs, his⟩ := hcover i hi
    exact ⟨s, hdrawn s hs, his⟩
  · intro h
    refine ⟨SortedSet.ofList (pool.within t).itemsets, isComplete_iff.2 ⟨fun s hs => ?_, ?_⟩⟩
    · exact SortedSet.mem_ofList.1 hs
    · intro i hi
      obtain ⟨s, hs, his⟩ := h i hi
      exact ⟨s, SortedSet.mem_ofList.2 hs, his⟩

end Degrees

section Overlapping

theorem Pool.within_eq_self {K : Type u} [Arithmetic K] {pool : Pool K} {t : Transaction}
    (h : ∀ c ∈ pool.candidates, 0 < c.2 ∧ ∀ i ∈ c.1, i ∈ t) : pool.within t = pool := by
  refine Pool.ext_candidates (List.filter_eq_self.2 fun c hc => ?_)
  obtain ⟨hpos, hsub⟩ := h c hc
  rw [Pool.isAdmissible, Bool.and_eq_true, decide_eq_true_eq, decide_eq_true_eq,
    SortedSet.subset_def]
  exact ⟨hpos, fun i hi => Transaction.mem_items.2 (hsub i hi)⟩

/-- The two halves of four items. -/
def halves : Covering := SortedSet.ofList [SortedSet.ofList [1, 2], SortedSet.ofList [3, 4]]

/-- All four items as one candidate, and their two halves as candidates of their own. -/
noncomputable def overlapping : Pool ℝ where
  candidates := [(SortedSet.ofList [1, 2, 3, 4], 3 / 10), (SortedSet.ofList [1, 2], 1 / 2),
    (SortedSet.ofList [3, 4], 1 / 2)]
  nodup := by decide

theorem overlapping_within : overlapping.within [1, 2, 3, 4] = overlapping := by
  refine Pool.within_eq_self fun c hc => ?_
  simp only [overlapping, List.mem_cons, List.not_mem_nil, or_false] at hc
  rcases hc with rfl | rfl | rfl
  · exact ⟨by norm_num, by decide⟩
  · exact ⟨by norm_num, by decide⟩
  · exact ⟨by norm_num, by decide⟩

theorem overlapping_lt_one : ∀ c ∈ (overlapping.within [1, 2, 3, 4]).candidates, c.2 < 1 := by
  rw [overlapping_within]
  intro c hc
  simp only [overlapping, List.mem_cons, List.not_mem_nil, or_false] at hc
  rcases hc with rfl | rfl | rfl <;> norm_num

theorem halves_isComplete : isComplete halves overlapping [1, 2, 3, 4] = true := by
  rw [isComplete_iff, overlapping_within]
  decide

end Overlapping

end NoisyCover
