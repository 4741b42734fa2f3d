import Mathlib
import NoisyCover.Proofs.Covering
import NoisyCover.Proofs.PrimalDual.Progress

/-!
# How far primal-dual covering is from the best covering

The raises of a run are a lower bound for every complete covering: each visited item is in one of
its itemsets, and the raises of the items in one itemset add up to at most its on-cost
(`sum_dual_le_onTotal`).  For a selected itemset they add up to exactly its on-cost, so the
selection pays each raise as often as it contains the item (`onTotal_selection_eq`), which is at
most as often as the pool does.
-/

namespace NoisyCover.PrimalDual

section Courses

variable {σ : Type} {pool : Pool ℝ} {t : Transaction} {r : Run ℝ σ}
  (h : Course t (initialResiduals pool.candidates) r.visits r.stuck)

theorem mem_initialResiduals {c : Candidate ℝ} (hc : c ∈ pool.candidates) :
    (c.1, onCost c.2) ∈ initialResiduals pool.candidates :=
  List.mem_map_of_mem hc

theorem initialResiduals_nonneg (hp : ∀ c ∈ pool.candidates, 0 ≤ onCost c.2) :
    ∀ c ∈ initialResiduals pool.candidates, 0 ≤ c.2 := by
  intro c hc
  obtain ⟨d, hd, rfl⟩ := List.mem_map.1 hc
  exact hp d hd

include h

theorem timesCovered_selection_pos : ∀ v ∈ r.visits, 1 ≤ timesCovered r.selection v.item :=
  fun v hv => timesCovered_pos (mem_selection.2 (List.mem_map_of_mem hv)) (h.item_mem_itemset v hv)

/-- The raises are a lower bound for what a covering of all items is charged. -/
theorem sum_dual_le_onTotal (hp : ∀ c ∈ pool.candidates, 0 ≤ onCost c.2) {covering : Covering}
    (hdrawn : ∀ s ∈ covering, s ∈ pool.itemsets) (hcover : ∀ i ∈ t, ∃ s ∈ covering, i ∈ s) :
    (r.visits.map Visit.dual).sum ≤ pool.onTotal covering := by
  have hnonneg := initialResiduals_nonneg hp
  calc (r.visits.map Visit.dual).sum
      ≤ (r.visits.map fun v => (timesCovered covering v.item : ℝ) * v.dual).sum := by
        refine List.sum_le_sum fun v hv => ?_
        obtain ⟨s, hs, hi⟩ := hcover v.item (h.item_mem v hv)
        have htimes : (1 : ℝ) ≤ timesCovered covering v.item := by
          exact_mod_cast timesCovered_pos hs hi
        exact le_mul_of_one_le_left (h.dual_nonneg hnonneg v hv) htimes
    _ = pool.sumIn covering fun c => dualIn r.visits c.1 :=
        (Pool.sumIn_sum_filter hdrawn r.visits Visit.item Visit.dual).symm
    _ ≤ pool.onTotal covering :=
        Pool.sumIn_le_sumIn fun c hc _ => h.dualIn_le hnonneg _ (mem_initialResiduals hc)

/-- The selection pays each raise as often as it contains the item. -/
theorem onTotal_selection_eq :
    pool.onTotal r.selection =
      (r.visits.map fun v => (timesCovered r.selection v.item : ℝ) * v.dual).sum := by
  have hnodup : ((initialResiduals pool.candidates).map Prod.fst).Nodup := by
    rw [map_fst_initialResiduals]
    exact pool.nodup
  have htight : ∀ c ∈ pool.candidates, c.1 ∈ r.selection → onCost c.2 = dualIn r.visits c.1 :=
    fun c hc hs => (h.dualIn_eq hnodup _ (mem_initialResiduals hc) (mem_selection.1 hs)).symm
  rw [Pool.onTotal, Pool.sumIn_congr htight]
  exact Pool.sumIn_sum_filter (fun s hs => mem_itemsets_of_mem_selection h hs) r.visits Visit.item
    Visit.dual

theorem onTotal_selection_le_mul_sum_dual (hp : ∀ c ∈ pool.candidates, 0 ≤ onCost c.2) :
    pool.onTotal r.selection ≤ largestItemDegree pool t * (r.visits.map Visit.dual).sum := by
  rw [onTotal_selection_eq h, ← List.sum_map_mul_left]
  refine List.sum_le_sum fun v hv => ?_
  refine mul_le_mul_of_nonneg_right ?_ (h.dual_nonneg (initialResiduals_nonneg hp) v hv)
  exact_mod_cast timesCovered_le_largestItemDegree pool
    (fun s hs => mem_itemsets_of_mem_selection h hs) (h.item_mem v hv)

end Courses

/-- Whatever items are drawn, the selection is drawn from the candidates and costs at most the
largest degree of an item times the raises.  If there is a complete covering at all, the selection
is one, the raises add up to at most the on-cost of any of them, and the selection costs at most the
largest degree of an item times as much. -/
theorem sum_dual_bounds {σ : Type} (source : RandomSource σ) (pool : Pool ℝ) (t : Transaction)
    (state : σ) (hp : ∀ c ∈ (pool.within t).candidates, c.2 ≤ 1) :
    (∀ s ∈ (run source pool t state).selection, s ∈ (pool.within t).itemsets) ∧
      (pool.within t).onTotal (run source pool t state).selection ≤
        largestItemDegree (pool.within t) t *
          ((run source pool t state).visits.map Visit.dual).sum ∧
      ∀ covering : Covering, isComplete covering pool t = true →
        isComplete (run source pool t state).selection pool t = true ∧
          ((run source pool t state).visits.map Visit.dual).sum ≤
            (pool.within t).onTotal covering ∧
          (pool.within t).onTotal (run source pool t state).selection ≤
            largestItemDegree (pool.within t) t * (pool.within t).onTotal covering := by
  have hcourse := run_course source pool t state
  have hcost := Pool.onCost_within_nonneg hp
  have hprimal := onTotal_selection_le_mul_sum_dual hcourse hcost
  refine ⟨fun s hs => mem_itemsets_of_mem_selection hcourse hs, hprimal, fun covering hc => ?_⟩
  obtain ⟨hdrawn, hcover⟩ := isComplete_iff.1 hc
  have hdual := sum_dual_le_onTotal hcourse hcost hdrawn hcover
  have hisolated : isolatedItems (pool.within t) t = [] := (exists_isComplete_iff pool).1 ⟨_, hc⟩
  refine ⟨(isComplete_selection_iff hcourse exactRounding hp).2 hisolated, hdual,
    hprimal.trans ?_⟩
  gcongr

theorem sum_dual_bounds_overlapping :
    isComplete (run RandomSource.last overlapping [1, 2, 3, 4] ()).selection overlapping
        [1, 2, 3, 4] = true ∧
      ((run RandomSource.last overlapping [1, 2, 3, 4] ()).visits.map Visit.dual).sum ≤
        overlapping.onTotal halves ∧
      overlapping.onTotal (run RandomSource.last overlapping [1, 2, 3, 4] ()).selection ≤
        largestItemDegree overlapping [1, 2, 3, 4] * overlapping.onTotal halves := by
  have h := (sum_dual_bounds RandomSource.last overlapping [1, 2, 3, 4] ()
    fun c hc => (overlapping_lt_one c hc).le).2.2 halves halves_isComplete
  rwa [overlapping_within] at h

end NoisyCover.PrimalDual
