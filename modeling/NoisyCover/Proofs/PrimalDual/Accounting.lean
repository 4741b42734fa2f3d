import Mathlib
import NoisyCover.Inference
import NoisyCover.Proofs.PrimalDual.Duality

/-!
# What primal-dual inference reports

The reported cost adds up the raises, not the on-costs of the selected itemsets.  A selected itemset
costs what the items visited in it were raised by, so the raise of an item in several selected
itemsets is reported once and charged to each of them.  The report falls short of the cost of the
selection by exactly those repeats (`onTotal_selection_eq_add`).
-/

namespace NoisyCover.PrimalDual

variable {σ : Type}

/-- The raises of a run, each as often as the selection contains its item more than once. -/
noncomputable def Run.repeats (r : Run ℝ σ) : ℝ :=
  (r.visits.map fun v => v.dual * ((timesCovered r.selection v.item : ℝ) - 1)).sum

section Report

variable {pool : Pool ℝ}

theorem dualTotal_eq (r : Run ℝ σ) : r.dualTotal = (r.visits.map Visit.dual).sum := by
  rw [List.sum_eq_foldl, List.foldl_map]
  rfl

/-- A run reports its raises and what its selection is charged for the other candidates. -/
theorem Run.cost_eq (r : Run ℝ σ) (hp : ∀ c ∈ pool.candidates, c.2 < 1) :
    r.cost pool.candidates = .ok ((r.visits.map Visit.dual).sum + pool.offTotal r.selection) := by
  have hstep : (fun (total : ℝ) (c : Candidate ℝ) =>
        if c.1 ∈ r.selection then .ok total else (costOff c.2).map (total + ·)) =
      fun total c => (if c.1 ∈ r.selection then .ok 0 else costOff c.2).map (total + ·) := by
    funext total c
    split_ifs
    · exact congrArg Except.ok (add_zero total).symm
    · rfl
  have hcost : ∀ c ∈ pool.candidates, (if c.1 ∈ r.selection then .ok 0 else costOff c.2) =
      Except.ok (if !decide (c.1 ∈ r.selection) then offCost c.2 else 0) := by
    intro c hc
    by_cases hs : c.1 ∈ r.selection
    · simp [hs]
    · simp [hs, costOff_eq (hp c hc)]
  unfold Run.cost
  simp only []
  rw [hstep, foldlM_add_ok hcost, dualTotal_eq, Pool.offTotal, Pool.sumOut, sum_map_filter_eq]

end Report

section Courses

variable {pool : Pool ℝ} {t : Transaction} {r : Run ℝ σ}
  (h : Course t (initialResiduals pool.candidates) r.visits r.stuck)
  (hp : ∀ c ∈ pool.candidates, 0 ≤ onCost c.2)

include h

theorem onTotal_selection_eq_add :
    pool.onTotal r.selection = (r.visits.map Visit.dual).sum + r.repeats := by
  rw [onTotal_selection_eq h, Run.repeats, ← List.sum_map_add]
  refine congrArg List.sum (List.map_congr_left fun v _ => ?_)
  ring

include hp

theorem sum_dual_nonneg : 0 ≤ (r.visits.map Visit.dual).sum :=
  sum_map_nonneg (h.dual_nonneg (initialResiduals_nonneg hp))

theorem repeat_nonneg :
    ∀ v ∈ r.visits, 0 ≤ v.dual * ((timesCovered r.selection v.item : ℝ) - 1) := by
  intro v hv
  have htimes : (1 : ℝ) ≤ timesCovered r.selection v.item := by
    exact_mod_cast timesCovered_selection_pos h v hv
  exact mul_nonneg (h.dual_nonneg (initialResiduals_nonneg hp) v hv) (sub_nonneg.2 htimes)

theorem repeats_nonneg : 0 ≤ r.repeats :=
  sum_map_nonneg (repeat_nonneg h hp)

/-- Nothing is repeated exactly when no raised item is in two selected itemsets. -/
theorem repeats_eq_zero_iff :
    r.repeats = 0 ↔ ∀ v ∈ r.visits, 0 < v.dual → timesCovered r.selection v.item = 1 := by
  constructor
  · intro hzero v hv hdual
    have hterm : v.dual * ((timesCovered r.selection v.item : ℝ) - 1) = 0 := by
      refine List.all_zero_of_le_zero_le_of_sum_eq_zero (fun x hx => ?_) hzero
        (List.mem_map_of_mem hv)
      obtain ⟨w, hw, rfl⟩ := List.mem_map.1 hx
      exact repeat_nonneg h hp w hw
    have htimes : (timesCovered r.selection v.item : ℝ) = 1 :=
      sub_eq_zero.1 ((mul_eq_zero.1 hterm).resolve_left hdual.ne')
    exact_mod_cast htimes
  · intro honce
    refine List.sum_eq_zero fun x hx => ?_
    obtain ⟨v, hv, rfl⟩ := List.mem_map.1 hx
    rcases (h.dual_nonneg (initialResiduals_nonneg hp) v hv).eq_or_lt with hdual | hdual
    · rw [← hdual, zero_mul]
    · rw [honce v hv hdual, Nat.cast_one, sub_self, mul_zero]

end Courses

/-- Whatever items are drawn, inference reports the cost of its selection less the repeated raises.
So the report is at most that cost, and equal to it exactly when no item with a positive raise is in
two selected itemsets, and it is at least what the selection is charged for the other candidates. -/
theorem infer_cost_accounting (source : RandomSource σ) (covering : Covering) (pool : Pool ℝ)
    (t : Transaction) (state : σ) (hp : ∀ c ∈ (pool.within t).candidates, c.2 < 1) :
    let r := run source pool t state
    ∃ reported full : ℝ,
      (infer source covering pool t state).1.covering = covering ∪ r.selection ∧
      (infer source covering pool t state).1.cost = .ok (.value reported) ∧
      (pool.within t).cost r.selection = .ok full ∧
      (∀ v ∈ r.visits, 1 ≤ timesCovered r.selection v.item) ∧
      reported = full - r.repeats ∧
      (pool.within t).offTotal r.selection ≤ reported ∧ reported ≤ full ∧
      (reported = full ↔ ∀ v ∈ r.visits, 0 < v.dual → timesCovered r.selection v.item = 1) := by
  intro r
  have hcourse : Course t _ r.visits r.stuck := run_course source pool t state
  have hopen := Pool.within_open hp
  have hcost := Pool.onCost_within_nonneg fun c hc => (hp c hc).le
  have hreport := r.cost_eq hp
  have hadd := onTotal_selection_eq_add hcourse
  have hrepeats := repeats_nonneg hcourse hcost
  have hdual := sum_dual_nonneg hcourse hcost
  refine ⟨_, _, ?_, ?_, Pool.cost_eq hopen r.selection, timesCovered_selection_pos hcourse, ?_,
    le_add_of_nonneg_left hdual, ?_, ?_⟩
  · show (conclude covering _ r).covering = _
    simp only [conclude, hreport]
  · show (conclude covering _ r).cost = _
    simp only [conclude, hreport]
    rfl
  · linarith
  · linarith
  · rw [← repeats_eq_zero_iff hcourse hcost]
    constructor <;> intro heq <;> linarith

/-- Two visits, the first of them to an item that both selected itemsets contain. -/
theorem infer_cost_overlapping_le :
    let r := run RandomSource.first overlapping [1, 2, 3, 4] ()
    r.visits = [⟨1, SortedSet.ofList [1, 2], onCost (1 / 2)⟩,
        ⟨3, SortedSet.ofList [1, 2, 3, 4], onCost (3 / 10) - onCost (1 / 2)⟩] ∧
      ∃ reported full : ℝ,
        (infer RandomSource.first ∅ overlapping [1, 2, 3, 4] ()).1.cost = .ok (.value reported) ∧
        overlapping.cost r.selection = .ok full ∧ reported = full - onCost (1 / 2) ∧
        overlapping.offTotal r.selection ≤ reported ∧ reported < full := by
  intro r
  have hvisits : r.visits = _ := congrArg Run.visits run_overlapping
  have hselection : r.selection =
      SortedSet.ofList [SortedSet.ofList [1, 2], SortedSet.ofList [1, 2, 3, 4]] := by
    rw [Run.selection, hvisits]
    rfl
  obtain ⟨reported, full, -, hreported, hfull, -, hrepeats, hoff, -⟩ :=
    infer_cost_accounting RandomSource.first ∅ overlapping [1, 2, 3, 4] () overlapping_lt_one
  rw [overlapping_within] at hfull hoff
  have htwice : timesCovered r.selection 1 = 2 := by
    rw [hselection]
    decide
  have honce : timesCovered r.selection 3 = 1 := by
    rw [hselection]
    decide
  have hhalf : r.repeats = onCost (1 / 2) := by
    rw [Run.repeats, hvisits]
    simp only [List.map_cons, List.map_nil, List.sum_cons, List.sum_nil, htwice, honce]
    push_cast
    ring
  have hpos : 0 < onCost (1 / 2) := neg_pos.2 (Real.log_neg (by norm_num) (by norm_num))
  have hshort : reported = full - onCost (1 / 2) := hhalf ▸ hrepeats
  exact ⟨hvisits, reported, full, hreported, hfull, hshort, hoff, by linarith⟩

end NoisyCover.PrimalDual
