import Mathlib
import NoisyCover.Proofs.Greedy.Prices
import NoisyCover.Proofs.PrimalDual.Progress

/-!
# The residual costs of primal-dual covering

Between visits no residual cost is negative, those of the selected itemsets are zero, and no
uncovered item is in a selected itemset (`Balanced`).  The three support each other: a raise is the
least of the residual costs it is taken off, so none of them becomes negative and that of the
selected itemset becomes zero; and it is not taken off the residual cost of an itemset selected
before, which contains no uncovered item (`Balanced.visit`).  A run records the residual costs it
goes on with, and so they are balanced after each of its visits (`Leads.balanced`).

All that is asked of costs is that they are ordered, that a difference is not negative when the
smaller cost is taken off the larger, and that a cost less itself is zero.  So this holds of rounded
costs as well.  Exact residual costs are moreover the on-costs less the raises of the visited items
(`Leads.eq_sub_dualIn`).
-/

namespace NoisyCover.PrimalDual

variable {K : Type u} [Arithmetic K]

/-- The residual costs are not negative, those of the selected itemsets are zero, and no uncovered
item is in a selected itemset. -/
structure Balanced (P : K → Prop) (uncovered : List Item) (residuals : List (Candidate K))
    (selected : List Itemset) : Prop where
  cost : ∀ c ∈ residuals, P c.2 ∧ 0 ≤ c.2
  tight : ∀ s ∈ selected, (s, 0) ∈ residuals
  disjoint : ∀ s ∈ selected, ∀ i ∈ uncovered, i ∉ s

section Frames

variable {residuals : List (Candidate K)} {item : Item} {dual : K} {c : Candidate K}

theorem mem_lower_of_mem (hc : c ∈ residuals) (hin : item ∈ c.1) :
    (c.1, c.2 - dual) ∈ lower item dual residuals := by
  have hlowered : (c.1, if item ∈ c.1 then c.2 - dual else c.2) ∈ lower item dual residuals :=
    mem_lower hc
  rwa [if_pos hin] at hlowered

theorem mem_lower_of_notMem (hc : c ∈ residuals) (hout : item ∉ c.1) :
    c ∈ lower item dual residuals := by
  have hlowered : (c.1, if item ∈ c.1 then c.2 - dual else c.2) ∈ lower item dual residuals :=
    mem_lower hc
  rwa [if_neg hout] at hlowered

end Frames

section Invariant

variable {P : K → Prop} {uncovered : List Item} {residuals : List (Candidate K)}
  {selected : List Itemset} {item : Item} {found : Candidate K × K} {visits : List (Visit K)}
  {stuck : Option (Item × ℕ)}

theorem balanced_initialResiduals (hP : LoweredCosts P) {candidates : List (Candidate K)}
    (hp : ∀ c ∈ candidates, 0 < c.2 ∧ c.2 ≤ 1) (uncovered : List Item) :
    Balanced P uncovered (initialResiduals candidates) [] where
  cost c hc := by
    obtain ⟨d, hd, rfl⟩ := List.mem_map.1 hc
    exact hP.selectionCost (hp d hd).1 (hp d hd).2
  tight := by simp
  disjoint := by simp

/-- A raise is one of the residual costs. -/
theorem Balanced.cost_dual (h : Balanced P uncovered residuals selected)
    (hfound : tightest item residuals = some found) : P found.2 ∧ 0 ≤ found.2 := by
  obtain ⟨hmem, -, hdual⟩ := tightest_mem hfound
  exact hdual ▸ h.cost _ hmem

/-- A visit keeps the balance, and the itemset it selects becomes tight. -/
theorem Balanced.visit (hP : LoweredCosts P) (h : Balanced P uncovered residuals selected)
    (hitem : item ∈ uncovered) (hfound : tightest item residuals = some found) :
    Balanced P (dropCovered found.1.1 uncovered) (lower item found.2 residuals)
      (selected ++ [found.1.1]) where
  cost := by
    have hcosts : TotalOn fun x : K => P x ∧ 0 ≤ x := hP.toTotalOn.mono fun _ hx => hx.1
    refine forall_lower hcosts (fun x y hx hy hle => ?_) h.cost hfound
    exact hP.sub hx.1 hy.1 hy.2 ((hP.le_iff_not_lt hy.1 hx.1).2 hle)
  tight s hs := by
    obtain ⟨hmem, hin, hdual⟩ := tightest_mem hfound
    rcases List.mem_append.1 hs with hs | hs
    · -- the visited item is uncovered, so it is in no itemset selected before
      exact mem_lower_of_notMem (h.tight s hs) (h.disjoint s hs item hitem)
    · obtain rfl := List.mem_singleton.1 hs
      rw [← hP.sub_self (h.cost_dual hfound).1]
      have hlowered : (found.1.1, found.1.2 - found.2) ∈ lower item found.2 residuals :=
        mem_lower_of_mem hmem hin
      rwa [hdual] at hlowered
  disjoint s hs i hi := by
    obtain ⟨hi, hnotin⟩ := mem_dropCovered.1 hi
    rcases List.mem_append.1 hs with hs | hs
    · exact h.disjoint s hs i hi
    · obtain rfl := List.mem_singleton.1 hs
      exact hnotin

theorem Balanced.dual_nonneg (hP : LoweredCosts P) (h : Balanced P uncovered residuals selected)
    (hcourse : Course uncovered residuals visits stuck) : ∀ v ∈ visits, 0 ≤ v.dual := by
  induction hcourse generalizing selected with
  | done => simp
  | stuck => simp
  | visit hitem hfound _ ih =>
    exact List.forall_mem_cons.2 ⟨(h.cost_dual hfound).2, ih (h.visit hP hitem hfound)⟩

end Invariant

section Runs

variable {uncovered : List Item} {residuals left : List (Candidate K)} {visits : List (Visit K)}

theorem Leads.map_fst (h : Leads uncovered residuals visits left) :
    left.map Prod.fst = residuals.map Prod.fst := by
  induction h with
  | start => rfl
  | visit _ _ _ ih => exact ih.trans (map_fst_lower _ _ _)

/-- Visits to items that a candidate does not contain leave its residual cost as it is. -/
theorem Leads.mem (h : Leads uncovered residuals visits left) {c : Candidate K}
    (hc : c ∈ residuals) (hout : ∀ v ∈ visits, v.item ∉ c.1) : c ∈ left := by
  induction h with
  | start => exact hc
  | visit _ _ _ ih =>
    obtain ⟨hitem, hlater⟩ := List.forall_mem_cons.1 hout
    exact ih (mem_lower_of_notMem hc hitem) hlater

/-- The balance is kept all along a run. -/
theorem Leads.balanced {P : K → Prop} (hP : LoweredCosts P)
    (h : Leads uncovered residuals visits left) {selected : List Itemset}
    (hbalanced : Balanced P uncovered residuals selected) :
    Balanced P (remaining uncovered visits) left (selected ++ visits.map Visit.itemset) := by
  induction h generalizing selected with
  | start =>
    rw [remaining_nil, List.map_nil, List.append_nil]
    exact hbalanced
  | visit hitem hfound _ ih =>
    have hrest := ih (hbalanced.visit hP hitem hfound)
    rw [List.append_assoc] at hrest
    rw [remaining_cons]
    exact hrest

/-- Exact residual costs are what the raises of the items in a candidate leave of its cost. -/
theorem Leads.eq_sub_dualIn {residuals left : List (Candidate ℝ)} {visits : List (Visit ℝ)}
    (h : Leads uncovered residuals visits left) :
    left = residuals.map fun c => (c.1, c.2 - dualIn visits c.1) := by
  induction h with
  | start => simp [dualIn]
  | visit _ _ _ ih =>
    rw [ih, lower, List.map_map]
    refine List.map_congr_left fun c _ => ?_
    rw [Function.comp_apply, dualIn_cons]
    split_ifs
    · rw [sub_sub]
    · rw [zero_add]

/-- A visit takes its raise off the residual costs before it. -/
theorem residuals_one {σ : Type} (source : RandomSource σ) {state : σ} {v : Visit K}
    (h : (visitFrom source uncovered residuals state).visits[0]? = some v) :
    (visitFrom source uncovered residuals state).residuals[1]? =
      some (lower v.item v.dual residuals) := by
  have hlength : 1 < (visitFrom source uncovered residuals state).residuals.length := by
    rw [length_residuals]
    exact Nat.succ_lt_succ (List.getElem?_eq_some_iff.1 h).1
  obtain ⟨item, found, next, -, -, hrun⟩ :=
    exists_of_residuals_succ source (List.getElem?_eq_getElem hlength)
  rw [hrun] at h ⊢
  obtain rfl := Option.some.inj h
  exact residuals_zero source _ _ next

end Runs

/-- Whatever items are drawn, raises are not negative, and the residual costs that a run goes on
with after each of its visits are balanced with what is uncovered then and what has been selected.
A visit takes its raise off the residual costs of the itemsets that contain its item.  Later visits
change neither the residual costs of the itemsets selected by then nor those of itemsets that
contain no later item.  Exact residual costs are the on-costs less the raises of the visited
items. -/
theorem residuals_balanced {P : K → Prop} (hP : LoweredCosts P) {σ : Type}
    (source : RandomSource σ) (t : Transaction) (state : σ) :
    (∀ pool : Pool K, (∀ c ∈ (pool.within t).candidates, c.2 ≤ 1) →
      let r := run source pool t state
      (∀ v ∈ r.visits, 0 ≤ v.dual) ∧
      r.residuals.length = r.visits.length + 1 ∧
      r.residuals[0]? = some (initialResiduals (pool.within t).candidates) ∧
      ∀ k left, r.residuals[k]? = some left →
        (∃ state', visitFrom source (remaining t (r.visits.take k)) left state' =
          { r with visits := r.visits.drop k, residuals := r.residuals.drop k }) ∧
        (∀ v, r.visits[k]? = some v → r.residuals[k + 1]? = some (lower v.item v.dual left)) ∧
        left.map Prod.fst = (pool.within t).itemsets ∧
        Balanced P (remaining t (r.visits.take k)) left ((r.visits.take k).map Visit.itemset) ∧
        ∀ n later, r.residuals[k + n]? = some later → ∀ c ∈ left,
          (c.1 ∈ (r.visits.take k).map Visit.itemset ∨
            ∀ v ∈ (r.visits.drop k).take n, v.item ∉ c.1) → c ∈ later) ∧
    ∀ (pool : Pool ℝ) k left, (run source pool t state).residuals[k]? = some left →
      left = (pool.within t).candidates.map fun c =>
        (c.1, onCost c.2 - dualIn ((run source pool t state).visits.take k) c.1) := by
  refine ⟨fun pool hp => ?_, fun pool k left hleft => ?_⟩
  · intro r
    have hcourse : Course t _ r.visits r.stuck := run_course source pool t state
    have hstart : Balanced P t (initialResiduals (pool.within t).candidates) [] :=
      balanced_initialResiduals hP (fun c hc => ⟨Pool.pos_of_mem_within c hc, hp c hc⟩) t
    refine ⟨hstart.dual_nonneg hP hcourse, length_residuals source _ _ _,
      residuals_zero source _ _ _, fun k left hleft => ?_⟩
    obtain ⟨state', hrest⟩ := visitFrom_resume source k hleft
    have hvisits : (visitFrom source (remaining t (r.visits.take k)) left state').visits =
        r.visits.drop k := congrArg Run.visits hrest
    have hresiduals : (visitFrom source (remaining t (r.visits.take k)) left state').residuals =
        r.residuals.drop k := congrArg Run.residuals hrest
    have hleads := residuals_leads source k hleft
    refine ⟨⟨state', hrest⟩, fun v hv => ?_, ?_, hleads.balanced hP hstart,
      fun n later hlater c hc hkept => ?_⟩
    · rw [← Nat.add_zero k, ← List.getElem?_drop, ← hvisits] at hv
      rw [← List.getElem?_drop, ← hresiduals]
      exact residuals_one source hv
    · rw [hleads.map_fst, map_fst_initialResiduals]
    · rw [← List.getElem?_drop, ← hresiduals] at hlater
      refine (residuals_leads source n hlater).mem hc ?_
      rw [hvisits]
      refine hkept.elim (fun hselected v hv => ?_) id
      -- later visits are to items of no itemset selected before
      obtain ⟨w, hw, hwc⟩ := List.mem_map.1 hselected
      have hpairwise := hcourse.pairwise
      rw [← List.take_append_drop k r.visits] at hpairwise
      rw [← hwc]
      exact (List.pairwise_append.1 hpairwise).2.2 w hw v (List.mem_of_mem_take hv)
  · refine (residuals_leads source k hleft).eq_sub_dualIn.trans ?_
    rw [initialResiduals, List.map_map]
    rfl

/-- After two visits on exact costs, and after a run on rounded costs that covers all items. -/
theorem residuals_balanced_overlapping_staircase :
    let r := run RandomSource.first overlapping [1, 2, 3, 4] ()
    let left := residualsOf 0 0 (onCost (1 / 2) - (onCost (3 / 10) - onCost (1 / 2)))
    (r.visits.length = 2 ∧ r.residuals[2]? = some left ∧
        Balanced (fun _ => True) [] left
          [SortedSet.ofList [1, 2], SortedSet.ofList [1, 2, 3, 4]] ∧
        left = overlapping.candidates.map fun c => (c.1, onCost c.2 - dualIn r.visits c.1)) ∧
      letI := Arithmetic.doublesWith Double.nearestLog
      let r := run RandomSource.last (Greedy.staircase (0.25 : Float) 0.5 1) [1, 2, 3, 4] ()
      ∃ left, r.residuals[r.visits.length]? = some left ∧
        Balanced (Double.doubleRounding Double.nearestLog_isLogarithm).IsFinite [] left
          (r.visits.map Visit.itemset) ∧
        (SortedSet.ofList [4], 0) ∈ left ∧ (SortedSet.ofList [1, 2, 3], 0) ∈ left := by
  intro r left
  constructor
  · obtain ⟨hbalanced, hexact⟩ :=
      residuals_balanced loweredCosts_real RandomSource.first [1, 2, 3, 4] ()
    have hrun : r = _ := run_overlapping
    have hlength : r.visits.length = 2 := congrArg (fun r => r.visits.length) hrun
    have hleft : r.residuals[2]? = some left := congrArg (fun r => r.residuals[2]?) hrun
    obtain ⟨-, -, -, hrest⟩ := hbalanced overlapping fun c hc => (overlapping_lt_one c hc).le
    obtain ⟨-, -, -, hkept, -⟩ := hrest 2 left hleft
    have hduals := hexact overlapping 2 left hleft
    rw [List.take_of_length_le hlength.le] at hkept hduals
    rw [overlapping_within] at hduals
    rw [hrun] at hkept
    exact ⟨hlength, hleft, hkept, hduals⟩
  · let _ := Arithmetic.doublesWith Double.nearestLog
    let R := Double.doubleRounding Double.nearestLog_isLogarithm
    intro r
    have hp : ∀ c ∈ ((Greedy.staircase (0.25 : Float) 0.5 1).within [1, 2, 3, 4]).candidates,
        c.2 ≤ 1 := by decide
    have hcomplete : isComplete r.selection (Greedy.staircase (0.25 : Float) 0.5 1)
        [1, 2, 3, 4] = true :=
      (isComplete_selection_iff (run_course _ _ _ _) R.toRounding hp).2 (by decide)
    obtain ⟨-, hlength, -, hrest⟩ := (residuals_balanced (Double.loweredCosts
      Double.nearestLog_isLogarithm) RandomSource.last [1, 2, 3, 4] ()).1 _ hp
    have hlast := List.getElem?_eq_getElem (Nat.lt_of_succ_le hlength.ge)
    obtain ⟨-, -, -, hbalanced, -⟩ := hrest _ _ hlast
    rw [List.take_length, (isComplete_selection_iff_remaining (run_course _ _ _ _)).1 hcomplete]
      at hbalanced
    refine ⟨_, hlast, hbalanced, hbalanced.tight _ ?_, hbalanced.tight _ ?_⟩
    · exact mem_selection.1 (mem_of_isComplete hcomplete (i := 4) (by decide) (by decide))
    · exact mem_selection.1 (mem_of_isComplete hcomplete (i := 3) (by decide) (by decide))

end NoisyCover.PrimalDual
