import Mathlib
import NoisyCover.Inference
import NoisyCover.Proofs.Greedy.Coverage
import NoisyCover.Proofs.Greedy.Guarantee

/-!
# The cost that greedy covering reports

The harmonic bound is about what is paid for switching candidates on.  The reported cost also
charges every candidate that is left off, and no step looks at these charges.  So the bound carries
over to the reported cost up to the charges for those candidates of the competing covering that
greedy covering leaves off (`infer_cost_le`).  A likely candidate that covers nothing new is
expensive to leave off, and with one of these the bound alone fails (`infer_cost_likely`).
-/

namespace NoisyCover

theorem offCost_nonneg {p : ℝ} (h0 : 0 < p) (h1 : p < 1) : 0 ≤ offCost p :=
  onCost_nonneg (sub_pos.2 h1) (sub_le_self 1 h0.le)

/-- What one covering leaves out is left out by another one as well or is in that one only. -/
theorem Pool.sumOut_le_sumOut_add_sumIn {pool : Pool ℝ} {w : Candidate ℝ → ℝ}
    (hw : ∀ c ∈ pool.candidates, 0 ≤ w c) (selected covering : Covering) :
    pool.sumOut selected w ≤ pool.sumOut covering w + pool.sumIn (covering \ selected) w := by
  unfold sumOut sumIn
  rw [sum_map_filter_eq, sum_map_filter_eq, sum_map_filter_eq, ← List.sum_map_add]
  refine List.sum_le_sum fun c hc => ?_
  by_cases hsel : c.1 ∈ selected
  · by_cases hcov : c.1 ∈ covering <;> simp [hsel, hcov, hw c hc]
  · by_cases hcov : c.1 ∈ covering <;> simp [hsel, hcov]

namespace Greedy

theorem one_le_harmonic {n : ℕ} (h : n ≠ 0) : (1 : ℝ) ≤ harmonic n := by
  have hle := harmonic_le_harmonic (Nat.one_le_iff_ne_zero.2 h)
  rwa [harmonic_succ, harmonic_zero, zero_add, Nat.cast_one, inv_one, Rat.cast_one] at hle

section Bound

variable {pool : Pool ℝ} {t : Transaction} {covering : Covering}

theorem onTotal_selection_le_of_isComplete (hp : ∀ c ∈ (pool.within t).candidates, c.2 < 1)
    (hcomplete : isComplete covering pool t = true) :
    (pool.within t).onTotal (selection pool t) ≤
      harmonic t.items.size * (pool.within t).onTotal covering := by
  refine onTotal_selection_le_of_size_le (fun c hc => (hp c hc).le) hcomplete fun c hc => ?_
  exact SortedSet.size_le_size fun i hi =>
    Transaction.mem_items.2 ((Pool.mem_within.1 hc).2.2 i hi)

/-- Greedy covering reports a cost, and for every complete covering it is at most the harmonic
number of the size of the transaction times the cost of that covering, but for the itemsets of that
covering which it does not select: what it costs to leave these off comes on top.  For switching
itemsets on it pays at most that multiple of what the covering pays, without any addition. -/
theorem infer_cost_le (pool : Pool ℝ) (t : Transaction) (hprobable : improbable? pool = none)
    (hitems : t ≠ []) (start covering : Covering)
    (hcomplete : isComplete covering pool t = true) :
    ∃ x y : ℝ, (infer start pool t).cost = .ok (.value x) ∧
      (pool.within t).cost covering = .ok y ∧
      x ≤ harmonic t.items.size * y +
        (pool.within t).sumIn (covering \ selection pool t) (fun c => offCost c.2) ∧
      (covering ⊆ selection pool t → x ≤ harmonic t.items.size * y) ∧
      (pool.within t).onTotal (selection pool t) ≤
        harmonic t.items.size * (pool.within t).onTotal covering := by
  have hlt : ∀ c ∈ (pool.within t).candidates, c.2 < 1 := fun c hc =>
    (improbable?_eq_none_iff.1 hprobable c (Pool.mem_within.1 hc).1).2
  have hopen := Pool.within_open hlt
  have hoff : ∀ c ∈ (pool.within t).candidates, 0 ≤ offCost c.2 := fun c hc =>
    offCost_nonneg (hopen c hc).1 (hopen c hc).2
  have hsize : t.items.size ≠ 0 := by
    obtain ⟨i, hi⟩ := List.exists_mem_of_ne_nil t hitems
    exact fun h => SortedSet.size_eq_zero_iff.1 h i (Transaction.mem_items.2 hi)
  have hon := onTotal_selection_le_of_isComplete hlt hcomplete
  have hleft := Pool.sumOut_le_sumOut_add_sumIn hoff (selection pool t) covering
  have hoffTotal : (pool.within t).offTotal covering ≤
      harmonic t.items.size * (pool.within t).offTotal covering :=
    le_mul_of_one_le_left (sum_map_nonneg fun c hc => hoff c (List.mem_filter.1 hc).1)
      (one_le_harmonic hsize)
  have hcost : (pool.within t).onTotal (selection pool t) +
        (pool.within t).offTotal (selection pool t) ≤
      harmonic t.items.size *
          ((pool.within t).onTotal covering + (pool.within t).offTotal covering) +
        (pool.within t).sumIn (covering \ selection pool t) (fun c => offCost c.2) := by
    rw [← Pool.offTotal, ← Pool.offTotal] at hleft
    linarith
  refine ⟨_, _, ?_, Pool.cost_eq hopen covering, hcost, fun hsub => ?_, hon⟩
  · show ((pool.within t).cost (selection pool t)).map _ = _
    rw [Pool.cost_eq hopen]
    rfl
  · have hempty : covering \ selection pool t = ∅ := SortedSet.ext_mem fun s => by
      rw [SortedSet.mem_sdiff]
      exact iff_of_false (fun h => h.2 (hsub s h.1)) (SortedSet.notMem_empty s)
    rwa [hempty, Pool.sumIn_empty, add_zero] at hcost

theorem infer_cost_overlapping_halves :
    ∃ x y : ℝ, (infer ∅ overlapping [1, 2, 3, 4]).cost = .ok (.value x) ∧
      overlapping.cost halves = .ok y ∧
      x ≤ harmonic 4 * y + overlapping.sumIn (halves \ selection overlapping [1, 2, 3, 4])
        (fun c => offCost c.2) := by
  have hprobable : improbable? overlapping = none := improbable?_eq_none_iff.2 (by
    intro c hc
    rw [← overlapping_within] at hc
    exact Pool.within_open overlapping_lt_one c hc)
  obtain ⟨x, y, hx, hy, hle, -⟩ :=
    infer_cost_le overlapping [1, 2, 3, 4] hprobable (by simp) ∅ halves halves_isComplete
  rw [overlapping_within] at hy hle
  exact ⟨x, y, hx, hy, hle⟩

end Bound

section Likely

/-- Two items as one candidate and the first of them as another, both likely. -/
noncomputable def likely : Pool ℝ where
  candidates := [(SortedSet.ofList [1, 2], 0.9), (SortedSet.ofList [1], 0.9)]
  nodup := by decide

theorem likely_open : ∀ c ∈ likely.candidates, 0 < c.2 ∧ c.2 < 1 := by
  simp only [likely, List.forall_mem_cons]
  norm_num

theorem likely_within : likely.within [1, 2] = likely := by
  refine Pool.within_eq_self fun c hc => ⟨(likely_open c hc).1, ?_⟩
  simp only [likely, List.mem_cons, List.not_mem_nil, or_false] at hc
  rcases hc with rfl | rfl <;> decide

theorem onCost_likely_pos : 0 < onCost 0.9 :=
  neg_pos.2 (Real.log_neg (by norm_num) (by norm_num))

/-- The first step selects both items, at half the price of the other candidate. -/
theorem selection_likely :
    selection likely [1, 2] = SortedSet.ofList [SortedSet.ofList [1, 2]] := by
  have hpos := onCost_likely_pos
  have hfound : choose likely.candidates ∅ =
      some ((SortedSet.ofList [1, 2], 0.9), onCost 0.9 / 2) := by
    refine choose_eq_some List.mem_cons_self (by decide) ?_ ?_
    · rw [show (SortedSet.ofList [(1 : Item), 2] \ ∅).size = 2 by decide, Nat.cast_ofNat]
    · simp only [likely, List.forall_mem_cons]
      refine ⟨fun hne => absurd rfl hne, fun _ _ => ?_, by simp⟩
      rw [show (SortedSet.ofList [(1 : Item)] \ ∅).size = 1 by decide, Nat.cast_one, div_one]
      exact half_lt_self hpos
  have hpicks : picks likely [1, 2] = [⟨SortedSet.ofList [1, 2], onCost 0.9 / 2⟩] := by
    rw [picks_eq, likely_within, picksFrom_of_choose_eq_some (by decide) hfound, picksFrom,
      if_pos (by decide)]
  rw [selection, hpicks]
  rfl

/-- With the first candidate alone the reported cost is more than the harmonic number of two times
the cost of both candidates. -/
theorem infer_cost_likely :
    improbable? likely = none ∧
      isComplete (SortedSet.ofList likely.itemsets) likely [1, 2] = true ∧
      ∃ x y : ℝ, (infer ∅ likely [1, 2]).cost = .ok (.value x) ∧
        (likely.within [1, 2]).cost (SortedSet.ofList likely.itemsets) = .ok y ∧
        harmonic (Transaction.items [1, 2]).size * y < x := by
  have hselected := Pool.cost_eq likely_open (selection likely [1, 2])
  have hboth := Pool.cost_eq likely_open (SortedSet.ofList likely.itemsets)
  have hne : SortedSet.ofList [(1 : Item)] ≠ SortedSet.ofList [1, 2] := by decide
  have htotal : likely.onTotal (selection likely [1, 2]) +
      likely.offTotal (selection likely [1, 2]) = onCost 0.9 + offCost 0.9 := by
    rw [selection_likely]
    simp [Pool.onTotal, Pool.offTotal, Pool.sumIn, Pool.sumOut, likely, hne]
  have htotal' : likely.onTotal (SortedSet.ofList likely.itemsets) +
      likely.offTotal (SortedSet.ofList likely.itemsets) = 2 * onCost 0.9 := by
    simp [Pool.onTotal, Pool.offTotal, Pool.sumIn, Pool.sumOut, likely, SortedSet.mem_ofList,
      Pool.itemsets, two_mul]
  have hharmonic : ((harmonic (Transaction.items [1, 2]).size : ℚ) : ℝ) = 3 / 2 := by
    rw [show (Transaction.items [1, 2]).size = 2 by decide, harmonic_succ, harmonic_succ,
      harmonic_zero]
    norm_num
  have hoff : 2 * onCost 0.9 < offCost 0.9 := by
    have hlog : Real.log (1 - 0.9) < Real.log (0.9 ^ 2) :=
      Real.log_lt_log (by norm_num) (by norm_num)
    rw [Real.log_pow] at hlog
    unfold onCost offCost
    push_cast at hlog
    linarith
  rw [htotal] at hselected
  rw [htotal'] at hboth
  refine ⟨improbable?_eq_none_iff.2 likely_open, isComplete_iff.2 ?_,
    onCost 0.9 + offCost 0.9, 2 * onCost 0.9, ?_, ?_, ?_⟩
  · rw [likely_within]
    exact ⟨fun s hs => SortedSet.mem_ofList.1 hs, by decide⟩
  · show ((likely.within [1, 2]).cost (selection likely [1, 2])).map _ = _
    rw [likely_within, hselected]
    rfl
  · rw [likely_within, hboth]
  · rw [hharmonic]
    linarith

end Likely

end Greedy

end NoisyCover
