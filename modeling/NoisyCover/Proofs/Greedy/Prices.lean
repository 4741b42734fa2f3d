import Mathlib
import NoisyCover.Proofs.Greedy.Coverage
import NoisyCover.Proofs.OrderedCosts

/-!
# The prices of greedy covering

A step selects at the least price that any candidate offers (`choose_le`).  Later steps find fewer
of a candidate's items uncovered, so its price does not fall (`price_le_price`).  Hence the price of
a step is at most that of every later one (`le_price_of_mem_picksFrom`), and the prices of a run
never fall (`prices_never_fall`).

All that is asked of costs is that they are ordered and not negative, and that a share of a cost is
not larger when more items share it.  So prices that are rounded do not fall either.
-/

namespace NoisyCover.Greedy

variable {K : Type u} [Arithmetic K] {P : K → Prop} {candidates : List (Candidate K)}
  {items covered covered' : SortedSet Item} {found : Candidate K × K} {c : Candidate K}

section Costs

variable (hP : SharedCosts P) (hp : ∀ c ∈ candidates, 0 < c.2 ∧ c.2 ≤ 1)

include hP hp

theorem price_mem (hc : c ∈ candidates) (hsize : (c.1 \ covered).size ≠ 0) :
    P (price covered c) := by
  obtain ⟨hcost, hnonneg⟩ := hP.selectionCost (hp c hc).1 (hp c hc).2
  exact hP.div hcost hnonneg hsize

/-- No candidate with an uncovered item has a lower price than the one a step selects at. -/
theorem choose_le (h : choose candidates covered = some found) (hc : c ∈ candidates)
    (hsize : (c.1 \ covered).size ≠ 0) : found.2 ≤ price covered c := by
  have hkeys : ∀ c ∈ candidates, ∀ k, costPerItem covered c = some k → P k := by
    intro c hc k hk
    obtain ⟨hsize, rfl⟩ := costPerItem_eq_some_iff.1 hk
    exact price_mem hP hp hc hsize
  have hfound := hkeys _ (firstLeast_mem h).1 _ (firstLeast_mem h).2
  rw [hP.le_iff_not_lt hfound (price_mem hP hp hc hsize)]
  exact not_lt_firstLeast hP.toTotalOn hkeys h c hc _ (costPerItem_eq_some_iff.2 ⟨hsize, rfl⟩)

/-- A candidate's price does not fall when more items are covered. -/
theorem price_le_price (hc : c ∈ candidates) (hsub : covered ⊆ covered')
    (hsize : (c.1 \ covered').size ≠ 0) :
    (c.1 \ covered).size ≠ 0 ∧ price covered c ≤ price covered' c := by
  have hle : (c.1 \ covered').size ≤ (c.1 \ covered).size := SortedSet.size_le_size fun i hi => by
    simp only [SortedSet.mem_sdiff] at hi ⊢
    exact ⟨hi.1, fun hin => hi.2 (hsub i hin)⟩
  obtain ⟨hcost, hnonneg⟩ := hP.selectionCost (hp c hc).1 (hp c hc).2
  exact ⟨by omega, hP.div_le_div hcost hnonneg hsize hle⟩

/-- The price of a step is at most that of every step taken when more is covered. -/
theorem le_price_of_mem_picksFrom (h : choose candidates covered = some found) :
    covered ⊆ covered' → ∀ p ∈ picksFrom candidates items covered', found.2 ≤ p.price := by
  fun_induction picksFrom candidates items covered' with
  | case1 covered' hdone => simp
  | case2 covered' hdone hnone => simp
  | case3 covered' hdone next hnext ih =>
    intro hsub
    refine List.forall_mem_cons.2 ⟨?_, ih fun i hi => SortedSet.mem_union.2 (.inl (hsub i hi))⟩
    obtain ⟨hmem, hsize, hprice⟩ := eq_price_of_choose h
    obtain ⟨hmem', hsize', hprice'⟩ := eq_price_of_choose hnext
    obtain ⟨hbefore, hle⟩ := price_le_price hP hp hmem' hsub hsize'
    have hchoose := choose_le hP hp h hmem' hbefore
    show found.2 ≤ next.2
    rw [hprice] at hchoose ⊢
    rw [hprice']
    exact hP.le_trans (price_mem hP hp hmem hsize) (price_mem hP hp hmem' hbefore)
      (price_mem hP hp hmem' hsize') hchoose hle

theorem pairwise_price_picksFrom :
    (picksFrom candidates items covered).Pairwise fun p q => p.price ≤ q.price := by
  fun_induction picksFrom candidates items covered with
  | case1 covered hdone => exact .nil
  | case2 covered hdone hnone => exact .nil
  | case3 covered hdone found hsome ih =>
    refine List.pairwise_cons.2 ⟨le_price_of_mem_picksFrom hP hp hsome fun i hi => ?_, ih⟩
    exact SortedSet.mem_union.2 (.inl hi)

end Costs

/-- The prices at which greedy covering selects never fall, and each is the least that any candidate
with an uncovered item has at its step. -/
theorem prices_never_fall (hP : SharedCosts P) (pool : Pool K) (t : Transaction)
    (hp : ∀ c ∈ (pool.within t).candidates, c.2 ≤ 1) :
    ((picks pool t).map Pick.price).Pairwise (· ≤ ·) ∧
      ∀ before p after, picks pool t = before ++ p :: after →
        let covered := unionOf (before.map Pick.itemset)
        (∃ c ∈ (pool.within t).candidates, c.1 = p.itemset ∧ (c.1 \ covered).size ≠ 0 ∧
          p.price = price covered c) ∧
        ∀ c ∈ (pool.within t).candidates, (c.1 \ covered).size ≠ 0 →
          p.price ≤ price covered c := by
  have hp' : ∀ c ∈ (pool.within t).candidates, 0 < c.2 ∧ c.2 ≤ 1 :=
    fun c hc => ⟨Pool.pos_of_mem_within c hc, hp c hc⟩
  rw [picks_eq, List.pairwise_map]
  refine ⟨pairwise_price_picksFrom hP hp', fun before p after hsplit => ?_⟩
  obtain ⟨c, hchoose, hc⟩ := choose_of_picksFrom_eq hsplit
  rw [SortedSet.empty_union] at hchoose
  obtain ⟨hmem, hsize, hprice⟩ := eq_price_of_choose hchoose
  exact ⟨⟨c, hmem, hc, hsize, hprice⟩, fun d hd hfresh => choose_le hP hp' hchoose hd hfresh⟩

section Staircase

/-- Two overlapping candidates, and a third with an item of its own. -/
def staircase {K : Type u} (low mid high : K) : Pool K where
  candidates := [(SortedSet.ofList [1, 2, 3], low), (SortedSet.ofList [1, 2], mid),
    (SortedSet.ofList [4], high)]
  nodup := by
    show [SortedSet.ofList [(1 : Item), 2, 3], SortedSet.ofList [1, 2], SortedSet.ofList [4]].Nodup
    decide

theorem staircase_within :
    (staircase (0.25 : ℝ) 0.5 1).within [1, 2, 3, 4] = staircase 0.25 0.5 1 := by
  refine Pool.within_eq_self ?_
  simp only [staircase, List.forall_mem_cons]
  exact ⟨⟨by norm_num, by decide⟩, ⟨by norm_num, by decide⟩, ⟨by norm_num, by decide⟩, by simp⟩

theorem onCost_half_pos : 0 < onCost 0.5 :=
  neg_pos.2 (Real.log_neg (by norm_num) (by norm_num))

theorem onCost_quarter : onCost 0.25 = 2 * onCost 0.5 := by
  have hlog : Real.log (0.5 ^ 2) = 2 * Real.log 0.5 := by rw [Real.log_pow, Nat.cast_ofNat]
  rw [onCost, onCost, mul_neg, ← hlog]
  norm_num

/-- The third candidate costs nothing, and the second is cheaper per item than the first. -/
theorem picks_staircase : picks (staircase (0.25 : ℝ) 0.5 1) [1, 2, 3, 4] =
    [⟨SortedSet.ofList [4], 0⟩, ⟨SortedSet.ofList [1, 2], onCost 0.5 / 2⟩,
      ⟨SortedSet.ofList [1, 2, 3], onCost 0.25⟩] := by
  have hpos := onCost_half_pos
  have hquarter := onCost_quarter
  have hone : onCost 1 = 0 := by rw [onCost, Real.log_one, neg_zero]
  have hfirst : choose (staircase (0.25 : ℝ) 0.5 1).candidates ∅ =
      some ((SortedSet.ofList [4], 1), 0) := by
    refine choose_eq_some (by simp [staircase]) (by decide) (by rw [hone, zero_div]) ?_
    simp only [staircase, List.forall_mem_cons]
    refine ⟨fun _ _ => ?_, fun _ _ => by positivity, fun hne => absurd rfl hne, by simp⟩
    rw [hquarter]
    positivity
  have hsecond : choose (staircase (0.25 : ℝ) 0.5 1).candidates (∅ ∪ SortedSet.ofList [4]) =
      some ((SortedSet.ofList [1, 2], 0.5), onCost 0.5 / 2) := by
    refine choose_eq_some (by simp [staircase]) (by decide) ?_ ?_
    · rw [show (SortedSet.ofList [(1 : Item), 2] \ (∅ ∪ SortedSet.ofList [4])).size = 2 by decide,
        Nat.cast_ofNat]
    · simp only [staircase, List.forall_mem_cons]
      refine ⟨fun _ _ => ?_, fun hne => absurd rfl hne, fun _ hfresh => absurd (by decide) hfresh,
        by simp⟩
      rw [show (SortedSet.ofList [(1 : Item), 2, 3] \ (∅ ∪ SortedSet.ofList [4])).size = 3 by
        decide, hquarter, Nat.cast_ofNat]
      linarith
  have hthird : choose (staircase (0.25 : ℝ) 0.5 1).candidates
      (∅ ∪ SortedSet.ofList [4] ∪ SortedSet.ofList [1, 2]) =
        some ((SortedSet.ofList [1, 2, 3], 0.25), onCost 0.25) := by
    refine choose_eq_some (by simp [staircase]) (by decide) ?_ ?_
    · rw [show (SortedSet.ofList [(1 : Item), 2, 3] \
        (∅ ∪ SortedSet.ofList [4] ∪ SortedSet.ofList [1, 2])).size = 1 by decide, Nat.cast_one,
        div_one]
    · simp only [staircase, List.forall_mem_cons]
      exact ⟨fun hne => absurd rfl hne, fun _ hfresh => absurd (by decide) hfresh,
        fun _ hfresh => absurd (by decide) hfresh, by simp⟩
  rw [picks_eq, staircase_within, picksFrom_of_choose_eq_some (by decide) hfirst,
    picksFrom_of_choose_eq_some (by decide) hsecond,
    picksFrom_of_choose_eq_some (by decide) hthird, picksFrom, if_pos (by decide)]

/-- Three steps at exact prices.  At rounded ones, the candidates that alone contain some item are
still selected. -/
theorem prices_never_fall_staircase :
    (picks (staircase (0.25 : ℝ) 0.5 1) [1, 2, 3, 4]).map Pick.itemset =
        [SortedSet.ofList [4], SortedSet.ofList [1, 2], SortedSet.ofList [1, 2, 3]] ∧
      ((picks (staircase (0.25 : ℝ) 0.5 1) [1, 2, 3, 4]).map Pick.price).Pairwise (· ≤ ·) ∧
      letI := Arithmetic.doublesWith Double.nearestLog
      let steps := picks (staircase (0.25 : Float) 0.5 1) [1, 2, 3, 4]
      SortedSet.ofList [4] ∈ selected steps ∧ SortedSet.ofList [1, 2, 3] ∈ selected steps ∧
        (steps.map Pick.price).Pairwise (· ≤ ·) := by
  refine ⟨by rw [picks_staircase]; rfl, ?_, ?_⟩
  · refine (prices_never_fall sharedCosts_real (staircase 0.25 0.5 1) [1, 2, 3, 4] ?_).1
    rw [staircase_within]
    simp only [staircase, List.forall_mem_cons]
    norm_num
  · let _ := Arithmetic.doublesWith Double.nearestLog
    let R := Double.doubleRounding Double.nearestLog_isLogarithm
    have hp : ∀ c ∈ ((staircase (0.25 : Float) 0.5 1).within [1, 2, 3, 4]).candidates,
        c.2 ≤ 1 := by decide
    have hcomplete := isComplete_selection R.toRounding hp (by decide)
    exact ⟨mem_of_isComplete hcomplete (i := 4) (by decide) (by decide),
      mem_of_isComplete hcomplete (i := 3) (by decide) (by decide),
      (prices_never_fall R.sharedCosts (staircase 0.25 0.5 1) [1, 2, 3, 4] hp).1⟩

end Staircase

end NoisyCover.Greedy
