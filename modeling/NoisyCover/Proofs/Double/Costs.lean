import Mathlib
import NoisyCover.Proofs.Charges
import NoisyCover.Proofs.Double.Rounds
import NoisyCover.Proofs.Rows

/-!
# Costs in doubles

The odds against a candidate are infinite in doubles exactly when its probability is at most
`2 ^ (-1024)` (`value_odds_eq_top_iff`): then nothing is left of it in the rest of one, and one over
it is too large.  Its costs are finite all the same, and so is the sum of the costs of any pool,
because a large sum swallows them (`isFinite_cost`).
-/

namespace NoisyCover

section Rounded

theorem roundDouble_eq_top {x : ℝ} (h : 2 ^ (1024 : ℤ) ≤ x) : roundDouble x = ⊤ := by
  have hpower : nearestDouble (2 ^ (1024 : ℤ)) = 2 ^ (1024 : ℤ) :=
    nearestDouble_eq ⟨1, 1024, by norm_num, by norm_num, by norm_num⟩
  rw [roundDouble, inRange_def, if_pos]
  exact hpower.symm.trans_le (nearestDouble_mono h)

/-- The rest of one is one when next to nothing is taken off. -/
theorem roundDouble_one_sub {x : ℝ} (h0 : 0 ≤ x) (h : x ≤ 2 ^ (-60 : ℤ)) :
    roundDouble (1 - x) = 1 := by
  have hplace : lastPlace (1 - 2 ^ (-60 : ℤ)) = -1 - 52 :=
    lastPlace_eq (by norm_num) (by norm_num) (by norm_num)
  have hnear : nearestDouble (1 - 2 ^ (-60 : ℤ)) = 1 := by
    rw [nearestDouble, hplace, roundAt_eq,
      nearestEven_of_half_lt (n := 2 ^ 53 - 1) (by norm_num) (by norm_num)]
    norm_num
  have hone : |(1 : ℝ)| < 2 ^ (1024 : ℤ) := by
    rw [abs_one]
    exact one_lt_zpow₀ one_lt_two (by norm_num)
  refine le_antisymm ?_ ?_
  · calc roundDouble (1 - x) ≤ roundDouble (1 : ℕ) := roundDouble_mono (by push_cast; linarith)
      _ = 1 := by rw [roundDouble_natCast (by norm_num), Nat.cast_one, EReal.coe_one]
  · calc (1 : EReal) = roundDouble (1 - 2 ^ (-60 : ℤ)) := by
          rw [roundDouble, hnear, inRange_eq hone, EReal.coe_one]
      _ ≤ roundDouble (1 - x) := roundDouble_mono (by linarith)

/-- A sum that is large enough swallows a cost. -/
theorem roundDouble_swallow : roundDouble (2 ^ 70 + 1075) = (2 ^ 70 : ℝ) := by
  have hplace : lastPlace (2 ^ 70 + 1075) = 70 - 52 :=
    lastPlace_eq (by norm_num) (by norm_num) (by norm_num)
  have hnear : nearestDouble (2 ^ 70 + 1075) = 2 ^ 70 := by
    rw [nearestDouble, hplace, roundAt_eq,
      nearestEven_of_lt_half (n := 2 ^ 52) (by norm_num) (by norm_num)]
    norm_num
  have hlt : |(2 : ℝ) ^ 70| < 2 ^ (1024 : ℤ) := by
    rw [abs_of_pos (by positivity), ← zpow_natCast]
    exact zpow_lt_zpow_right₀ one_lt_two (by norm_num)
  rw [roundDouble, hnear, inRange_eq hlt]

end Rounded

namespace Double.RoundsToDoubles

variable {K : Type u} [Arithmetic K] (R : RoundsToDoubles K)

section Odds

variable {p : K} {a : ℝ}

theorem value_odds_of_le (h0 : 0 < a) (ha : R.value p = some (a : EReal))
    (h : a ≤ 2 ^ (-1024 : ℤ)) : R.value ((1 - p) / p) = some ⊤ := by
  have hsmall : a ≤ 2 ^ (-60 : ℤ) := h.trans (zpow_le_zpow_right₀ one_le_two (by norm_num))
  have hsub := R.value_sub R.value_one ha
  rw [R.round_eq, roundDouble_one_sub h0.le hsmall] at hsub
  have hdiv := R.value_div hsub ha h0.ne'
  rw [R.round_eq, roundDouble_eq_top] at hdiv
  · exact hdiv
  · rw [le_div_iff₀ h0]
    calc (2 : ℝ) ^ (1024 : ℤ) * a ≤ 2 ^ (1024 : ℤ) * 2 ^ (-1024 : ℤ) := by gcongr
      _ = 1 := by rw [← zpow_add₀ two_ne_zero]; norm_num

theorem value_odds_of_lt (h0 : 0 < p) (h1 : p < 1) (ha : R.value p = some (a : EReal))
    (h : 2 ^ (-1024 : ℤ) < a) : R.value ((1 - p) / p) ≠ some ⊤ := by
  obtain ⟨b, hb0, hb1, hb⟩ := R.value_one_sub h0 h1
  have hleast : IsDouble (2 ^ (-1024 : ℤ)) := ⟨1, -1024, by norm_num, by norm_num, by norm_num⟩
  -- the next double is so much larger that one over it is still in range
  have hstep := hleast.le_sub (R.isDouble ha).1 h
  have ha0 : 0 < a := (by positivity : (0 : ℝ) < 2 ^ (-1024 : ℤ)).trans h
  -- the largest double there is
  have hlargest : roundDouble ((2 ^ 53 - 1 : ℤ) * 2 ^ (971 : ℤ)) =
      ((2 ^ 53 - 1 : ℤ) * 2 ^ (971 : ℤ) : ℝ) := by
    refine roundDouble_eq ⟨_, 971, by norm_num, by norm_num, rfl⟩ ?_
    rw [abs_mul, abs_of_pos (by positivity : (0 : ℝ) < 2 ^ (971 : ℤ))]
    calc |((2 ^ 53 - 1 : ℤ) : ℝ)| * 2 ^ (971 : ℤ) < 2 ^ (53 : ℤ) * 2 ^ (971 : ℤ) := by
          gcongr
          norm_num
      _ = 2 ^ (1024 : ℤ) := by rw [← zpow_add₀ two_ne_zero]; norm_num
  have hle : b / a ≤ (2 ^ 53 - 1 : ℤ) * 2 ^ (971 : ℤ) := by
    rw [div_le_iff₀ ha0]
    have hsplit : (2 : ℝ) ^ (971 : ℤ) * (2 ^ (-1024 : ℤ) + 2 ^ (-1074 : ℤ)) =
        2 ^ (-53 : ℤ) + 2 ^ (-103 : ℤ) := by
      rw [mul_add, ← zpow_add₀ two_ne_zero, ← zpow_add₀ two_ne_zero]
      norm_num
    calc b ≤ (2 ^ 53 - 1 : ℤ) * (2 ^ (-53 : ℤ) + 2 ^ (-103 : ℤ)) := hb1.trans (by norm_num)
      _ = (2 ^ 53 - 1 : ℤ) * 2 ^ (971 : ℤ) * (2 ^ (-1024 : ℤ) + 2 ^ (-1074 : ℤ)) := by
        rw [mul_assoc, hsplit]
      _ ≤ (2 ^ 53 - 1 : ℤ) * 2 ^ (971 : ℤ) * a := by
        gcongr
        linarith
  rw [R.value_div hb ha ha0.ne', R.round_eq]
  intro htop
  have := roundDouble_mono hle
  rw [Option.some.inj htop, hlargest] at this
  exact absurd this (not_le.2 (EReal.coe_lt_top _))

/-- The odds against a candidate are infinite exactly when it is next to impossible. -/
theorem value_odds_eq_top_iff (h0 : 0 < p) (h1 : p < 1) (ha : R.value p = some (a : EReal)) :
    R.value ((1 - p) / p) = some ⊤ ↔ a ≤ 2 ^ (-1024 : ℤ) := by
  have ha0 : 0 < a := by
    rw [R.lt_iff_of_value R.value_zero ha] at h0
    exact_mod_cast h0
  refine ⟨fun htop => ?_, R.value_odds_of_le ha0 ha⟩
  by_contra hlt
  exact R.value_odds_of_lt h0 h1 ha (not_le.1 hlt) htop

end Odds

section Costs

variable {p x : K} {a : ℝ} {pool : Pool K}

/-- A number that stands for a real number between zero and a bound. -/
def IsWithin (bound : ℝ) (x : K) : Prop :=
  ∃ a : ℝ, 0 ≤ a ∧ a ≤ bound ∧ R.value x = some (a : EReal)

theorem isWithin_neg_log (ha : R.value x = some (a : EReal)) (h0 : 0 < a) (h1 : a ≤ 1) :
    R.IsWithin 1075 (-Arithmetic.log x) := by
  obtain ⟨l, hl, hneg, -⟩ := R.value_log ha h0
  have hnear := R.log_near ha h0 hl
  obtain ⟨hdouble, hlt⟩ := R.isDouble ha
  have hlog := abs_log_le hdouble h0 (abs_lt.1 hlt).2
  have hle := abs_le.1 hnear
  have hlog' := abs_le.1 hlog
  exact ⟨-l, neg_nonneg.2 (hneg h1), by linarith, R.value_neg hl⟩

theorem isWithin_selectionCost (h0 : 0 < p) (h1 : p < 1) :
    R.IsWithin 1075 (selectionCost p) := by
  obtain ⟨a, ha0, ha1, ha⟩ := R.value_of_open h0 h1
  exact R.isWithin_neg_log ha ha0 ha1.le

theorem isWithin_costOff (h0 : 0 < p) (h1 : p < 1) :
    ∃ x, costOff p = .ok x ∧ R.IsWithin 1075 x := by
  obtain ⟨b, hb0, hb1, hb⟩ := R.value_one_sub h0 h1
  exact ⟨_, R.costOff_eq h0 h1, R.isWithin_neg_log hb hb0 hb1⟩

theorem isWithin_candidateCost {c : Candidate K} (h0 : 0 < c.2) (h1 : c.2 < 1)
    (covering : Covering) :
    ∃ x, candidateCost covering c = .ok x ∧ R.IsWithin 1075 x := by
  unfold candidateCost
  split_ifs
  · exact ⟨_, R.costOn_eq h0, R.isWithin_selectionCost h0 h1⟩
  · exact R.isWithin_costOff h0 h1

theorem IsWithin.add {y : K} (hx : R.IsWithin (2 ^ 70) x) (hy : R.IsWithin 1075 y) :
    R.IsWithin (2 ^ 70) (x + y) := by
  obtain ⟨a, ha0, ha1, ha⟩ := hx
  obtain ⟨b, hb0, hb1, hb⟩ := hy
  have hsum := R.value_add ha hb
  rw [R.round_eq] at hsum
  have hlow : ((0 : ℝ) : EReal) ≤ roundDouble (a + b) :=
    roundDouble_zero.symm.trans_le (roundDouble_mono (add_nonneg ha0 hb0))
  have hhigh : roundDouble (a + b) ≤ (2 ^ 70 : ℝ) :=
    (roundDouble_mono (add_le_add ha1 hb1)).trans_eq roundDouble_swallow
  obtain ⟨d, hd, hd0, hd1⟩ := exists_coe_of_bounds hlow hhigh
  exact ⟨d, hd0, hd1, hd ▸ hsum⟩

theorem isWithin_cost (hopen : ∀ c ∈ pool.candidates, 0 < c.2 ∧ c.2 < 1) (covering : Covering) :
    ∃ x, pool.cost covering = .ok x ∧ R.IsWithin (2 ^ 70) x := by
  refine exists_foldlM_ok _ (fun c hc total htotal => ?_) 0 ⟨0, le_rfl, by positivity, R.value_zero⟩
  obtain ⟨x, hx, hwithin⟩ := R.isWithin_candidateCost (hopen c hc).1 (hopen c hc).2 covering
  rw [hx]
  exact ⟨_, rfl, htotal.add R hwithin⟩

/-- The cost of a pool is finite, however many candidates there are. -/
theorem isFinite_cost (hopen : ∀ c ∈ pool.candidates, 0 < c.2 ∧ c.2 < 1) (covering : Covering) :
    ∃ x, pool.cost covering = .ok x ∧ R.IsFinite x := by
  obtain ⟨x, hx, a, -, -, ha⟩ := R.isWithin_cost hopen covering
  exact ⟨x, hx, a, ha⟩

end Costs

end Double.RoundsToDoubles

end NoisyCover
