import Mathlib
import NoisyCover.BinaryProgram
import NoisyCover.Proofs.Covering
import NoisyCover.Proofs.Rounding
import NoisyCover.Proofs.Tally

/-!
# Covering programs under rounding

However a row of zeros and ones is added up, and however the additions round, the sum is zero
exactly when there is no one in the row (`isZero_pairwiseSum_iff`).  So a covering program has an
empty row exactly when some item is isolated (`hasEmptyRow_iff`).

The objective takes the logarithm of the ratio of two probabilities.  That ratio is positive but may
be too large for a number, and then the coefficient is infinite (`isFinite_logOdds_iff`).
-/

namespace NoisyCover

open BinaryProgram

namespace Rounding

variable {K : Type u} [Arithmetic K] (R : Rounding K)

section Counts

variable {x y : K} {m n : ℕ}

/-- A number that tells whether a count is zero: it is zero itself or at least one. -/
def Counts (x : K) (n : ℕ) : Prop :=
  ∃ a : EReal, R.value x = some a ∧ (n = 0 → a = 0) ∧ (n ≠ 0 → 1 ≤ a)

theorem counts_add (hx : R.Counts x m) (hy : R.Counts y n) : R.Counts (x + y) (m + n) := by
  obtain ⟨a, ha, ha0, ha1⟩ := hx
  obtain ⟨b, hb, hb0, hb1⟩ := hy
  have hnonneg : ∀ {c : EReal} {k : ℕ}, (k = 0 → c = 0) → (k ≠ 0 → 1 ≤ c) → 0 ≤ c := by
    intro c k h0 h1
    rcases eq_or_ne k 0 with hk | hk
    · exact (h0 hk).ge
    · exact zero_le_one.trans (h1 hk)
  have hapos := hnonneg ha0 ha1
  have hbpos := hnonneg hb0 hb1
  -- an infinite sum tells too, as long as there is something to count
  have htop : R.value (x + y) = some ⊤ → m + n ≠ 0 → R.Counts (x + y) (m + n) := fun h hmn =>
    ⟨⊤, h, fun h0 => absurd h0 hmn, fun _ => le_top⟩
  induction a with
  | bot => exact absurd hapos (not_le.2 EReal.bot_lt_zero)
  | top =>
    refine htop (R.value_top_add ha hb (EReal.bot_lt_zero.trans_le hbpos).ne') fun h0 => ?_
    exact EReal.top_ne_zero (ha0 (by omega))
  | coe a =>
    induction b with
    | bot => exact absurd hbpos (not_le.2 EReal.bot_lt_zero)
    | top =>
      refine htop (R.value_add_top ha (EReal.coe_ne_bot a) hb) fun h0 => ?_
      exact EReal.top_ne_zero (hb0 (by omega))
    | coe b =>
      refine ⟨_, R.value_add ha hb, fun h0 => ?_, fun h1 => ?_⟩
      · have ha' : a = 0 := by exact_mod_cast ha0 (by omega)
        have hb' : b = 0 := by exact_mod_cast hb0 (by omega)
        rw [ha', hb', add_zero, R.round_zero]
      · rw [← R.round_one]
        refine R.monotone_round ?_
        have ha' : 0 ≤ a := by exact_mod_cast hapos
        have hb' : 0 ≤ b := by exact_mod_cast hbpos
        rcases Nat.eq_zero_or_pos m with hm | hm
        · have : 1 ≤ b := by exact_mod_cast hb1 (by omega)
          linarith
        · have : 1 ≤ a := by exact_mod_cast ha1 (by omega)
          linarith

theorem additive_counts : Additive R.Counts where
  zero := ⟨0, R.value_zero, fun _ => rfl, fun h => absurd rfl h⟩
  add := R.counts_add

/-- Sums of counts are exact, as long as all counts on the way are numbers. -/
theorem additive_exact {limit : ℕ} (h : ∀ n : ℕ, n < limit → R.round n = (n : ℝ)) :
    Additive fun (x : K) n => n < limit → R.value x = some ((n : ℝ) : EReal) where
  zero _ := by
    rw [Nat.cast_zero]
    exact R.value_zero
  add hx hy hlt := by
    rw [R.value_add (hx (by omega)) (hy (by omega)), ← Nat.cast_add, h _ hlt]

theorem isZero_iff (h : R.Counts x n) : Arithmetic.isZero x = true ↔ n = 0 := by
  obtain ⟨a, ha, h0, h1⟩ := h
  rw [Arithmetic.isZero, Bool.and_eq_true, decide_eq_true_eq, decide_eq_true_eq,
    R.le_iff_of_value ha R.value_zero, R.le_iff_of_value R.value_zero ha, ← le_antisymm_iff]
  refine ⟨fun hzero => ?_, h0⟩
  by_contra hn
  rw [hzero] at h1
  exact absurd (h1 hn) (not_le.2 zero_lt_one)

end Counts

section Rows

variable {candidates : List (Candidate K)} {i : Item} {pool : Pool K} {t : Transaction}

include R

/-- However a row of zeros and ones is added up, its sum tells whether all of them are zeros. -/
theorem isZero_pairwiseSum_iff {row : List K}
    (h : ∀ x ∈ row, R.value x = some 0 ∨ R.value x = some 1) :
    Arithmetic.isZero (Arithmetic.pairwiseSum row) = true ↔ ∀ x ∈ row, R.value x = some 0 := by
  have hentry : ∀ x ∈ row, R.Counts x (if R.value x = some 0 then 0 else 1) := by
    intro x hx
    split_ifs with hzero
    · exact ⟨0, hzero, fun _ => rfl, fun h => absurd rfl h⟩
    · exact ⟨1, (h x hx).resolve_left hzero, fun h => absurd h one_ne_zero, fun _ => le_rfl⟩
  have htally := Tally.map hentry
  rw [List.map_id'] at htally
  rw [R.isZero_iff (Tally.pairwiseSum R.additive_counts row htally), List.sum_eq_zero_iff,
    List.forall_mem_map]
  refine forall₂_congr fun x _ => ?_
  rw [ite_eq_left_iff]
  exact ⟨fun h => not_not.1 fun hne => one_ne_zero (h hne), fun h hne => absurd h hne⟩

theorem value_rowOf : ∀ x ∈ rowOf candidates i, R.value x = some 0 ∨ R.value x = some 1 := by
  rw [rowOf, List.forall_mem_map]
  intro c _
  split_ifs
  · exact .inr R.value_one
  · exact .inl R.value_zero

theorem value_rowOf_eq_zero_iff :
    (∀ x ∈ rowOf candidates i, R.value x = some 0) ↔ ∀ c ∈ candidates, i ∉ c.1 := by
  rw [rowOf, List.forall_mem_map]
  refine forall₂_congr fun c _ => ?_
  split_ifs with hi
  · refine iff_of_false (fun h => ?_) (not_not.2 hi)
    exact zero_ne_one (Option.some.inj (h.symm.trans R.value_one))
  · exact iff_of_true R.value_zero hi

/-- When there is one row of zeros and ones for each item, an empty row is one without a one. -/
theorem hasEmptyRow_iff_exists {p : BinaryProgram K} (hlength : p.rows.length = p.items.length)
    (hbits : ∀ row ∈ p.rows, ∀ x ∈ row, R.value x = some 0 ∨ R.value x = some 1) :
    p.hasEmptyRow = true ↔ ∃ row ∈ p.rows, ∀ x ∈ row, R.value x = some 0 := by
  rw [hasEmptyRow, constraintCount, ← hlength, Bool.and_eq_true, List.any_eq_true]
  constructor
  · rintro ⟨-, row, hrow, hzero⟩
    exact ⟨row, hrow, (R.isZero_pairwiseSum_iff (hbits row hrow)).1 hzero⟩
  · rintro ⟨row, hrow, hzero⟩
    refine ⟨bne_iff_ne.2 (List.length_pos_of_mem hrow).ne', row, hrow, ?_⟩
    exact (R.isZero_pairwiseSum_iff (hbits row hrow)).2 hzero

/-- A covering program has an empty row exactly when some item is isolated. -/
theorem hasEmptyRow_iff {p : BinaryProgram K} (hrows : p.rows = t.map (rowOf pool.candidates))
    (hitems : p.items = t) : p.hasEmptyRow = true ↔ isolatedItems pool t ≠ [] := by
  have hbits : ∀ row ∈ p.rows, ∀ x ∈ row, R.value x = some 0 ∨ R.value x = some 1 := by
    rw [hrows, List.forall_mem_map]
    exact fun i _ => R.value_rowOf
  rw [R.hasEmptyRow_iff_exists (by rw [hrows, hitems, List.length_map]) hbits, hrows, ne_eq,
    isolatedItems_eq_nil_iff]
  simp only [List.mem_map, exists_exists_and_eq_and, R.value_rowOf_eq_zero_iff]
  push Not
  refine exists_congr fun i => and_congr_right fun _ => ?_
  rw [Pool.itemsets, List.forall_mem_map]

end Rows

section Objective

variable {p : K} {pool : Pool K}

include R

theorem value_one_sub (h0 : 0 < p) (h1 : p < 1) :
    ∃ b : ℝ, 0 < b ∧ b ≤ 1 ∧ R.value (1 - p) = some (b : EReal) := by
  obtain ⟨a, ha0, ha1, ha⟩ := R.value_of_open h0 h1
  have hpos : 0 < R.round (1 - a) := R.round_sub_pos ha R.value_one ha1
  have hle : R.round (1 - a) ≤ ((1 : ℝ) : EReal) :=
    (R.monotone_round (sub_le_self 1 ha0.le)).trans_eq R.round_one
  obtain ⟨b, hb, -, hb1⟩ := exists_coe_of_bounds hpos.le hle
  exact ⟨b, EReal.coe_pos.1 (hb ▸ hpos), hb1, hb ▸ R.value_sub R.value_one ha⟩

theorem odds_pos (h0 : 0 < p) (h1 : p < 1) : 0 < (1 - p) / p := by
  obtain ⟨a, ha0, ha1, ha⟩ := R.value_of_open h0 h1
  obtain ⟨b, hb0, -, hb⟩ := R.value_one_sub h0 h1
  rw [R.lt_iff_of_value R.value_zero (R.value_div hb ha ha0.ne')]
  calc (0 : EReal) < b := EReal.coe_pos.2 hb0
    _ = R.round b := (R.round_value hb).symm
    _ ≤ R.round (b / a) := R.monotone_round (le_div_self hb0.le ha0 ha1.le)

theorem logOddsAgainst_eq_checkedLog (h : 0 < p) :
    logOddsAgainst p = Arithmetic.checkedLog ((1 - p) / p) := by
  have hzero : Arithmetic.isZero p = false := by
    rw [Arithmetic.isZero, Bool.and_eq_false_iff, decide_eq_false_iff_not]
    exact .inl (R.not_le_zero h)
  rw [logOddsAgainst, hzero, if_neg Bool.false_ne_true]

theorem logOddsAgainst_eq (h0 : 0 < p) (h1 : p < 1) :
    logOddsAgainst p = .ok (Arithmetic.log ((1 - p) / p)) := by
  rw [R.logOddsAgainst_eq_checkedLog h0, Arithmetic.checkedLog,
    if_neg (R.not_le_zero (R.odds_pos h0 h1))]

theorem isFinite_logOdds_iff (h0 : 0 < p) (h1 : p < 1) :
    R.IsFinite (Arithmetic.log ((1 - p) / p)) ↔ R.value ((1 - p) / p) ≠ some ⊤ := by
  rcases R.value_of_pos (R.odds_pos h0 h1) with htop | ⟨a, ha, hval⟩
  · refine iff_of_false ?_ (not_not.2 htop)
    rintro ⟨l, hl⟩
    rw [R.value_log_top htop] at hl
    exact EReal.top_ne_coe l (Option.some.inj hl)
  · obtain ⟨l, hl, -⟩ := R.value_log hval ha
    refine iff_of_true ⟨l, hl⟩ ?_
    rw [hval]
    exact fun h => EReal.coe_ne_top a (Option.some.inj h)

end Objective

end Rounding

/-- The covering program of a pool, with the logarithm of each candidate's odds. -/
def logOddsProgram {K : Type u} [Arithmetic K] (pool : Pool K) (t : Transaction) :
    BinaryProgram K where
  objective := pool.candidates.map fun c => Arithmetic.log ((1 - c.2) / c.2)
  rows := t.map (rowOf pool.candidates)
  integrality := List.replicate pool.size 1
  items := t

theorem Rounding.build_eq {K : Type u} [Arithmetic K] (R : Rounding K) {pool : Pool K}
    (hopen : ∀ c ∈ pool.candidates, 0 < c.2 ∧ c.2 < 1) (t : Transaction) :
    BinaryProgram.build pool t = .ok (logOddsProgram pool t) := by
  rw [BinaryProgram.build, mapM_ok fun c hc => R.logOddsAgainst_eq (hopen c hc).1 (hopen c hc).2]
  rfl

end NoisyCover
