import Mathlib
import NoisyCover.Proofs.Scan

/-!
# Arithmetics that round

An arithmetic rounds when its numbers stand for extended real numbers, its comparisons are those of
the values, and the result of an operation on finite values is the exact result, rounded
(`Rounding`).  All that is asked of rounding is that it is monotone, keeps the values there are and
does not lose the sign of a difference.  The real numbers round without an error
(`exactRounding`).

So what is shown of every arithmetic that rounds holds of exact costs and of costs in doubles.
-/

namespace NoisyCover

theorem exists_coe_of_bounds {d : EReal} {a b : ℝ} (hlow : a ≤ d) (hhigh : d ≤ b) :
    ∃ x : ℝ, d = x ∧ a ≤ x ∧ x ≤ b := by
  induction d with
  | bot => exact absurd hlow (not_le.2 (EReal.bot_lt_coe a))
  | top => exact absurd hhigh (not_le.2 (EReal.coe_lt_top b))
  | coe d => exact ⟨d, rfl, EReal.coe_le_coe_iff.1 hlow, EReal.coe_le_coe_iff.1 hhigh⟩

/-- How the numbers of an arithmetic stand for extended real numbers. -/
structure Rounding (K : Type u) [Arithmetic K] where
  /-- What a number stands for; nothing if it is not a number. -/
  value : K → Option EReal
  /-- The value at which an exact result is represented. -/
  round : ℝ → EReal
  monotone_round : Monotone round
  round_value : ∀ {x : K} {a : ℝ}, value x = some (a : EReal) → round a = a
  /-- Different numbers have a difference with the right sign. -/
  round_sub_pos : ∀ {x y : K} {a b : ℝ}, value x = some (a : EReal) → value y = some (b : EReal) →
    a < b → 0 < round (b - a)
  lt_iff : ∀ {x y : K}, x < y ↔ ∃ a b, value x = some a ∧ value y = some b ∧ a < b
  le_iff : ∀ {x y : K}, x ≤ y ↔ ∃ a b, value x = some a ∧ value y = some b ∧ a ≤ b
  bounded_iff : ∀ {x : K}, Arithmetic.bounded x = true ↔ ∃ a, value x = some a ∧ a < ⊤
  value_zero : value 0 = some 0
  value_one : value 1 = some 1
  value_natCast : ∀ n : ℕ, value (n : K) = some (round n)
  value_neg : ∀ {x : K} {a : EReal}, value x = some a → value (-x) = some (-a)
  value_add : ∀ {x y : K} {a b : ℝ}, value x = some (a : EReal) → value y = some (b : EReal) →
    value (x + y) = some (round (a + b))
  value_add_top : ∀ {x y : K} {a : EReal}, value x = some a → a ≠ ⊥ → value y = some ⊤ →
    value (x + y) = some ⊤
  value_top_add : ∀ {x y : K} {b : EReal}, value x = some ⊤ → value y = some b → b ≠ ⊥ →
    value (x + y) = some ⊤
  value_sub : ∀ {x y : K} {a b : ℝ}, value x = some (a : EReal) → value y = some (b : EReal) →
    value (x - y) = some (round (a - b))
  value_sub_top : ∀ {x y : K} {a : ℝ}, value x = some (a : EReal) → value y = some ⊤ →
    value (x - y) = some ⊥
  value_div : ∀ {x y : K} {a b : ℝ}, value x = some (a : EReal) → value y = some (b : EReal) →
    b ≠ 0 → value (x / y) = some (round (a / b))
  value_div_top : ∀ {x y : K} {a : ℝ}, value x = some (a : EReal) → value y = some ⊤ →
    value (x / y) = some 0
  /-- The logarithm of a positive finite number is finite and has the right sign. -/
  value_log : ∀ {x : K} {a : ℝ}, value x = some (a : EReal) → 0 < a →
    ∃ l : ℝ, value (Arithmetic.log x) = some (l : EReal) ∧ (a ≤ 1 → l ≤ 0) ∧ (1 ≤ a → 0 ≤ l)
  value_log_top : ∀ {x : K}, value x = some ⊤ → value (Arithmetic.log x) = some ⊤

/-- The real numbers, with every result exact. -/
noncomputable def exactRounding : Rounding ℝ where
  value x := some (x : EReal)
  round a := a
  monotone_round _ _ h := EReal.coe_le_coe_iff.2 h
  round_value _ := rfl
  round_sub_pos _ _ h := EReal.coe_pos.2 (sub_pos.2 h)
  lt_iff := by simp
  le_iff := by simp
  bounded_iff {x} := iff_of_true rfl ⟨x, rfl, EReal.coe_lt_top x⟩
  value_zero := rfl
  value_one := rfl
  value_natCast _ := rfl
  value_neg h := by
    rw [← Option.some.inj h]
    rfl
  value_add ha hb := by
    rw [EReal.coe_injective (Option.some.inj ha), EReal.coe_injective (Option.some.inj hb)]
  value_add_top _ _ h := absurd (Option.some.inj h) (EReal.coe_ne_top _)
  value_top_add h _ _ := absurd (Option.some.inj h) (EReal.coe_ne_top _)
  value_sub ha hb := by
    rw [EReal.coe_injective (Option.some.inj ha), EReal.coe_injective (Option.some.inj hb)]
  value_sub_top _ h := absurd (Option.some.inj h) (EReal.coe_ne_top _)
  value_div ha hb _ := by
    rw [EReal.coe_injective (Option.some.inj ha), EReal.coe_injective (Option.some.inj hb)]
  value_div_top _ h := absurd (Option.some.inj h) (EReal.coe_ne_top _)
  value_log {x a} h hpos := by
    obtain rfl := EReal.coe_injective (Option.some.inj h)
    exact ⟨Real.log x, rfl, Real.log_nonpos hpos.le, Real.log_nonneg⟩
  value_log_top h := absurd (Option.some.inj h) (EReal.coe_ne_top _)

namespace Rounding

variable {K : Type u} [Arithmetic K] (R : Rounding K)

/-- A number that stands for a real number. -/
def IsFinite (x : K) : Prop := ∃ a : ℝ, R.value x = some (a : EReal)

/-- A number that stands for a real number that is not negative. -/
def IsCost (x : K) : Prop := ∃ a : ℝ, 0 ≤ a ∧ R.value x = some (a : EReal)

theorem round_zero : R.round 0 = 0 := R.round_value (x := 0) R.value_zero

theorem round_one : R.round 1 = 1 := R.round_value (x := 1) R.value_one

section Order

variable {x y p : K}

include R

theorem lt_iff_of_value {a b : EReal} (ha : R.value x = some a) (hb : R.value y = some b) :
    x < y ↔ a < b := by
  simp [R.lt_iff, ha, hb]

theorem le_iff_of_value {a b : EReal} (ha : R.value x = some a) (hb : R.value y = some b) :
    x ≤ y ↔ a ≤ b := by
  simp [R.le_iff, ha, hb]

theorem le_of_lt (h : x < y) : x ≤ y := by
  obtain ⟨a, b, ha, hb, hlt⟩ := R.lt_iff.1 h
  exact (R.le_iff_of_value ha hb).2 hlt.le

/-- The numbers are totally ordered by their values. -/
theorem totalOn : TotalOn fun x : K => ∃ a, R.value x = some a where
  asymm := by
    rintro x y ⟨a, ha⟩ ⟨b, hb⟩ h h'
    rw [R.lt_iff_of_value ha hb] at h
    rw [R.lt_iff_of_value hb ha] at h'
    exact lt_asymm h h'
  trans := by
    rintro x y z ⟨a, ha⟩ ⟨b, hb⟩ ⟨c, hc⟩ h h' h''
    rw [R.lt_iff_of_value hb ha] at h
    rw [R.lt_iff_of_value hc hb] at h'
    rw [R.lt_iff_of_value hc ha] at h''
    exact absurd h'' (not_lt.2 ((not_lt.1 h).trans (not_lt.1 h')))
  top := by
    rintro x y ⟨a, ha⟩ ⟨b, hb⟩ hx h
    rw [R.lt_iff_of_value ha hb] at h
    have hbounded := R.bounded_iff.2 ⟨a, ha, h.trans_le le_top⟩
    rw [hx] at hbounded
    cases hbounded

theorem bounded_of_isFinite (h : R.IsFinite x) : Arithmetic.bounded x = true := by
  obtain ⟨a, ha⟩ := h
  exact R.bounded_iff.2 ⟨a, ha, EReal.coe_lt_top a⟩

theorem IsCost.isFinite (h : R.IsCost x) : R.IsFinite x := by
  obtain ⟨a, -, ha⟩ := h
  exact ⟨a, ha⟩

theorem value_of_pos (h : 0 < p) :
    R.value p = some ⊤ ∨ ∃ a : ℝ, 0 < a ∧ R.value p = some (a : EReal) := by
  obtain ⟨z, a, hz, ha, hlt⟩ := R.lt_iff.1 h
  rw [R.value_zero] at hz
  obtain rfl := Option.some.inj hz
  induction a with
  | bot => exact absurd hlt not_lt_bot
  | top => exact .inl ha
  | coe a => exact .inr ⟨a, EReal.coe_pos.1 hlt, ha⟩

theorem not_le_zero (h : 0 < p) : ¬ p ≤ 0 := by
  obtain ⟨z, a, hz, ha, hlt⟩ := R.lt_iff.1 h
  rw [R.le_iff_of_value ha hz]
  exact not_le.2 hlt

theorem value_of_le_one (h0 : 0 < p) (h1 : p ≤ 1) :
    ∃ a : ℝ, 0 < a ∧ a ≤ 1 ∧ R.value p = some (a : EReal) := by
  rcases R.value_of_pos h0 with htop | ⟨a, ha, hval⟩
  · rw [R.le_iff_of_value htop R.value_one] at h1
    exact absurd h1 (not_le.2 (EReal.coe_lt_top 1))
  · rw [R.le_iff_of_value hval R.value_one] at h1
    exact ⟨a, ha, by exact_mod_cast h1, hval⟩

theorem value_of_open (h0 : 0 < p) (h1 : p < 1) :
    ∃ a : ℝ, 0 < a ∧ a < 1 ∧ R.value p = some (a : EReal) := by
  obtain ⟨a, ha, -, hval⟩ := R.value_of_le_one h0 (R.le_of_lt h1)
  rw [R.lt_iff_of_value hval R.value_one] at h1
  exact ⟨a, ha, by exact_mod_cast h1, hval⟩

end Order

section Costs

variable {p x y : K}

include R

theorem not_lt_one_iff (h : 0 < p) : ¬ p < 1 ↔ 1 ≤ p := by
  obtain ⟨z, a, -, ha, -⟩ := R.lt_iff.1 h
  rw [R.lt_iff_of_value ha R.value_one, R.le_iff_of_value R.value_one ha, not_lt]

theorem one_sub_le_zero_iff (h : 0 < p) : 1 - p ≤ 0 ↔ 1 ≤ p := by
  rcases R.value_of_pos h with htop | ⟨a, -, ha⟩
  · rw [R.le_iff_of_value (R.value_sub_top R.value_one htop) R.value_zero,
      R.le_iff_of_value R.value_one htop]
    exact iff_of_true bot_le le_top
  · rw [R.le_iff_of_value (R.value_sub R.value_one ha) R.value_zero,
      R.le_iff_of_value R.value_one ha]
    rcases lt_or_ge a 1 with hlt | hge
    · have hpos := R.round_sub_pos ha R.value_one hlt
      exact iff_of_false (not_le.2 hpos) (not_le.2 (by exact_mod_cast hlt))
    · have hle := R.monotone_round (sub_nonpos.2 hge)
      rw [R.round_zero] at hle
      exact iff_of_true hle (by exact_mod_cast hge)

theorem costOn_eq (h : 0 < p) : costOn p = .ok (selectionCost p) := by
  rw [costOn, Arithmetic.checkedLog, if_neg (R.not_le_zero h)]
  rfl

theorem costOff_eq (h0 : 0 < p) (h1 : p < 1) :
    costOff p = .ok (-Arithmetic.log (1 - p)) := by
  have hpos : ¬ 1 - p ≤ 0 := by
    rwa [R.one_sub_le_zero_iff h0, ← R.not_lt_one_iff h0, not_not]
  rw [costOff, Arithmetic.checkedLog, if_neg hpos]
  rfl

theorem costOff_eq_error (h0 : 0 < p) (h1 : ¬ p < 1) :
    costOff p = .error .logOfNonpositive := by
  have hle : 1 - p ≤ 0 := (R.one_sub_le_zero_iff h0).2 ((R.not_lt_one_iff h0).1 h1)
  rw [costOff, Arithmetic.checkedLog, if_pos hle]
  rfl

theorem isCost_selectionCost (h0 : 0 < p) (h1 : p ≤ 1) : R.IsCost (selectionCost p) := by
  obtain ⟨a, ha0, ha1, ha⟩ := R.value_of_le_one h0 h1
  obtain ⟨l, hl, hneg, -⟩ := R.value_log ha ha0
  exact ⟨-l, neg_nonneg.2 (hneg ha1), R.value_neg hl⟩

/-- Taking off a cost that is no larger leaves a cost that is no larger. -/
theorem exists_value_sub {a b : ℝ} (ha : R.value x = some (a : EReal))
    (hb : R.value y = some (b : EReal)) (hb0 : 0 ≤ b) (h : ¬ x < y) :
    ∃ d : ℝ, 0 ≤ d ∧ d ≤ a ∧ R.value (x - y) = some (d : EReal) := by
  rw [R.lt_iff_of_value ha hb, not_lt, EReal.coe_le_coe_iff] at h
  have hlow : ((0 : ℝ) : EReal) ≤ R.round (a - b) :=
    R.round_zero.symm.trans_le (R.monotone_round (sub_nonneg.2 h))
  have hhigh : R.round (a - b) ≤ a :=
    (R.monotone_round (sub_le_self a hb0)).trans_eq (R.round_value ha)
  obtain ⟨d, hd, hd0, hda⟩ := exists_coe_of_bounds hlow hhigh
  exact ⟨d, hd0, hda, hd ▸ R.value_sub ha hb⟩

theorem IsCost.sub (hx : R.IsCost x) (hy : R.IsCost y) (h : ¬ x < y) : R.IsCost (x - y) := by
  obtain ⟨a, -, ha⟩ := hx
  obtain ⟨b, hb0, hb⟩ := hy
  obtain ⟨d, hd0, -, hd⟩ := R.exists_value_sub ha hb hb0 h
  exact ⟨d, hd0, hd⟩

/-- A number divided by a count is rounded once, or is zero when the count is too large. -/
theorem value_div_natCast {a : ℝ} (ha : R.value x = some (a : EReal)) {n : ℕ} (hn : n ≠ 0) :
    (R.round n = ⊤ ∧ R.value (x / (n : K)) = some 0) ∨
      ∃ b : ℝ, 1 ≤ b ∧ R.round n = b ∧ R.value (x / (n : K)) = some (R.round (a / b)) := by
  have hcount := R.value_natCast n
  have hone : (1 : ℝ) ≤ n := by exact_mod_cast Nat.one_le_iff_ne_zero.2 hn
  have hge : 1 ≤ R.round n := R.round_one.symm.trans_le (R.monotone_round hone)
  generalize R.round n = b at hcount hge ⊢
  induction b with
  | bot => exact absurd hge (not_le.2 (EReal.bot_lt_coe 1))
  | top => exact .inl ⟨rfl, R.value_div_top ha hcount⟩
  | coe b =>
    have hb : 1 ≤ b := by exact_mod_cast hge
    exact .inr ⟨b, hb, rfl, R.value_div ha hcount (by positivity)⟩

/-- A cost shared among some items is a cost. -/
theorem IsCost.div (hx : R.IsCost x) {n : ℕ} (hn : n ≠ 0) : R.IsCost (x / (n : K)) := by
  obtain ⟨a, ha0, ha⟩ := hx
  obtain ⟨-, h⟩ | ⟨b, hb, -, h⟩ := R.value_div_natCast ha hn
  · exact ⟨0, le_rfl, h⟩
  · have hlow : ((0 : ℝ) : EReal) ≤ R.round (a / b) :=
      R.round_zero.symm.trans_le (R.monotone_round (by positivity))
    have hhigh : R.round (a / b) ≤ a :=
      (R.monotone_round (div_le_self ha0 hb)).trans_eq (R.round_value ha)
    obtain ⟨d, hd, hd0, -⟩ := exists_coe_of_bounds hlow hhigh
    exact ⟨d, hd0, hd ▸ h⟩

/-- A cost shared among some items is a number below infinity. -/
theorem bounded_div (hx : R.IsCost x) {n : ℕ} (hn : n ≠ 0) :
    Arithmetic.bounded (x / (n : K)) = true :=
  R.bounded_of_isFinite (IsCost.isFinite R (hx.div R hn))

end Costs

end Rounding

end NoisyCover
