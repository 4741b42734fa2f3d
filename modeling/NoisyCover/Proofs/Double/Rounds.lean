import Mathlib
import NoisyCover.Proofs.Double.Parts
import NoisyCover.Proofs.Rounding

/-!
# Doubles round

Doubles are an arithmetic that rounds (`doubleRounding`).  Nothing is known of the machine's
logarithm, so all that is asked of it is that it is off by at most one, is never of the wrong sign,
and that the logarithm of infinity is infinite (`IsLogarithm`).  Rounding the true logarithm to the
nearest double is one that meets this (`nearestLog_isLogarithm`).
-/

namespace NoisyCover.Double

open Float.Model Float.Model.UnpackedFloat

section Nearest

variable {q : ℝ}

/-- A number cut off at the point, with how it was cut off. -/
theorem exists_approximates (h : 0 ≤ q) : ∃ m a, Approximates m q a := by
  have hle := Nat.floor_le h
  have hlt := Nat.lt_floor_add_one q
  rcases hle.eq_or_lt with heq | hle
  · exact ⟨⌊q⌋₊, .exact, heq.symm⟩
  rcases lt_trichotomy q (⌊q⌋₊ + 1 / 2) with hhalf | hhalf | hhalf
  · exact ⟨⌊q⌋₊, .inexact .lt, hle, hhalf⟩
  · exact ⟨⌊q⌋₊, .inexact .eq, hhalf⟩
  · exact ⟨⌊q⌋₊, .inexact .gt, hhalf, hlt⟩

theorem exists_value_eq (x : ℝ) : ∃ y : Float, value y = some (roundDouble x) := by
  have hround : ∀ (s : Sign) {r : ℝ}, 0 < r →
      ∃ y : Float, value y = some (roundDouble (signed s r)) := by
    intro s r hr
    have hq : 0 < r / 2 ^ lastPlace r := by positivity
    have hvalue : r / 2 ^ lastPlace r * 2 ^ lastPlace r = r := div_mul_cancel₀ _ (by positivity)
    obtain ⟨m, a, happrox⟩ := exists_approximates hq.le
    refine ⟨⟨pack (roundWithAccuracy Format.binary64 s m (lastPlace r) a)⟩, ?_⟩
    have hle : lastPlace r ≤ lastPlace (r / 2 ^ lastPlace r * 2 ^ lastPlace r) := by rw [hvalue]
    have hspec := valueOf_roundWithAccuracy s happrox hq hle
    rwa [hvalue] at hspec
  rcases lt_trichotomy x 0 with hx | rfl | hx
  · obtain ⟨y, hy⟩ := hround .negative (neg_pos.2 hx)
    rw [signed, neg_neg] at hy
    exact ⟨y, hy⟩
  · refine ⟨Float.ofNat 0, (value_ofNat 0).trans ?_⟩
    rw [Nat.cast_zero]
  · exact hround .positive hx

/-- The double nearest to a real number. -/
noncomputable def nearest (x : ℝ) : Float := (exists_value_eq x).choose

theorem value_nearest (x : ℝ) : value (nearest x) = some (roundDouble x) :=
  (exists_value_eq x).choose_spec

end Nearest

section Values

variable {x y : Float} {a b : ℝ}

theorem isDouble_of_value (h : value x = some (a : EReal)) :
    IsDouble a ∧ |a| < 2 ^ (1024 : ℤ) :=
  isDouble_of_valueOf (isCanonical_unpack _) h

theorem roundDouble_of_value (h : value x = some (a : EReal)) : roundDouble a = a :=
  roundDouble_of_valueOf (isCanonical_unpack _) h

theorem lt_iff_value : x < y ↔ ∃ a b, value x = some a ∧ value y = some b ∧ a < b := by
  have hlt : x < y ↔ x.toModel.unpack.lt y.toModel.unpack = true := decide_eq_true_iff
  exact hlt.trans (lt_eq_true_iff (isCanonical_unpack _) (isCanonical_unpack _))

theorem le_iff_value : x ≤ y ↔ ∃ a b, value x = some a ∧ value y = some b ∧ a ≤ b := by
  have hle : x ≤ y ↔ x.toModel.unpack.le y.toModel.unpack = true := decide_eq_true_iff
  exact hle.trans (le_eq_true_iff (isCanonical_unpack _) (isCanonical_unpack _))

theorem value_infinity : value (Binary64.infinity false) = some ⊤ := by
  have hunpack : (Binary64.infinity false).toModel.unpack = .infinity .positive := rfl
  rw [value, hunpack]
  rfl

theorem value_ofInt_zero : value (Binary64.ofInt 0) = some 0 := by
  have hunpack : (Binary64.ofInt 0).toModel.unpack = .zero .positive := rfl
  rw [value, hunpack]
  rfl

theorem value_ofInt_one : value (Binary64.ofInt 1) = some 1 := by
  have hunpack : (Binary64.ofInt 1).toModel.unpack =
      .finite .positive (2 ^ 52) (-52) (by norm_num) := rfl
  rw [value_of_unpack_eq hunpack]
  norm_num

theorem value_neg {a : EReal} (h : value x = some a) : value (-x) = some (-a) := by
  show valueOf (pack x.toModel.unpack.neg).unpack = _
  rw [unpack_pack_of_canonical (isCanonical_neg (isCanonical_unpack _))]
  exact valueOf_neg h

theorem value_add (ha : value x = some (a : EReal)) (hb : value y = some (b : EReal)) :
    value (x + y) = some (roundDouble (a + b)) :=
  valueOf_add (isCanonical_unpack _) (isCanonical_unpack _) ha hb

theorem value_sub_eq (x y : Float) : value (x - y) = value (x + -y) := by
  show valueOf (pack (UnpackedFloat.sub Format.binary64 x.toModel.unpack y.toModel.unpack)).unpack =
    valueOf (pack (UnpackedFloat.add Format.binary64 x.toModel.unpack
      (pack y.toModel.unpack.neg).unpack)).unpack
  rw [sub_eq_add, unpack_pack_of_canonical (isCanonical_neg (isCanonical_unpack _))]

theorem roundDouble_sub_pos (ha : value x = some (a : EReal)) (hb : value y = some (b : EReal))
    (h : a < b) : 0 < roundDouble (b - a) := by
  have hstep := (isDouble_of_value ha).1.le_sub (isDouble_of_value hb).1 h
  have hleast : IsDouble (2 ^ (-1074 : ℤ)) := ⟨1, -1074, by norm_num, le_rfl, by norm_num⟩
  have hlt : |(2 : ℝ) ^ (-1074 : ℤ)| < 2 ^ (1024 : ℤ) := by
    rw [abs_of_pos (by positivity)]
    exact zpow_lt_zpow_right₀ one_lt_two (by norm_num)
  calc (0 : EReal) < ((2 ^ (-1074 : ℤ) : ℝ) : EReal) := EReal.coe_pos.2 (by positivity)
    _ = roundDouble (2 ^ (-1074 : ℤ)) := (roundDouble_eq hleast hlt).symm
    _ ≤ _ := roundDouble_mono hstep

theorem value_sub_infinity (ha : value x = some (a : EReal)) (hb : value y = some ⊤) :
    value (x - y) = some ⊥ := by
  have hbot := valueOf_unpack_pack_infinity .negative
  show valueOf (pack (UnpackedFloat.sub Format.binary64 x.toModel.unpack
    y.toModel.unpack)).unpack = _
  rw [eq_of_valueOf_eq_top hb]
  obtain ⟨s, hx, -⟩ | ⟨s, m, e, hm, hx, -⟩ := eq_of_valueOf_eq_coe ha
  · rw [hx]
    exact hbot
  · rw [hx]
    exact hbot

theorem value_div_infinity (ha : value x = some (a : EReal)) (hb : value y = some ⊤) :
    value (x / y) = some 0 := by
  show valueOf (pack (UnpackedFloat.div Format.binary64 x.toModel.unpack
    y.toModel.unpack)).unpack = _
  rw [eq_of_valueOf_eq_top hb]
  obtain ⟨s, hx, -⟩ | ⟨s, m, e, hm, hx, -⟩ := eq_of_valueOf_eq_coe ha
  · rw [hx]
    exact valueOf_unpack_pack_zero _
  · rw [hx]
    exact valueOf_unpack_pack_zero _

end Values

/-- A logarithm that is good enough: off by at most one, never of the wrong sign, infinite at
infinity. -/
structure IsLogarithm (log : Float → Float) : Prop where
  finite : ∀ {x : Float} {a : ℝ}, value x = some (a : EReal) → 0 < a →
    ∃ l : ℝ, value (log x) = some (l : EReal) ∧ |l - Real.log a| ≤ 1 ∧ (a ≤ 1 → l ≤ 0) ∧
      (1 ≤ a → 0 ≤ l)
  infinite : ∀ {x : Float}, value x = some ⊤ → value (log x) = some ⊤

section Logarithm

/-- The double nearest to the logarithm of a number. -/
noncomputable def nearestLog (x : Float) : Float :=
  if Binary64.infinity false ≤ x then x else nearest (Real.log ((value x).getD 0).toReal)

theorem abs_log_le {a : ℝ} (h : IsDouble a) (hpos : 0 < a) (hlt : a < 2 ^ (1024 : ℤ)) :
    |Real.log a| ≤ 1074 := by
  have htwo : Real.log 2 ≤ 1 := by
    have := Real.log_two_lt_d9
    linarith
  have hlow : Real.log (2 ^ (-1074 : ℤ)) ≤ Real.log a :=
    Real.log_le_log (by positivity) (h.least_le hpos)
  have hhigh : Real.log a ≤ Real.log (2 ^ (1024 : ℤ)) := Real.log_le_log hpos hlt.le
  rw [Real.log_zpow] at hlow hhigh
  push_cast at hlow hhigh
  rw [abs_le]
  constructor <;> linarith

theorem nearestLog_isLogarithm : IsLogarithm nearestLog where
  finite := by
    intro x a hx hpos
    obtain ⟨hdouble, hlt⟩ := isDouble_of_value hx
    obtain ⟨l, hl, hnear⟩ := exists_roundDouble_eq
      ((abs_log_le hdouble hpos (abs_lt.1 hlt).2).trans (by norm_num : (1074 : ℝ) ≤ 2 ^ 52))
    have hvalue : value (nearestLog x) = some (l : EReal) := by
      have hfinite : ¬ Binary64.infinity false ≤ x := by
        rw [le_iff_value, value_infinity, hx]
        simp
      rw [nearestLog, if_neg hfinite, value_nearest, hx, Option.getD_some,
        EReal.toReal_coe, hl]
    have hmono := roundDouble_mono
    refine ⟨l, hvalue, hnear, fun ha => ?_, fun ha => ?_⟩
    · have := hmono (Real.log_nonpos hpos.le ha)
      rw [hl, roundDouble_zero] at this
      exact_mod_cast this
    · have := hmono (Real.log_nonneg ha)
      rw [hl, roundDouble_zero] at this
      exact_mod_cast this
  infinite := by
    intro x hx
    have hinfinite : Binary64.infinity false ≤ x := by
      rw [le_iff_value, value_infinity, hx]
      simp
    rw [nearestLog, if_pos hinfinite, hx]

end Logarithm

/-- An arithmetic that rounds to the nearest double. -/
structure RoundsToDoubles (K : Type u) [Arithmetic K] extends Rounding K where
  round_eq : ∀ a, round a = roundDouble a
  isDouble : ∀ {x : K} {a : ℝ}, value x = some (a : EReal) → IsDouble a ∧ |a| < 2 ^ (1024 : ℤ)
  value_intCast_zero : value ((0 : ℤ) : K) = some 0
  value_intCast_one : value ((1 : ℤ) : K) = some 1
  nearestInt_eq : ∀ {x : K} {a : ℝ}, value x = some (a : EReal) →
    Arithmetic.nearestInt x = .ok (nearestEven a)
  log_near : ∀ {x : K} {a l : ℝ}, value x = some (a : EReal) → 0 < a →
    value (Arithmetic.log x) = some (l : EReal) → |l - Real.log a| ≤ 1

noncomputable def doubleRounding {log : Float → Float} (h : IsLogarithm log) :
    @RoundsToDoubles Float (Arithmetic.doublesWith log) :=
  letI := Arithmetic.doublesWith log
  { value := value
    round := roundDouble
    monotone_round := roundDouble_mono
    round_value := roundDouble_of_value
    round_sub_pos := roundDouble_sub_pos
    lt_iff := lt_iff_value
    le_iff := le_iff_value
    bounded_iff := by
      intro x
      refine (decide_eq_true_iff.trans lt_iff_value).trans ?_
      rw [value_infinity]
      simp
    value_zero := by
      refine (value_ofNat 0).trans ?_
      rw [Nat.cast_zero, roundDouble_zero]
    value_one := by
      refine (value_ofNat 1).trans ?_
      rw [roundDouble_natCast (by norm_num), Nat.cast_one, EReal.coe_one]
    value_natCast := value_ofNat
    value_neg := value_neg
    value_add := value_add
    value_add_top := fun ha hne hb => (valueOf_add_top ha hne hb).1
    value_top_add := fun ha hb hne => (valueOf_add_top hb hne ha).2
    value_sub := by
      intro x y a b ha hb
      have hneg := value_neg hb
      rw [← EReal.coe_neg] at hneg
      rw [sub_eq_add_neg]
      exact (value_sub_eq x y).trans (value_add ha hneg)
    value_sub_top := value_sub_infinity
    value_div := valueOf_div
    value_div_top := value_div_infinity
    value_log := by
      intro x a hx ha
      obtain ⟨l, hl, -, hneg, hpos⟩ := h.finite hx ha
      exact ⟨l, hl, hneg, hpos⟩
    value_log_top := h.infinite
    round_eq := fun _ => rfl
    isDouble := isDouble_of_value
    value_intCast_zero := value_ofInt_zero
    value_intCast_one := value_ofInt_one
    nearestInt_eq := nearestIntOfFloat_eq
    log_near := by
      intro x a l hx ha hl
      obtain ⟨l', hl', hnear, -⟩ := h.finite hx ha
      obtain rfl := EReal.coe_injective (Option.some.inj (hl'.symm.trans hl))
      exact hnear }

end NoisyCover.Double
