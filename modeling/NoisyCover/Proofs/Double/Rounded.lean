import Mathlib
import NoisyCover.Proofs.Double.Values

/-!
# Results are rounded to the nearest double

An operation finds the mantissa of the exact result at some exponent, cut off to an integer, and
says where between this integer and the next the exact mantissa lies (`Approximates`).  Shifting
the mantissa to the right keeps track of that (`Represents.shiftRight`), so shifting it to the last
place of the exact result and rounding it there gives the nearest double (`roundWithAccuracy_spec`).
-/

namespace NoisyCover.Double

open Float.Model Float.Model.UnpackedFloat

/-- A mantissa, and where above it a number lies. -/
def Approximates (m : ℕ) (q : ℝ) : Accuracy → Prop
  | .exact => q = m
  | .inexact .lt => m < q ∧ q < m + 1 / (2 : ℕ)
  | .inexact .eq => q = m + 1 / (2 : ℕ)
  | .inexact .gt => m + 1 / (2 : ℕ) < q ∧ q < m + 1

def Represents (em : ExtendedMantissa) (q : ℝ) : Prop := Approximates em.mantissa q em.accuracy

section Mantissa

variable {m n : ℕ} {q : ℝ} {a : Accuracy} {em : ExtendedMantissa}

theorem Approximates.bounds (h : Approximates m q a) : m ≤ q ∧ q < m + 1 := by
  rcases a with _ | (_ | _ | _) <;> simp only [Approximates] at h <;> constructor <;> linarith

theorem Approximates.roundToNearestEven_eq (h : Approximates m q a) :
    (a.roundToNearestEven m : ℤ) = nearestEven q := by
  rcases a with _ | (_ | _ | _) <;> simp only [Approximates] at h
  · rw [h]
    exact (nearestEven_intCast m).symm
  · exact (nearestEven_of_lt_half (by exact_mod_cast h.1.le) (by exact_mod_cast h.2)).symm
  · rw [nearestEven_half (by exact_mod_cast h)]
    rfl
  · exact (nearestEven_of_half_lt (by exact_mod_cast h.1) (by exact_mod_cast h.2)).symm

theorem represents_ofMantissaAndAccuracy (h : Approximates m q a) :
    Represents (ExtendedMantissa.ofMantissaAndAccuracy m a) q := by
  rcases a with _ | (_ | _ | _) <;> exact h

/-- The digit shifted out says on which side of the middle the rest lies. -/
theorem Represents.shiftRightOne (h : Represents em q) : Represents em.shiftRightOne (q / 2) := by
  obtain ⟨m, r, t⟩ := em
  obtain ⟨k, rfl | rfl⟩ : ∃ k, m = 2 * k ∨ m = 2 * k + 1 := ⟨m / 2, by omega⟩
  · have hdiv : 2 * k / 2 = k := by omega
    have hmod : 2 * k % 2 = 0 := by omega
    cases r <;> cases t <;>
      simp only [Represents, Approximates, ExtendedMantissa.shiftRightOne,
        ExtendedMantissa.accuracy, hdiv, hmod, bne_self_eq_false, Bool.or_false, Bool.or_true,
        Nat.cast_mul, Nat.cast_ofNat] at h ⊢
    · linarith
    all_goals constructor <;> linarith
  · have hdiv : (2 * k + 1) / 2 = k := by omega
    have hmod : (2 * k + 1) % 2 = 1 := by omega
    cases r <;> cases t <;>
      simp only [Represents, Approximates, ExtendedMantissa.shiftRightOne,
        ExtendedMantissa.accuracy, hdiv, hmod, Nat.reduceBNe, Bool.or_false, Bool.or_true,
        Nat.cast_add, Nat.cast_mul, Nat.cast_ofNat, Nat.cast_one] at h ⊢
    · linarith
    all_goals constructor <;> linarith

theorem Represents.shiftRight (h : Represents em q) :
    ∀ k : ℕ, Represents (em >>> k) (q / 2 ^ k)
  | 0 => by
    rw [pow_zero, div_one]
    exact h
  | k + 1 => by
    rw [pow_succ, ← div_div]
    exact (h.shiftRight k).shiftRightOne

theorem Represents.mantissa_eq {em : ExtendedMantissa} (h : Represents em n) :
    em.mantissa = n := by
  obtain ⟨hle, hlt⟩ := Approximates.bounds h
  have hle' : em.mantissa ≤ n := by exact_mod_cast hle
  have hlt' : n < em.mantissa + 1 := by exact_mod_cast hlt
  omega

end Mantissa

section Target

variable {m : ℕ} {e : ℤ} {q : ℝ}

theorem targetExponent_eq (m : ℕ) (e : ℤ) :
    Format.binary64.targetExponent (totalExponent m e) = max (m.log2 + e - 52) (-1074) := by
  show max ((m.log2 : ℤ) + 1 + e - 53) (-1074) = _
  omega

theorem log_mul_zpow (hm : 0 < m) (hle : m ≤ q) (hlt : q < m + 1) (e : ℤ) :
    Int.log 2 (q * 2 ^ e) = m.log2 + e := by
  have hpos : (0 : ℝ) < q := (Nat.cast_pos.2 hm).trans_le hle
  have hlow : (2 : ℝ) ^ m.log2 ≤ m := by exact_mod_cast Nat.log2_self_le hm.ne'
  have hhigh : (m : ℝ) + 1 ≤ 2 ^ (m.log2 + 1) := by exact_mod_cast Nat.lt_log2_self
  refine le_antisymm (Int.lt_add_one_iff.1 ?_) ?_
  · rw [← Int.lt_zpow_iff_log_lt one_lt_two (by positivity), Nat.cast_ofNat, add_right_comm,
      zpow_add₀ two_ne_zero]
    gcongr
    exact_mod_cast hlt.trans_le hhigh
  · rw [← Int.zpow_le_iff_le_log one_lt_two (by positivity), Nat.cast_ofNat,
      zpow_add₀ two_ne_zero, zpow_natCast]
    gcongr
    exact hlow.trans hle

/-- The exponent at which a mantissa is rounded is the last place of the number it is cut from. -/
theorem targetExponent_eq_lastPlace (hle : m ≤ q) (hlt : q < m + 1) (hq : 0 < q)
    (he : m = 0 → e ≤ lastPlace (q * 2 ^ e)) :
    Format.binary64.targetExponent (totalExponent m e) = lastPlace (q * 2 ^ e) := by
  have hpos : 0 < q * 2 ^ e := by positivity
  rw [targetExponent_eq]
  rcases Nat.eq_zero_or_pos m with rfl | hm
  · -- nothing is left of the mantissa, so both exponents are the least one
    have hlog : Int.log 2 (q * 2 ^ e) < e := by
      rw [← Int.lt_zpow_iff_log_lt one_lt_two hpos, Nat.cast_ofNat]
      rw [Nat.cast_zero, zero_add] at hlt
      exact mul_lt_of_lt_one_left (by positivity) hlt
    have he' := he rfl
    rw [lastPlace, abs_of_pos hpos] at he' ⊢
    have hzero : Nat.log2 0 = 0 := rfl
    omega
  · rw [lastPlace, abs_of_pos hpos, log_mul_zpow hm hle hlt]

end Target

section Rounding

variable {m : ℕ} {e t : ℤ} {q : ℝ} {a : Accuracy}

theorem shiftToExponent_spec (h : Approximates m q a) (he : e ≤ t) :
    ∃ em, shiftToExponent m e a t = (em, t) ∧ Represents em (q * 2 ^ e / 2 ^ t) := by
  refine ⟨ExtendedMantissa.ofMantissaAndAccuracy m a >>> (t - e).toNat, ?_, ?_⟩
  · rw [shiftToExponent]
    congr 1
    omega
  · have hshift := (represents_ofMantissaAndAccuracy h).shiftRight (t - e).toNat
    rwa [← zpow_natCast, Int.toNat_of_nonneg (sub_nonneg.2 he), zpow_sub₀ two_ne_zero, ← div_mul,
      div_mul_eq_mul_div] at hshift

/-- The mantissa that a number has at its last place, rounded. -/
theorem exists_rounded (h : Approximates m q a) (hq : 0 < q) (he : e ≤ lastPlace (q * 2 ^ e)) :
    ∃ em, shiftToTargetExponent Format.binary64 m e a = (em, lastPlace (q * 2 ^ e)) ∧
      (em.roundedMantissa : ℝ) * 2 ^ lastPlace (q * 2 ^ e) = nearestDouble (q * 2 ^ e) := by
  obtain ⟨hle, hlt⟩ := h.bounds
  obtain ⟨em, hem, hrep⟩ := shiftToExponent_spec h he
  refine ⟨em, ?_, ?_⟩
  · rw [shiftToTargetExponent, targetExponent_eq_lastPlace hle hlt hq fun _ => he]
    exact hem
  · have hround := Approximates.roundToNearestEven_eq hrep
    rw [nearestDouble, roundAt_eq, ← hround]
    rfl

theorem shiftToTargetExponent_of_lt (hm : m < 2 ^ 53) (ht : -1074 ≤ t) :
    shiftToTargetExponent Format.binary64 m t .exact = (⟨m, false, false⟩, t) := by
  have hlog : m.log2 < 53 := by
    rcases Nat.eq_zero_or_pos m with rfl | hpos
    · exact Nat.succ_pos 52
    · exact (Nat.log2_lt hpos.ne').2 hm
  have htarget := targetExponent_eq m t
  have hzero : (Format.binary64.targetExponent (totalExponent m t) - t).toNat = 0 := by omega
  rw [shiftToTargetExponent, shiftToExponent, hzero]
  exact congrArg _ (add_zero t)

/-- A rounded mantissa may have one digit too many, and is shifted once more. -/
theorem exists_reduced (hm : 0 < m) (hle : m ≤ 2 ^ 53) (ht : -1074 ≤ t)
    (hfull : 2 ^ 52 ≤ m ∨ t = -1074) :
    ∃ em f, shiftToTargetExponent Format.binary64 m t .exact = (em, f) ∧
      0 < em.mantissa ∧ IsReduced em.mantissa f ∧ (em.mantissa : ℝ) * 2 ^ f = m * 2 ^ t := by
  rcases hle.eq_or_lt with rfl | hlt
  · -- rounded up to the next power of two, so the digit shifted out is a zero
    have hlog : Nat.log2 (2 ^ 53) = 53 := rfl
    have htarget := targetExponent_eq (2 ^ 53) t
    obtain ⟨em, hem, hrep⟩ : ∃ em, shiftToExponent (2 ^ 53) t .exact (t + 1) = (em, t + 1) ∧
        Represents em (((2 ^ 53 : ℕ) : ℝ) * 2 ^ t / 2 ^ (t + 1)) :=
      shiftToExponent_spec rfl (by omega)
    have hhalf : ((2 ^ 53 : ℕ) : ℝ) * 2 ^ t / 2 ^ (t + 1) = ((2 ^ 52 : ℕ) : ℝ) := by
      rw [zpow_add₀ two_ne_zero, zpow_one]
      field_simp
      norm_num
    rw [hhalf] at hrep
    refine ⟨em, t + 1, ?_, ?_, ?_, ?_⟩
    · rw [shiftToTargetExponent, htarget, hlog]
      exact (congrArg _ (by omega)).trans hem
    all_goals rw [hrep.mantissa_eq]
    · norm_num
    · exact ⟨by norm_num, by omega, .inl le_rfl⟩
    · rw [zpow_add₀ two_ne_zero, zpow_one]
      push_cast
      ring
  · exact ⟨_, _, shiftToTargetExponent_of_lt hlt ht, hm, ⟨hlt, ht, hfull⟩, rfl⟩

theorem nearestDouble_bounds {x : ℝ} (hx : 0 < x) :
    nearestDouble x ≤ 2 ^ (lastPlace x + 53) ∧
      (-1074 < lastPlace x → 2 ^ (lastPlace x + 52) ≤ nearestDouble x) := by
  constructor
  · have hlt := lt_zpow_lastPlace x
    rw [abs_of_pos hx] at hlt
    exact (roundAt_mono _ hlt.le).trans_eq (roundAt_zpow (by omega))
  · intro hlast
    exact (roundAt_zpow (by omega)).symm.trans_le (roundAt_mono _ (zpow_lastPlace_le hx hlast))

/-- Rounding a cut-off result gives the double nearest to the exact one, in reduced form. -/
theorem roundWithAccuracy_spec (s : Sign) (h : Approximates m q a) (hq : 0 < q)
    (he : e ≤ lastPlace (q * 2 ^ e)) :
    (nearestDouble (q * 2 ^ e) = 0 ∧
        roundWithAccuracy Format.binary64 s m e a = .zero s) ∨
      ∃ (n : ℕ) (f : ℤ) (hn : 0 < n), IsReduced n f ∧
        (n : ℝ) * 2 ^ f = nearestDouble (q * 2 ^ e) ∧
        roundWithAccuracy Format.binary64 s m e a = .finite s n f hn := by
  obtain ⟨em, hem, hvalue⟩ := exists_rounded h hq he
  obtain ⟨hhigh, hlow⟩ := nearestDouble_bounds (by positivity : 0 < q * 2 ^ e)
  have hplace := le_lastPlace (q * 2 ^ e)
  have hround : roundWithAccuracy Format.binary64 s m e a =
      let shifted := shiftToTargetExponent Format.binary64 em.roundedMantissa
        (lastPlace (q * 2 ^ e)) .exact
      if h : shifted.1.mantissa = 0 then .zero s
      else .finite s shifted.1.mantissa shifted.2 (Nat.pos_of_ne_zero h) := by
    rw [roundWithAccuracy, hem]
  generalize lastPlace (q * 2 ^ e) = t at *
  rw [← hvalue, add_comm, zpow_add₀ two_ne_zero, mul_le_mul_iff_left₀ (by positivity)] at hhigh
  rw [← hvalue, add_comm, zpow_add₀ two_ne_zero, mul_le_mul_iff_left₀ (by positivity)] at hlow
  rcases Nat.eq_zero_or_pos em.roundedMantissa with hzero | hpos
  · refine .inl ⟨by rw [← hvalue, hzero, Nat.cast_zero, zero_mul], ?_⟩
    rw [hround, hzero, shiftToTargetExponent_of_lt (by norm_num) hplace]
    exact dif_pos rfl
  · have hle : em.roundedMantissa ≤ 2 ^ 53 := by exact_mod_cast hhigh
    have hfull : 2 ^ 52 ≤ em.roundedMantissa ∨ t = -1074 := by
      rcases hplace.eq_or_lt with heq | hlt
      · exact .inr heq.symm
      · exact .inl (by exact_mod_cast hlow hlt)
    obtain ⟨em', f, hem', hn, hreduced, heq⟩ := exists_reduced hpos hle hplace hfull
    refine .inr ⟨em'.mantissa, f, hn, hreduced, heq.trans hvalue, ?_⟩
    rw [hround, hem']
    exact dif_neg hn.ne'

theorem nearestDouble_signed (s : Sign) (x : ℝ) :
    nearestDouble (signed s x) = signed s (nearestDouble x) := by
  cases s
  · exact nearestDouble_neg x
  · rfl

/-- A cut-off result stands for the exact one, rounded. -/
theorem valueOf_roundWithAccuracy (s : Sign) (h : Approximates m q a) (hq : 0 < q)
    (he : e ≤ lastPlace (q * 2 ^ e)) :
    valueOf (pack (roundWithAccuracy Format.binary64 s m e a)).unpack =
      some (roundDouble (signed s (q * 2 ^ e))) := by
  rw [roundDouble, nearestDouble_signed]
  obtain ⟨hzero, heq⟩ | ⟨n, f, hn, hreduced, hvalue, heq⟩ := roundWithAccuracy_spec s h hq he
  · rw [heq, valueOf_unpack_pack_zero, hzero, signed_zero, inRange_eq (by simp), EReal.coe_zero]
  · rw [heq, valueOf_unpack_pack s hreduced hn, hvalue]

end Rounding

section Normalize

theorem decreaseExponent_eq (m : ℕ) (e t : ℤ) :
    decreaseExponent m e t = (m * 2 ^ (e - t).toNat, min e t) := by
  rw [decreaseExponent, Nat.shiftLeft_eq]
  congr 1
  omega

theorem mul_zpow_min (m : ℕ) (e t : ℤ) :
    ((m * 2 ^ (e - t).toNat : ℕ) : ℝ) * 2 ^ min e t = m * 2 ^ e := by
  have hexp : ((e - t).toNat : ℤ) + min e t = e := by omega
  rw [Nat.cast_mul, Nat.cast_pow, Nat.cast_ofNat, mul_assoc, ← zpow_natCast,
    ← zpow_add₀ two_ne_zero, hexp]

theorem valueOf_round (s : Sign) {m : ℕ} (hm : 0 < m) (e : ℤ) :
    valueOf (pack (UnpackedFloat.round Format.binary64 s m e)).unpack =
      some (roundDouble (signed s (m * 2 ^ e))) := by
  have hm' : (0 : ℝ) < m := Nat.cast_pos.2 hm
  have htarget : Format.binary64.targetExponent (totalExponent m e) =
      lastPlace ((m : ℝ) * 2 ^ e) :=
    targetExponent_eq_lastPlace le_rfl (lt_add_one _) hm' fun h0 => absurd h0 hm.ne'
  have hvalue := mul_zpow_min m e (lastPlace ((m : ℝ) * 2 ^ e))
  rw [UnpackedFloat.round, decreaseExponent_eq, htarget]
  generalize ht : lastPlace ((m : ℝ) * 2 ^ e) = t at hvalue
  have hexact : Approximates (m * 2 ^ (e - t).toNat) ((m * 2 ^ (e - t).toNat : ℕ) : ℝ) .exact := rfl
  have hplace : min e t ≤ lastPlace (((m * 2 ^ (e - t).toNat : ℕ) : ℝ) * 2 ^ min e t) := by
    rw [hvalue, ht]
    exact min_le_right e t
  have hround := valueOf_roundWithAccuracy s hexact (by positivity) hplace
  rwa [hvalue] at hround

theorem valueOf_normalize (m : ℤ) (e : ℤ) (s : Sign) :
    valueOf (pack (UnpackedFloat.normalize Format.binary64 m e s)).unpack =
      some (roundDouble (m * 2 ^ e)) := by
  unfold UnpackedFloat.normalize
  rcases lt_trichotomy m 0 with hm | rfl | hm
  · rw [compare_lt_iff_lt.2 hm]
    refine (valueOf_round .negative (by omega) e).trans ?_
    have habs : (((-m).toNat : ℕ) : ℝ) = -m := by
      exact_mod_cast Int.toNat_of_nonneg (by omega : 0 ≤ -m)
    rw [signed, habs, neg_mul, neg_neg]
  · rw [compare_eq_iff_eq.2 rfl]
    rw [Int.cast_zero, zero_mul, roundDouble_zero]
    exact valueOf_unpack_pack_zero s
  · rw [compare_gt_iff_gt.2 hm]
    refine (valueOf_round .positive (by omega) e).trans ?_
    have habs : ((m.toNat : ℕ) : ℝ) = m := by
      exact_mod_cast Int.toNat_of_nonneg hm.le
    rw [signed, habs]

end Normalize

end NoisyCover.Double
