import Mathlib
import NoisyCover.Arithmetic.Double
import NoisyCover.Proofs.Double.Operations

/-!
# The parts of a double

`Binary64.ofFloat` reads the sign, the mantissa and the exponent off the bits, as unpacking does
(`ofFloat_eq`).  Hence the integer that is computed from them is the nearest one
(`nearestIntOfFloat_eq`).
-/

namespace NoisyCover.Double

open Float.Model Float.Model.UnpackedFloat

def isNegative : Sign → Bool
  | .negative => true
  | .positive => false

/-- The parts of an unpacked double. -/
def partsOf : UnpackedFloat → Binary64
  | .notANumber => .nan
  | .infinity s => .infinite (isNegative s)
  | .zero s => .finite (isNegative s) 0 Binary64.leastExponent
  | .finite s m e _ => .finite (isNegative s) m e

section Bits

variable (b : BitVec 64)

theorem toNat_unpackMantissa :
    (@unpackMantissa Format.binary64 b).toNat = b.toNat % 2 ^ 52 := by
  have hbits : (@unpackMantissa Format.binary64 b).toNat = (b.extractLsb' 0 52).toNat := rfl
  rw [hbits, BitVec.extractLsb'_toNat, Nat.shiftRight_zero]

theorem toNat_unpackExponent :
    (@unpackExponent Format.binary64 b).toNat = b.toNat / 2 ^ 52 % 2048 := by
  have hbits : (@unpackExponent Format.binary64 b).toNat = (b.extractLsb' 52 11).toNat := rfl
  rw [hbits, BitVec.extractLsb'_toNat, Nat.shiftRight_eq_div_pow]

theorem isNegative_unpackSign :
    isNegative (Sign.ofBitVec (@unpackSign Format.binary64 b)) = decide (2 ^ 63 ≤ b.toNat) := by
  have hbits : (@unpackSign Format.binary64 b).toNat = (b.extractLsb' 63 1).toNat := rfl
  have hlt := b.isLt
  have hs : ∀ s : BitVec 1, isNegative (Sign.ofBitVec s) = decide (s.toNat = 1) := by decide
  rw [hs, hbits, BitVec.extractLsb'_toNat, Nat.shiftRight_eq_div_pow, decide_eq_decide]
  omega

end Bits

/-- Reading the parts of a double off its bits is unpacking it. -/
theorem ofFloat_eq (x : Float) : Binary64.ofFloat x = partsOf x.toModel.unpack := by
  have hfull := toNat_one_append (@unpackMantissa Format.binary64 x.toModel.toBits.toBitVec)
  have hparts : Binary64.ofFloat x =
      let negative := isNegative (Sign.ofBitVec
        (@unpackSign Format.binary64 x.toModel.toBits.toBitVec))
      let field := (@unpackExponent Format.binary64 x.toModel.toBits.toBitVec).toNat
      let fraction := (@unpackMantissa Format.binary64 x.toModel.toBits.toBitVec).toNat
      if field = 2047 then
        if fraction = 0 then .infinite negative else .nan
      else if field = 0 then .finite negative fraction Binary64.leastExponent
      else .finite negative (Binary64.leastMantissa + fraction) ((field : ℤ) - 1075) := by
    rw [isNegative_unpackSign, toNat_unpackExponent, toNat_unpackMantissa]
    rfl
  have htop : (@unpackExponent Format.binary64 x.toModel.toBits.toBitVec).toNat = 2047 ↔
      @unpackExponent Format.binary64 x.toModel.toBits.toBitVec = -1#11 :=
    BitVec.toNat_inj (y := -1#11)
  have hleast : (@unpackExponent Format.binary64 x.toModel.toBits.toBitVec).toNat = 0 ↔
      @unpackExponent Format.binary64 x.toModel.toBits.toBitVec = 0#11 :=
    BitVec.toNat_inj (y := 0#11)
  have hzero : (@unpackMantissa Format.binary64 x.toModel.toBits.toBitVec).toNat = 0 ↔
      @unpackMantissa Format.binary64 x.toModel.toBits.toBitVec = 0#52 :=
    BitVec.toNat_inj (y := 0#52)
  rw [hparts]
  unfold Float.Model.unpack UnpackedFloat.unpack
  simp only [htop, hleast, hzero]
  split_ifs with h1 h2 h3 h4
  · rfl
  · rfl
  · rw [h4]
    rfl
  · rw [h3]
    rfl
  · refine congrArg₂ (Binary64.finite _) hfull.symm ?_
    rfl

section NearestInt

theorem roundDiv_eq {den : ℕ} (hden : 0 < den) (num : ℕ) :
    (roundDiv num den : ℤ) = nearestEven ((num : ℝ) / den) := by
  have hlt := mod_div_lt_one hden num
  unfold roundDiv
  rw [natCast_div_eq hden, ← Int.cast_natCast (num / den)]
  generalize num / den = q at *
  generalize num % den = r at *
  have hnonneg : 0 ≤ (r : ℝ) / den := by positivity
  have hbelow := div_lt_half_iff (m := r) hden
  have habove := half_lt_div_iff (m := r) hden
  rcases lt_trichotomy (2 * r) den with h | h | h
  · rw [if_pos h, nearestEven_of_lt_half (le_add_of_nonneg_right hnonneg)]
    have := hbelow.2 h
    linarith
  · have hhalf : (r : ℝ) / den = 1 / 2 :=
      le_antisymm (not_lt.1 (by rw [habove]; omega)) (not_lt.1 (by rw [hbelow]; omega))
    rw [if_neg (by omega), if_neg (by omega), hhalf, nearestEven_half rfl]
    rfl
  · have := habove.2 h
    rw [if_neg (by omega), if_pos h, nearestEven_of_half_lt (n := q) (by linarith) (by linarith)]
    rfl

theorem ratio_div (m : ℕ) (e : ℤ) :
    ((Binary64.ratio m e).1 : ℝ) / (Binary64.ratio m e).2 = m * 2 ^ e := by
  show ((m * 2 ^ e.toNat : ℕ) : ℝ) / ((2 ^ (-e).toNat : ℕ) : ℝ) = _
  push_cast
  rw [mul_div_assoc, ← zpow_natCast, ← zpow_natCast, ← zpow_sub₀ two_ne_zero]
  congr 2
  omega

/-- The integer that a double is rounded to is the one nearest to what it stands for. -/
theorem nearestIntOfFloat_eq {x : Float} {a : ℝ} (h : value x = some (a : EReal)) :
    Arithmetic.nearestIntOfFloat x = .ok (nearestEven a) := by
  have hround : ∀ m e, (roundDiv (Binary64.ratio m e).1 (Binary64.ratio m e).2 : ℤ) =
      nearestEven (m * 2 ^ e) := by
    intro m e
    have hden : 0 < (Binary64.ratio m e).2 := Nat.pow_pos two_pos
    rw [roundDiv_eq hden, ratio_div]
  have hsigned : ∀ s m e, (if isNegative s = true then
      -(roundDiv (Binary64.ratio m e).1 (Binary64.ratio m e).2 : ℤ)
      else roundDiv (Binary64.ratio m e).1 (Binary64.ratio m e).2) =
        nearestEven (signed s (m * 2 ^ e)) := by
    intro s m e
    rw [hround]
    cases s
    · exact (nearestEven_neg _).symm
    · rfl
  rw [Arithmetic.nearestIntOfFloat, ofFloat_eq]
  obtain ⟨s, hu, rfl⟩ | ⟨s, m, e, hm, hu, rfl⟩ := eq_of_valueOf_eq_coe h
  · rw [hu]
    refine (congrArg Except.ok (hsigned s 0 Binary64.leastExponent)).trans ?_
    rw [Nat.cast_zero, zero_mul, signed_zero]
  · rw [hu]
    exact congrArg Except.ok (hsigned s m e)

end NearestInt

end NoisyCover.Double
