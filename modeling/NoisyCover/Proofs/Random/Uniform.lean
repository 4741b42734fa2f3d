import Mathlib
import NoisyCover.Instance.Random
import NoisyCover.Proofs.Double.Rounds

/-!
# Uniform draws stay in their range

The product of two doubles that are not negative is the exact one, rounded (`value_mul`).  A random
number of the generator is a quotient of integers, from zero to one.  So a uniform draw lies between
the lower end of its range and what adding the whole span to it gives in doubles (`uniform_mem`).
For other ranges that may be more than the upper end; for the range of probabilities it is not.
-/

namespace NoisyCover

namespace Double

open Float.Model Float.Model.UnpackedFloat

section Products

variable {x y : Float} {a b : ℝ} {m n : ℕ} {e f : ℤ}

/-- The exponents of two doubles add up to at most the last place of their product. -/
theorem add_le_lastPlace (hm : IsReduced m e) (hn : IsReduced n f) (hm0 : 0 < m) (hn0 : 0 < n) :
    e + f ≤ lastPlace (m * 2 ^ e * (n * 2 ^ f)) := by
  have hvalue : (m : ℝ) * 2 ^ e * (n * 2 ^ f) = (m * n : ℕ) * 2 ^ (e + f) := by
    rw [zpow_add₀ two_ne_zero]
    push_cast
    ring
  have hfull : 2 ^ 52 ≤ m * n → e + f ≤ lastPlace (m * 2 ^ e * (n * 2 ^ f)) := by
    intro h
    have hpos : (0 : ℝ) < (m * n : ℕ) := by positivity
    have hlog : e + f + 52 ≤ Int.log 2 (((m * n : ℕ) : ℝ) * 2 ^ (e + f)) := by
      rw [← Int.zpow_le_iff_le_log one_lt_two (by positivity), Nat.cast_ofNat, add_comm,
        zpow_add₀ two_ne_zero]
      gcongr
      exact_mod_cast h
    rw [hvalue, lastPlace, abs_of_pos (by positivity)]
    omega
  -- a mantissa that is not full has the least exponent there is
  rcases hm.full_or_least with h | he
  · exact hfull (h.trans (Nat.le_mul_of_pos_right m hn0))
  rcases hn.full_or_least with h | hf
  · exact hfull (h.trans (Nat.le_mul_of_pos_left n hm0))
  · rw [lastPlace]
    omega

theorem positive_of_signed_nonneg {s : Sign} (hm : 0 < m) (h : 0 ≤ signed s (m * 2 ^ e)) :
    s = .positive := by
  cases s
  · have hpos : (0 : ℝ) < m * 2 ^ e := by positivity
    rw [signed] at h
    linarith
  · rfl

theorem value_mul (hx : value x = some (a : EReal)) (hy : value y = some (b : EReal))
    (ha : 0 ≤ a) (hb : 0 ≤ b) : value (x * y) = some (roundDouble (a * b)) := by
  have hcx := isCanonical_unpack x.toModel
  have hcy := isCanonical_unpack y.toModel
  show valueOf (pack (UnpackedFloat.mul Format.binary64 x.toModel.unpack
    y.toModel.unpack)).unpack = _
  obtain ⟨s, hu, rfl⟩ | ⟨s, m, e, hm, hu, rfl⟩ := eq_of_valueOf_eq_coe hx <;>
  obtain ⟨s', hv, rfl⟩ | ⟨s', n, f, hn, hv, rfl⟩ := eq_of_valueOf_eq_coe hy
  · rw [hu, hv, zero_mul, roundDouble_zero]
    exact valueOf_unpack_pack_zero _
  · rw [hu, hv, zero_mul, roundDouble_zero]
    exact valueOf_unpack_pack_zero _
  · rw [hu, hv, mul_zero, roundDouble_zero]
    exact valueOf_unpack_pack_zero _
  · obtain rfl := positive_of_signed_nonneg hm ha
    obtain rfl := positive_of_signed_nonneg hn hb
    rw [hu] at hcx ⊢
    rw [hv] at hcy ⊢
    exact valueOf_mul hm hn (add_le_lastPlace hcx.1 hcy.1 hm hn)

end Products

section Bounds

variable {x y z : Float}

theorem lt_of_lt_of_le (hxy : x < y) (hyz : y ≤ z) : x < z := by
  obtain ⟨a, b, ha, hb, hab⟩ := lt_iff_value.1 hxy
  obtain ⟨b', c, hb', hc, hbc⟩ := le_iff_value.1 hyz
  obtain rfl := Option.some.inj (hb.symm.trans hb')
  exact lt_iff_value.2 ⟨a, c, ha, hc, hab.trans_le hbc⟩

theorem lt_of_le_of_lt (hxy : x ≤ y) (hyz : y < z) : x < z := by
  obtain ⟨a, b, ha, hb, hab⟩ := le_iff_value.1 hxy
  obtain ⟨b', c, hb', hc, hbc⟩ := lt_iff_value.1 hyz
  obtain rfl := Option.some.inj (hb.symm.trans hb')
  exact lt_iff_value.2 ⟨a, c, ha, hc, hab.trans_lt hbc⟩

theorem roundDouble_between {a b c : ℝ} (ha : roundDouble a = a) (hb : roundDouble b = b)
    (hac : a ≤ c) (hcb : c ≤ b) : ∃ d : ℝ, roundDouble c = d ∧ a ≤ d ∧ d ≤ b :=
  exists_coe_of_bounds (ha.symm.trans_le (roundDouble_mono hac))
    ((roundDouble_mono hcb).trans_eq hb)

theorem roundDouble_one : roundDouble 1 = (1 : ℝ) := by
  have := roundDouble_natCast (n := 1) (by norm_num)
  rwa [Nat.cast_one] at this

theorem exists_value_of_le_one (h0 : 0 ≤ x) (h1 : x ≤ 1) :
    ∃ a : ℝ, value x = some (a : EReal) ∧ 0 ≤ a := by
  obtain ⟨z, v, hz, hv, h0⟩ := le_iff_value.1 h0
  obtain ⟨v', o, hv', ho, h1⟩ := le_iff_value.1 h1
  obtain rfl := Option.some.inj (hv.symm.trans hv')
  obtain rfl := Option.some.inj ((value_ofNat 0).symm.trans hz)
  obtain rfl := Option.some.inj ((value_ofNat 1).symm.trans ho)
  rw [roundDouble_natCast (by norm_num)] at h0 h1
  obtain ⟨a, rfl, ha, -⟩ := exists_coe_of_bounds h0 h1
  exact ⟨a, hv, by exact_mod_cast ha⟩

end Bounds

end Double

namespace Twister

open Double

theorem value_unit (t : Twister) :
    ∃ x : ℝ, value t.unit.1 = some (x : EReal) ∧ 0 ≤ x ∧ x ≤ 1 := by
  have hunit : t.unit.1 = Float.ofNat ((t.word.1 >>> 5).toNat * 67108864 +
      (t.word.2.word.1 >>> 6).toNat) / 9007199254740992.0 := rfl
  have hlt : (t.word.1 >>> 5).toNat * 67108864 + (t.word.2.word.1 >>> 6).toNat < 2 ^ 53 := by
    have hhigh := t.word.1.toNat_lt
    have hlow := t.word.2.word.1.toNat_lt
    rw [UInt32.toNat_shiftRight, UInt32.toNat_shiftRight, Nat.shiftRight_eq_div_pow,
      Nat.shiftRight_eq_div_pow]
    simp only [UInt32.reduceToNat, Nat.reduceMod, Nat.reducePow] at *
    omega
  rw [hunit]
  generalize (t.word.1 >>> 5).toNat * 67108864 + (t.word.2.word.1 >>> 6).toNat = n at hlt
  have hnum := value_ofNat n
  rw [roundDouble_natCast hlt] at hnum
  have hden : value 9007199254740992.0 = some ((2 ^ 53 : ℝ) : EReal) := by
    have hunpack : (9007199254740992.0 : Float).toModel.unpack =
        .finite .positive (2 ^ 52) 1 (by norm_num) := rfl
    rw [value_of_unpack_eq hunpack]
    norm_num
  have hle : (n : ℝ) / 2 ^ 53 ≤ 1 := (div_le_one (by positivity)).2 (by exact_mod_cast hlt.le)
  obtain ⟨x, hx, hx0, hx1⟩ :=
    roundDouble_between roundDouble_zero roundDouble_one (by positivity) hle
  exact ⟨x, hx ▸ valueOf_div hnum hden (by norm_num), hx0, hx1⟩

/-- A uniform draw keeps to its range if adding the whole span to the lower end does. -/
theorem uniform_mem {low high : Float} (hlow0 : 0 ≤ low) (hlow1 : low ≤ 1)
    (hspan0 : 0 ≤ high - low) (hspan1 : high - low ≤ 1) (hhigh : low + (high - low) ≤ high)
    (t : Twister) : low ≤ (uniform low high t).1 ∧ (uniform low high t).1 ≤ high := by
  obtain ⟨l, hl, hl0⟩ := exists_value_of_le_one hlow0 hlow1
  obtain ⟨d, hd, hd0⟩ := exists_value_of_le_one hspan0 hspan1
  obtain ⟨x, hx, hx0, hx1⟩ := t.value_unit
  obtain ⟨p, hp, hp0, hp1⟩ := roundDouble_between roundDouble_zero (roundDouble_of_value hd)
    (mul_nonneg hd0 hx0) (mul_le_of_le_one_right hd0 hx1)
  have hproduct : value ((high - low) * t.unit.1) = some (p : EReal) :=
    hp ▸ value_mul hd hx hd0 hx0
  have hdraw : value (uniform low high t).1 = some (roundDouble (l + p)) := value_add hl hproduct
  obtain ⟨s, h, hs, hh, hsh⟩ := le_iff_value.1 hhigh
  obtain rfl := Option.some.inj ((value_add hl hd).symm.trans hs)
  rw [le_iff_value, le_iff_value]
  refine ⟨⟨_, _, hl, hdraw, ?_⟩, _, _, hdraw, hh, ?_⟩
  · calc (l : EReal) = roundDouble l := (roundDouble_of_value hl).symm
      _ ≤ roundDouble (l + p) := roundDouble_mono (by linarith)
  · calc roundDouble (l + p) ≤ roundDouble (l + d) := roundDouble_mono (by linarith)
      _ ≤ h := hsh

end Twister

theorem Instance.uniform_mem_probabilities (t : Twister) :
    probabilities.low ≤ (Twister.uniform probabilities.low probabilities.high t).1 ∧
      (Twister.uniform probabilities.low probabilities.high t).1 ≤ probabilities.high :=
  t.uniform_mem (by decide) (by decide) (by decide) (by decide) (by decide)

end NoisyCover
