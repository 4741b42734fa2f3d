import Mathlib
import NoisyCover.Proofs.Double.Rounded

/-!
# Operations on doubles

The sum and the quotient of two doubles are the exact ones, rounded to the nearest double
(`valueOf_add`, `valueOf_div`), and a difference is the sum with the negated subtrahend
(`sub_eq_add`).  A natural number becomes the double nearest to it (`value_ofNat`).
-/

namespace NoisyCover.Double

open Float.Model Float.Model.UnpackedFloat

/-- What a double stands for; nothing if it is not a number. -/
noncomputable def value (x : Float) : Option EReal := valueOf x.toModel.unpack

theorem value_of_unpack_eq {x : Float} {m : ℕ} {e : ℤ} {hm : 0 < m}
    (h : x.toModel.unpack = .finite .positive m e hm) :
    value x = some ((m * 2 ^ e : ℝ) : EReal) := by
  rw [value, h]
  rfl

section Operands

variable {u v : UnpackedFloat} {a b : ℝ}

/-- A double that stands for a real number is zero or finite. -/
theorem eq_of_valueOf_eq_coe (h : valueOf u = some (a : EReal)) :
    (∃ s, u = .zero s ∧ a = 0) ∨
      ∃ s m e hm, u = .finite s m e hm ∧ a = signed s (m * 2 ^ e) := by
  rcases u with s | _ | s | ⟨s, m, e, hm⟩
  · cases s
    · exact absurd (Option.some.inj h) (EReal.bot_ne_coe a)
    · exact absurd (Option.some.inj h) (EReal.top_ne_coe a)
  · cases h
  · exact .inl ⟨s, rfl, (EReal.coe_injective (Option.some.inj h)).symm⟩
  · exact .inr ⟨s, m, e, hm, rfl, (EReal.coe_injective (Option.some.inj h)).symm⟩

theorem eq_of_valueOf_eq_top (h : valueOf u = some ⊤) : u = .infinity .positive := by
  rcases u with s | _ | s | ⟨s, m, e, hm⟩
  · cases s
    · exact absurd (Option.some.inj h) bot_ne_top
    · rfl
  · cases h
  · exact absurd (Option.some.inj h) EReal.zero_ne_top
  · exact absurd (Option.some.inj h) (EReal.coe_ne_top _)

theorem eq_of_valueOf_eq_bot (h : valueOf u = some ⊥) : u = .infinity .negative := by
  rcases u with s | _ | s | ⟨s, m, e, hm⟩
  · cases s
    · rfl
    · exact absurd (Option.some.inj h) top_ne_bot
  · cases h
  · exact absurd (Option.some.inj h) EReal.zero_ne_bot
  · exact absurd (Option.some.inj h) (EReal.coe_ne_bot _)

theorem isDouble_of_valueOf (hu : IsCanonical u) (h : valueOf u = some (a : EReal)) :
    IsDouble a ∧ |a| < 2 ^ (1024 : ℤ) := by
  obtain ⟨s, rfl, rfl⟩ | ⟨s, m, e, hm, rfl, rfl⟩ := eq_of_valueOf_eq_coe h
  · exact ⟨⟨0, 0, by norm_num, by norm_num, by norm_num⟩, by rw [abs_zero]; positivity⟩
  · refine ⟨hu.1.isDouble s, ?_⟩
    rw [abs_signed, abs_of_pos (by positivity)]
    have := hu.2
    exact hu.1.lt_zpow.trans_le (zpow_le_zpow_right₀ one_le_two (by omega))

theorem roundDouble_of_valueOf (hu : IsCanonical u) (h : valueOf u = some (a : EReal)) :
    roundDouble a = a := by
  obtain ⟨hdouble, hlt⟩ := isDouble_of_valueOf hu h
  exact roundDouble_eq hdouble hlt

end Operands

section Sums

variable {u v : UnpackedFloat} {a b : ℝ}

theorem apply_mul_zpow (s : Sign) (m : ℕ) (e t : ℤ) :
    ((s.apply ((m * 2 ^ (e - t).toNat : ℕ) : ℤ) : ℤ) : ℝ) * 2 ^ min e t = signed s (m * 2 ^ e) := by
  have hvalue := mul_zpow_min m e t
  cases s
  · rw [Sign.apply, signed, Int.cast_neg, Int.cast_natCast, neg_mul, hvalue]
  · rw [Sign.apply, signed, Int.cast_natCast, hvalue]

theorem valueOf_add (hu : IsCanonical u) (hv : IsCanonical v) (ha : valueOf u = some (a : EReal))
    (hb : valueOf v = some (b : EReal)) :
    valueOf (pack (UnpackedFloat.add Format.binary64 u v)).unpack =
      some (roundDouble (a + b)) := by
  have hra := roundDouble_of_valueOf hu ha
  have hrb := roundDouble_of_valueOf hv hb
  obtain ⟨s, rfl, rfl⟩ | ⟨s, m, e, hm, rfl, rfl⟩ := eq_of_valueOf_eq_coe ha <;>
  obtain ⟨s', rfl, rfl⟩ | ⟨s', n, f, hn, rfl, rfl⟩ := eq_of_valueOf_eq_coe hb
  · have hzero : ∃ s'', UnpackedFloat.add Format.binary64 (.zero s) (.zero s') = .zero s'' := by
      cases s <;> cases s' <;> exact ⟨_, rfl⟩
    obtain ⟨s'', hs⟩ := hzero
    rw [hs, valueOf_unpack_pack_zero, add_zero, hra]
    rfl
  · rw [zero_add, hrb, ← hb]
    exact congrArg valueOf (unpack_pack_of_canonical hv)
  · rw [add_zero, hra, ← ha]
    exact congrArg valueOf (unpack_pack_of_canonical hu)
  · have hsum : UnpackedFloat.add Format.binary64 (.finite s m e hm) (.finite s' n f hn) =
        UnpackedFloat.normalize Format.binary64 (s.apply ((m * 2 ^ (e - min e f).toNat : ℕ) : ℤ) +
          s'.apply ((n * 2 ^ (f - min e f).toNat : ℕ) : ℤ)) (min e f) .positive := by
      show UnpackedFloat.normalize _ (s.apply ((decreaseExponent m e (min e f)).1 : ℤ) +
        s'.apply ((decreaseExponent n f (min e f)).1 : ℤ)) _ _ = _
      rw [decreaseExponent_eq, decreaseExponent_eq]
    have hm' := apply_mul_zpow s m e (min e f)
    have hn' := apply_mul_zpow s' n f (min e f)
    rw [min_eq_right (min_le_left e f)] at hm'
    rw [min_eq_right (min_le_right e f)] at hn'
    rw [hsum, valueOf_normalize, Int.cast_add, add_mul, hm', hn']

theorem valueOf_add_top {a : EReal} (hu : valueOf u = some a) (ha : a ≠ ⊥)
    (hv : valueOf v = some ⊤) :
    valueOf (pack (UnpackedFloat.add Format.binary64 u v)).unpack = some ⊤ ∧
      valueOf (pack (UnpackedFloat.add Format.binary64 v u)).unpack = some ⊤ := by
  obtain rfl := eq_of_valueOf_eq_top hv
  have htop := valueOf_unpack_pack_infinity .positive
  rcases u with (_ | _) | _ | s | ⟨s, m, e, hm⟩
  · exact absurd (Option.some.inj hu).symm ha
  · exact ⟨htop, htop⟩
  · cases hu
  · exact ⟨htop, htop⟩
  · exact ⟨htop, htop⟩

theorem isCanonical_neg (hu : IsCanonical u) : IsCanonical u.neg := by
  cases u <;> exact hu

theorem valueOf_neg {a : EReal} (ha : valueOf u = some a) : valueOf u.neg = some (-a) := by
  rcases u with s | _ | s | ⟨s, m, e, hm⟩
  · obtain rfl := Option.some.inj ha
    cases s
    · exact congrArg some EReal.neg_bot.symm
    · exact congrArg some EReal.neg_top.symm
  · cases ha
  · obtain rfl := Option.some.inj ha
    exact congrArg some neg_zero.symm
  · obtain rfl := Option.some.inj ha
    rw [← EReal.coe_neg]
    cases s
    · exact congrArg (fun x : ℝ => some (x : EReal)) (neg_neg _).symm
    · rfl

theorem sub_eq_add (u v : UnpackedFloat) :
    UnpackedFloat.sub Format.binary64 u v = UnpackedFloat.add Format.binary64 u v.neg := by
  have happly : ∀ (s : Sign) (m : ℤ), (-s).apply m = -s.apply m := by
    intro s m
    cases s
    · exact (neg_neg m).symm
    · rfl
  rcases u with s | _ | s | ⟨s, m, e, hm⟩ <;> rcases v with s' | _ | s' | ⟨s', n, f, hn⟩
  case finite.finite =>
    simp only [UnpackedFloat.sub, UnpackedFloat.add, UnpackedFloat.neg, happly, ← sub_eq_add_neg]
  all_goals rfl

end Sums

section Quotients

variable {m n : ℕ} {e f : ℤ}

theorem natCast_div_eq (hn : 0 < n) (m : ℕ) :
    (m : ℝ) / n = (m / n : ℕ) + ((m % n : ℕ) : ℝ) / n := by
  have hn' : (0 : ℝ) < n := Nat.cast_pos.2 hn
  rw [div_eq_iff hn'.ne', add_mul, div_mul_cancel₀ _ hn'.ne']
  exact_mod_cast (Nat.div_add_mod' m n).symm

theorem div_lt_half_iff (hn : 0 < n) : (m : ℝ) / n < 1 / 2 ↔ 2 * m < n := by
  rw [div_lt_div_iff₀ (Nat.cast_pos.2 hn) two_pos, one_mul, mul_comm]
  exact_mod_cast Iff.rfl

theorem half_lt_div_iff (hn : 0 < n) : 1 / 2 < (m : ℝ) / n ↔ n < 2 * m := by
  rw [div_lt_div_iff₀ two_pos (Nat.cast_pos.2 hn), one_mul, mul_comm]
  exact_mod_cast Iff.rfl

theorem mod_div_lt_one (hn : 0 < n) (m : ℕ) : ((m % n : ℕ) : ℝ) / n < 1 :=
  (div_lt_one (Nat.cast_pos.2 hn)).2 (Nat.cast_lt.2 (Nat.mod_lt m hn))

theorem approximates_accuracyOfFraction (hn : 0 < n) (m : ℕ) :
    Approximates (m / n) ((m : ℝ) / n) (accuracyOfFraction (m % n) n) := by
  have hlt := mod_div_lt_one hn m
  rw [accuracyOfFraction, natCast_div_eq hn]
  generalize m / n = k at *
  generalize m % n = r at *
  split_ifs with hr
  · rw [hr, Nat.cast_zero, zero_div]
    exact add_zero _
  · have hr0 : 0 < (r : ℝ) / n :=
      div_pos (Nat.cast_pos.2 (Nat.pos_of_ne_zero hr)) (Nat.cast_pos.2 hn)
    have hbelow := div_lt_half_iff (m := r) hn
    have habove := half_lt_div_iff (m := r) hn
    rcases lt_trichotomy (2 * r) n with h | h | h
    · have := hbelow.2 h
      rw [compare_lt_iff_lt.2 h]
      exact ⟨by linarith, by linarith⟩
    · have hhalf : (r : ℝ) / n = 1 / 2 :=
        le_antisymm (not_lt.1 (by rw [habove]; omega)) (not_lt.1 (by rw [hbelow]; omega))
      rw [compare_eq_iff_eq.2 h, hhalf]
      rfl
    · have := habove.2 h
      rw [compare_gt_iff_gt.2 h]
      exact ⟨by linarith, by linarith⟩

theorem log2_le_log_div (hm : 0 < m) (hn : 0 < n) (e f : ℤ) :
    (m.log2 : ℤ) + e - (n.log2 + 1 + f) ≤ Int.log 2 ((m : ℝ) * 2 ^ e / (n * 2 ^ f)) := by
  have hm' : (2 : ℝ) ^ m.log2 ≤ m := by exact_mod_cast Nat.log2_self_le hm.ne'
  have hn' : (n : ℝ) ≤ 2 ^ (n.log2 + 1) := by exact_mod_cast Nat.lt_log2_self.le
  have hnpos : (0 : ℝ) < n := Nat.cast_pos.2 hn
  have hmpos : (0 : ℝ) < m := Nat.cast_pos.2 hm
  rw [← Int.zpow_le_iff_le_log one_lt_two (by positivity), Nat.cast_ofNat, zpow_sub₀ two_ne_zero,
    zpow_add₀ two_ne_zero, zpow_add₀ two_ne_zero]
  gcongr
  · exact_mod_cast hm'
  · exact_mod_cast hn'

/-- The quotient is cut off far enough to the right. -/
theorem divCore_spec (hm : 0 < m) (hn : 0 < n) (e f : ℤ) :
    ∃ (k : ℕ) (q : ℝ) (t : ℤ) (a : Accuracy), divCore Format.binary64 m e n f = (k, t, a) ∧
      Approximates k q a ∧ 0 < q ∧ q * 2 ^ t = m * 2 ^ e / (n * 2 ^ f) ∧
      t ≤ lastPlace (q * 2 ^ t) := by
  have hnpos : (0 : ℝ) < n := Nat.cast_pos.2 hn
  have hmpos : (0 : ℝ) < m := Nat.cast_pos.2 hm
  set t := min (e - f)
    (Format.binary64.targetExponent (totalExponent m e - totalExponent n f)) with ht
  have hvalue : ((m * 2 ^ (e - f - t).toNat : ℕ) : ℝ) / n * 2 ^ t = m * 2 ^ e / (n * 2 ^ f) := by
    have hshift := mul_zpow_min m (e - f) t
    rw [min_eq_right (min_le_left _ _)] at hshift
    rw [div_mul_eq_mul_div, hshift, zpow_sub₀ two_ne_zero]
    field_simp
  refine ⟨_, ((m * 2 ^ (e - f - t).toNat : ℕ) : ℝ) / n, t, _, ?_,
    approximates_accuracyOfFraction hn _, by positivity, hvalue, ?_⟩
  · rw [divCore, Nat.shiftLeft_eq]
  · -- the target exponent is taken for the least quotient of numbers with these leading digits
    have hlog := log2_le_log_div hm hn e f
    have htarget : Format.binary64.targetExponent (totalExponent m e - totalExponent n f) =
        max ((m.log2 : ℤ) + 1 + e - (n.log2 + 1 + f) - 53) (-1074) := rfl
    rw [hvalue, lastPlace, abs_of_pos (by positivity)]
    omega

theorem signed_div (s s' : Sign) (x y : ℝ) :
    signed (s / s') (x / y) = signed s x / signed s' y := by
  cases s <;> cases s'
  · exact (neg_div_neg_eq x y).symm
  · exact (neg_div y x).symm
  · exact (div_neg x).symm
  · rfl

theorem valueOf_div {u v : UnpackedFloat} {a b : ℝ} (ha : valueOf u = some (a : EReal))
    (hb : valueOf v = some (b : EReal)) (hb0 : b ≠ 0) :
    valueOf (pack (UnpackedFloat.div Format.binary64 u v)).unpack =
      some (roundDouble (a / b)) := by
  obtain ⟨s', rfl, rfl⟩ | ⟨s', n, f, hn, rfl, rfl⟩ := eq_of_valueOf_eq_coe hb
  · exact absurd rfl hb0
  obtain ⟨s, rfl, rfl⟩ | ⟨s, m, e, hm, rfl, rfl⟩ := eq_of_valueOf_eq_coe ha
  · rw [zero_div, roundDouble_zero]
    exact valueOf_unpack_pack_zero _
  · obtain ⟨k, q, t, a, hcore, happrox, hq, hvalue, ht⟩ := divCore_spec hm hn e f
    have hdiv : UnpackedFloat.div Format.binary64 (.finite s m e hm) (.finite s' n f hn) =
        roundWithAccuracy Format.binary64 (s / s') k t a := by
      simp only [UnpackedFloat.div, hcore]
    rw [hdiv, valueOf_roundWithAccuracy _ happrox hq ht, hvalue, signed_div]

end Quotients

section Naturals

/-- A product of positive mantissas stands for the exact product, rounded. -/
theorem valueOf_mul {m n : ℕ} {e f : ℤ} (hm : 0 < m) (hn : 0 < n)
    (h : e + f ≤ lastPlace (m * 2 ^ e * (n * 2 ^ f))) :
    valueOf (pack (UnpackedFloat.mul Format.binary64 (.finite .positive m e hm)
      (.finite .positive n f hn))).unpack = some (roundDouble (m * 2 ^ e * (n * 2 ^ f))) := by
  have hvalue : ((m * n : ℕ) : ℝ) * 2 ^ (e + f) = m * 2 ^ e * (n * 2 ^ f) := by
    rw [zpow_add₀ two_ne_zero]
    push_cast
    ring
  have hpos : (0 : ℝ) < (m * n : ℕ) := Nat.cast_pos.2 (Nat.mul_pos hm hn)
  rw [← hvalue] at h ⊢
  exact valueOf_roundWithAccuracy .positive rfl hpos h

theorem IsReduced.le_lastPlace {m : ℕ} {e : ℤ} (h : IsReduced m e) (hm : 0 < m) :
    e ≤ lastPlace (m * 2 ^ e) := by
  have hpos : (0 : ℝ) < m * 2 ^ e := by positivity
  rcases h.le.eq_or_lt with heq | hlt
  · rw [← heq]
    exact NoisyCover.le_lastPlace _
  · have hlog : e + 52 ≤ Int.log 2 ((m : ℝ) * 2 ^ e) :=
      (Int.zpow_le_iff_le_log one_lt_two hpos).1 (by exact_mod_cast h.zpow_le hlt)
    rw [lastPlace, abs_of_pos hpos]
    omega

theorem le_lastPlace_natCast (n : ℕ) : -52 ≤ lastPlace n := by
  have hlog : 0 ≤ Int.log 2 (n : ℝ) := by
    rw [Int.log_natCast]
    positivity
  rw [lastPlace, Nat.abs_cast]
  omega

theorem value_toFloat {n : ℕ} (hn : n < 2 ^ 53) :
    value n.toUInt64.toFloat = some ((n : ℝ) : EReal) := by
  have hmod : n.toUInt64.toNat = n := UInt64.toNat_ofNat_of_lt' (hn.trans (by norm_num))
  refine (valueOf_normalize n.toUInt64.toNat 0 .positive).trans ?_
  rw [hmod, Int.cast_natCast, zpow_zero, mul_one, roundDouble_natCast hn]

/-- A small natural number is converted by the machine and multiplied by one. -/
theorem value_ofNat_small {n : ℕ} (hn : 0 < n) (hsmall : n < 2 ^ 53) :
    value (Float.ofNat n) = some (roundDouble n) := by
  have hofNat : Float.ofNat n = n.toUInt64.toFloat * Float.ofBits 0x3FF0000000000000 :=
    dif_pos ⟨hsmall, by norm_num⟩
  have hone : (Float.ofBits 0x3FF0000000000000).toModel.unpack =
      .finite .positive (2 ^ 52) (-52) (by norm_num) := rfl
  have hn' : (0 : ℝ) < n := Nat.cast_pos.2 hn
  obtain ⟨s, hu, hzero⟩ | ⟨s, m, e, hm, hu, hvalue⟩ := eq_of_valueOf_eq_coe (value_toFloat hsmall)
  · exact absurd hzero hn'.ne'
  · obtain rfl : s = .positive := by
      cases s
      · have hpos : (0 : ℝ) < m * 2 ^ e := by positivity
        rw [signed] at hvalue
        linarith
      · rfl
    have hcanonical := isCanonical_unpack n.toUInt64.toFloat.toModel
    rw [hu] at hcanonical
    have hscale : (m : ℝ) * 2 ^ e * (((2 ^ 52 : ℕ) : ℝ) * 2 ^ (-52 : ℤ)) = n := by
      rw [hvalue, signed]
      norm_num
    have hle : e + -52 ≤ lastPlace (m * 2 ^ e * (((2 ^ 52 : ℕ) : ℝ) * 2 ^ (-52 : ℤ))) := by
      have := hcanonical.1.le_lastPlace hm
      rw [hscale, hvalue, signed]
      omega
    have hmul := valueOf_mul hm (by norm_num) hle
    rw [← hu, ← hone, hscale] at hmul
    rw [hofNat]
    exact hmul

/-- A large natural number is read as a decimal without an exponent. -/
theorem value_ofNat_large {n : ℕ} (hlarge : 2 ^ 53 ≤ n) :
    value (Float.ofNat n) = some (roundDouble n) := by
  have hofNat : (Float.ofNat n).toModel = Float.Model.ofScientific n 0 := by
    show (Float.ofScientific n false 0).toModel = _
    rw [Float.ofScientific, dif_neg fun h => absurd h.1 (not_lt.2 hlarge)]
    rfl
  have hshift : 0 < n <<< 53 := by
    rw [Nat.shiftLeft_eq]
    omega
  have hscale : ((n <<< 53 : ℕ) : ℝ) * 2 ^ (-53 : ℤ) * (((10 ^ 0 : ℕ) : ℝ) * 2 ^ (0 : ℤ)) = n := by
    rw [Nat.shiftLeft_eq]
    push_cast
    rw [mul_assoc, mul_assoc]
    norm_num
  have hle : -53 + 0 ≤ lastPlace (((n <<< 53 : ℕ) : ℝ) * 2 ^ (-53 : ℤ) *
      (((10 ^ 0 : ℕ) : ℝ) * 2 ^ (0 : ℤ))) := by
    have := le_lastPlace_natCast n
    rw [hscale]
    omega
  have hread : UnpackedFloat.ofScientific Format.binary64 n 0 = UnpackedFloat.mul Format.binary64
      (.finite .positive (n <<< 53) (-53) hshift) (.finite .positive (10 ^ 0) 0 (by norm_num)) := by
    have hlow : ¬ (0 : ℤ) < -((2 ^ Format.binary64.exponentBits : ℤ) + n.log2) := by
      have : (0 : ℤ) ≤ 2 ^ Format.binary64.exponentBits := by positivity
      omega
    rw [UnpackedFloat.ofScientific, dif_neg (by omega), if_neg (by decide), if_neg hlow,
      if_pos le_rfl]
    rfl
  have hmul := valueOf_mul (e := -53) (f := 0) hshift (Nat.pow_pos (by norm_num)) hle
  rw [hscale, ← hread] at hmul
  rw [value, hofNat]
  exact hmul

/-- A natural number is converted to the nearest double. -/
theorem value_ofNat (n : ℕ) : value (Float.ofNat n) = some (roundDouble n) := by
  rcases Nat.eq_zero_or_pos n with rfl | hn
  · rw [Nat.cast_zero, roundDouble_zero]
    rfl
  rcases lt_or_ge n (2 ^ 53) with hsmall | hlarge
  · exact value_ofNat_small hn hsmall
  · exact value_ofNat_large hlarge

end Naturals

end NoisyCover.Double
