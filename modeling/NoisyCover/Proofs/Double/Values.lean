import Mathlib
import NoisyCover.Proofs.Double.Nearest

/-!
# What doubles stand for

A double is unpacked into a sign, a mantissa and an exponent, an operation is carried out on these,
and the result is packed again.  A mantissa and an exponent that come out of a double are reduced
(`IsReduced`): the mantissa has its leading digit unless the exponent is the least one.  Packing a
reduced result and unpacking it again gives it back, or an infinity when its exponent is too large
(`unpack_pack_of_canonical`, `unpack_pack_of_large`).

Reduced numbers with a larger exponent are larger, so comparing exponents before mantissas compares
the values (`compare_eq`).
-/

namespace NoisyCover.Double

open Float.Model Float.Model.UnpackedFloat

noncomputable def signed : Sign → ℝ → ℝ
  | .negative, x => -x
  | .positive, x => x

theorem signed_zero : ∀ s : Sign, signed s 0 = 0
  | .negative => neg_zero
  | .positive => rfl

noncomputable def infinite : Sign → EReal
  | .negative => ⊥
  | .positive => ⊤

/-- What an unpacked double stands for; nothing if it is not a number. -/
noncomputable def valueOf : UnpackedFloat → Option EReal
  | .notANumber => none
  | .infinity s => some (infinite s)
  | .zero _ => some 0
  | .finite s m e _ => some (signed s (m * ((2 : ℕ) : ℝ) ^ e) : ℝ)

/-- A mantissa and an exponent in the form that doubles have. -/
structure IsReduced (m : ℕ) (e : ℤ) : Prop where
  lt : m < 2 ^ 53
  le : -1074 ≤ e
  full_or_least : 2 ^ 52 ≤ m ∨ e = -1074

/-- An unpacked double in the form that unpacking gives. -/
def IsCanonical : UnpackedFloat → Prop
  | .finite _ m e _ => IsReduced m e ∧ e ≤ 971
  | _ => True

section Packing

theorem toNat_one_append (f : BitVec 52) : (1#1 ++ f).toNat = 2 ^ 52 + f.toNat := by
  rw [BitVec.toNat_append, ← Nat.shiftLeft_add_eq_or_of_lt f.isLt]
  rfl

theorem unpackSign_packComponents (s : Sign) (e : BitVec 11) (f : BitVec 52) :
    Sign.ofBitVec (unpackSign (packComponents Format.binary64 s e f)) = s := by
  have hsign : unpackSign (packComponents Format.binary64 s e f) =
      (s.toBitVec ++ e ++ f).extractLsb' 63 1 := rfl
  rw [hsign, BitVec.extractLsb'_append_eq_of_le (by omega),
    BitVec.extractLsb'_append_eq_of_le (by omega)]
  cases s <;> rfl

section Components

variable (s : Sign) {e : BitVec 11} {f : BitVec 52}

theorem unpack_normal (he0 : e ≠ 0#11) (he1 : e ≠ -1#11) :
    UnpackedFloat.unpack Format.binary64 (packComponents Format.binary64 s e f) =
      .finite s (2 ^ 52 + f.toNat) (e.toNat - 1075) (by positivity) := by
  unfold UnpackedFloat.unpack
  simp only [unpackMantissa_packComponents, unpackExponent_packComponents,
    unpackSign_packComponents, if_neg he0, if_neg he1, toNat_one_append]
  rfl

theorem unpack_subnormal (hf : 0 < f.toNat) :
    UnpackedFloat.unpack Format.binary64 (packComponents Format.binary64 s 0#11 f) =
      .finite s f.toNat (-1074) hf := by
  have hne : f ≠ 0#52 := by
    rintro rfl
    exact lt_irrefl 0 hf
  unfold UnpackedFloat.unpack
  simp only [unpackMantissa_packComponents, unpackExponent_packComponents,
    unpackSign_packComponents, dif_neg hne]
  rfl

theorem unpack_packedZero :
    UnpackedFloat.unpack Format.binary64 (packedZero Format.binary64 s) = .zero s := by
  cases s <;> rfl

theorem unpack_packedInfinity :
    UnpackedFloat.unpack Format.binary64 (packedInfinity Format.binary64 s) = .infinity s := by
  cases s <;> rfl

end Components

section Finite

variable (s : Sign) {m : ℕ} {e : ℤ} (hm : 0 < m)

theorem unpack_pack_of_large (he : 972 ≤ e) :
    (pack (.finite s m e hm)).unpack = .infinity s := by
  have hpack : UnpackedFloat.pack Format.binary64 (.finite s m e hm) =
      packedInfinity Format.binary64 s := by
    refine if_pos ?_
    show 2 ^ 11 ≤ (e + (1023 : ℕ) + (52 : ℕ)).toNat + 1
    omega
  show UnpackedFloat.unpack Format.binary64 (UnpackedFloat.pack Format.binary64 _) = _
  rw [hpack, unpack_packedInfinity]

theorem unpack_pack_of_reduced (h : IsReduced m e) (he : e ≤ 971) :
    (pack (.finite s m e hm)).unpack = .finite s m e hm := by
  have hsmall : ¬ 2 ^ 11 ≤ (e + (1023 : ℕ) + (52 : ℕ)).toNat + 1 := by
    have := h.le
    omega
  have hpack : UnpackedFloat.pack Format.binary64 (.finite s m e hm) =
      if m.log2 + 1 = 53 then
        packComponents Format.binary64 s (BitVec.ofNat 11 (e + (1023 : ℕ) + (52 : ℕ)).toNat)
          (BitVec.ofNat 52 m)
      else packComponents Format.binary64 s 0#11 (BitVec.ofNat 52 m) := if_neg hsmall
  show UnpackedFloat.unpack Format.binary64 (UnpackedFloat.pack Format.binary64 _) = _
  have hlt := h.lt
  have hle := h.le
  rw [hpack]
  rcases lt_or_ge m (2 ^ 52) with hsub | hfull
  · have hlog : m.log2 < 52 := (Nat.log2_lt hm.ne').2 hsub
    have hf : (BitVec.ofNat 52 m).toNat = m := by
      rw [BitVec.toNat_ofNat, Nat.mod_eq_of_lt hsub]
    obtain rfl : e = -1074 := h.full_or_least.resolve_left (not_le.2 hsub)
    rw [if_neg (by omega), unpack_subnormal s (by omega)]
    simp only [hf]
  · have hlog : m.log2 = 52 := by
      have hge := (Nat.le_log2 hm.ne').2 hfull
      have hlt' : m.log2 < 53 := (Nat.log2_lt hm.ne').2 hlt
      omega
    have hexp : (BitVec.ofNat 11 (e + (1023 : ℕ) + (52 : ℕ)).toNat).toNat =
        (e + (1023 : ℕ) + (52 : ℕ)).toNat := by
      rw [BitVec.toNat_ofNat, Nat.mod_eq_of_lt (by omega)]
    have hf : (BitVec.ofNat 52 m).toNat = m - 2 ^ 52 := by
      rw [BitVec.toNat_ofNat, Nat.mod_eq_sub_mod hfull, Nat.mod_eq_of_lt (by omega)]
    have he0 : BitVec.ofNat 11 (e + (1023 : ℕ) + (52 : ℕ)).toNat ≠ 0#11 := fun h0 => by
      rw [h0] at hexp
      change 0 = _ at hexp
      omega
    have he1 : BitVec.ofNat 11 (e + (1023 : ℕ) + (52 : ℕ)).toNat ≠ -1#11 := fun h1 => by
      rw [h1] at hexp
      change 2047 = _ at hexp
      omega
    rw [if_pos (by omega), unpack_normal s he0 he1]
    congr 1
    · omega
    · omega

end Finite

theorem isCanonical_unpack (x : Float.Model) : IsCanonical x.unpack := by
  have hbias : (Format.binary64.exponentBias : ℤ) = 1023 := rfl
  have hfull := toNat_one_append (@unpackMantissa Format.binary64 x.toBits.toBitVec)
  have hf : (@unpackMantissa Format.binary64 x.toBits.toBitVec).toNat < 2 ^ 52 := BitVec.isLt _
  have he : (@unpackExponent Format.binary64 x.toBits.toBitVec).toNat < 2048 := BitVec.isLt _
  unfold Float.Model.unpack UnpackedFloat.unpack
  simp only []
  split_ifs with htop hzero hleast hzero
  · trivial
  · trivial
  · trivial
  · have hexp := congrArg BitVec.toNat hleast
    rw [BitVec.toNat_zero] at hexp
    exact ⟨⟨by omega, by omega, .inr (by omega)⟩, by omega⟩
  · have hpos : (@unpackExponent Format.binary64 x.toBits.toBitVec).toNat ≠ 0 := fun h0 =>
      hleast (BitVec.eq_of_toNat_eq h0)
    have hbelow : (@unpackExponent Format.binary64 x.toBits.toBitVec).toNat ≠ 2047 := fun h1 =>
      htop (BitVec.eq_of_toNat_eq h1)
    exact ⟨⟨by omega, by omega, .inl (by omega)⟩, by omega⟩

theorem unpack_pack_of_canonical {u : UnpackedFloat} (h : IsCanonical u) :
    (pack u).unpack = u := by
  cases u with
  | infinity s => exact unpack_packedInfinity s
  | notANumber => rfl
  | zero s => exact unpack_packedZero s
  | finite s m e hm => exact unpack_pack_of_reduced s hm h.1 h.2

end Packing

section Order

variable {m n : ℕ} {e f : ℤ}

theorem IsReduced.lt_zpow (h : IsReduced m e) : (m : ℝ) * 2 ^ e < 2 ^ (e + 53) := by
  rw [add_comm, zpow_add₀ two_ne_zero]
  have := h.lt
  gcongr
  exact_mod_cast this

theorem IsReduced.zpow_le (h : IsReduced m e) (he : -1074 < e) :
    (2 : ℝ) ^ (e + 52) ≤ m * 2 ^ e := by
  rw [add_comm, zpow_add₀ two_ne_zero]
  have := h.full_or_least.resolve_right (by omega)
  gcongr
  exact_mod_cast this

theorem IsReduced.isDouble (h : IsReduced m e) (s : Sign) : IsDouble (signed s (m * 2 ^ e)) := by
  cases s with
  | negative =>
    refine ⟨-m, e, ?_, h.le, ?_⟩
    · rw [abs_neg, Nat.abs_cast]
      exact_mod_cast h.lt
    · rw [signed]
      push_cast
      ring
  | positive =>
    refine ⟨m, e, ?_, h.le, ?_⟩
    · rw [Nat.abs_cast]
      exact_mod_cast h.lt
    · rw [signed]
      push_cast
      ring

theorem IsReduced.lt_of_exponent_lt (h : IsReduced m e) (h' : IsReduced n f) (hef : e < f) :
    (m : ℝ) * 2 ^ e < n * 2 ^ f := by
  have := h.le
  calc (m : ℝ) * 2 ^ e < 2 ^ (e + 53) := h.lt_zpow
    _ ≤ 2 ^ (f + 52) := zpow_le_zpow_right₀ one_le_two (by omega)
    _ ≤ n * 2 ^ f := h'.zpow_le (by omega)

/-- Exponents are compared before mantissas. -/
theorem IsReduced.cmp_eq (h : IsReduced m e) (h' : IsReduced n f) :
    cmp ((m : ℝ) * 2 ^ e) (n * 2 ^ f) = (compare e f).then (compare m n) := by
  rcases lt_trichotomy e f with hef | rfl | hef
  · rw [(cmp_eq_lt_iff _ _).2 (h.lt_of_exponent_lt h' hef), compare_lt_iff_lt.2 hef]
    rfl
  · rw [cmp_mul_pos_right (by positivity), compare_eq_iff_eq.2 rfl]
    exact (Nat.strictMono_cast.cmp_map_eq m n).trans (cmp_eq_compare m n)
  · rw [(cmp_eq_gt_iff _ _).2 (h'.lt_of_exponent_lt h hef), compare_gt_iff_gt.2 hef]
    rfl

theorem cmp_neg_neg (x y : ℝ) : cmp (-x) (-y) = (cmp x y).swap := by
  rw [cmp_swap]
  rcases lt_trichotomy x y with h | rfl | h
  · rw [(cmp_eq_gt_iff _ _).2 (neg_lt_neg h), (cmp_eq_gt_iff _ _).2 h]
  · rw [cmp_self_eq_eq, cmp_self_eq_eq]
  · rw [(cmp_eq_lt_iff _ _).2 (neg_lt_neg h), (cmp_eq_lt_iff _ _).2 h]

theorem cmp_signed (hu : IsReduced m e) (hv : IsReduced n f) (hm : 0 < m) (hn : 0 < n)
    (s s' : Sign) :
    UnpackedFloat.compare (.finite s m e hm) (.finite s' n f hn) =
      some (cmp (signed s (m * 2 ^ e)) (signed s' (n * 2 ^ f))) := by
  have hx : (0 : ℝ) < m * 2 ^ e := by positivity
  have hy : (0 : ℝ) < n * 2 ^ f := by positivity
  cases s <;> cases s' <;> simp only [signed]
  · rw [cmp_neg_neg, hu.cmp_eq hv]
    rfl
  · rw [(cmp_eq_lt_iff _ _).2 (by linarith)]
    rfl
  · rw [(cmp_eq_gt_iff _ _).2 (by linarith)]
    rfl
  · rw [hu.cmp_eq hv]
    rfl

theorem cmp_coe (x y : ℝ) : cmp (x : EReal) y = cmp x y :=
  EReal.coe_strictMono.cmp_map_eq x y

/-- Comparing unpacked doubles compares what they stand for. -/
theorem compare_eq {u v : UnpackedFloat} (hu : IsCanonical u) (hv : IsCanonical v) :
    u.compare v = (valueOf u).bind fun a => (valueOf v).map (cmp a) := by
  have hlow := EReal.bot_lt_coe
  have hhigh := EReal.coe_lt_top
  rcases u with s | _ | s | ⟨s, m, e, hm⟩ <;> rcases v with s' | _ | s' | ⟨s', n, f, hn⟩
  case infinity.infinity =>
    cases s <;> cases s' <;> refine congrArg some (Eq.symm ?_)
    · exact cmp_self_eq_eq _
    · exact (cmp_eq_lt_iff _ _).2 bot_lt_top
    · exact (cmp_eq_gt_iff _ _).2 bot_lt_top
    · exact cmp_self_eq_eq _
  case infinity.zero =>
    cases s <;> refine congrArg some (Eq.symm ?_)
    · exact (cmp_eq_lt_iff _ _).2 (hlow 0)
    · exact (cmp_eq_gt_iff _ _).2 (hhigh 0)
  case infinity.finite =>
    cases s <;> refine congrArg some (Eq.symm ?_)
    · exact (cmp_eq_lt_iff _ _).2 (hlow _)
    · exact (cmp_eq_gt_iff _ _).2 (hhigh _)
  case zero.infinity =>
    cases s' <;> refine congrArg some (Eq.symm ?_)
    · exact (cmp_eq_gt_iff _ _).2 (hlow 0)
    · exact (cmp_eq_lt_iff _ _).2 (hhigh 0)
  case finite.infinity =>
    cases s' <;> cases s <;> refine congrArg some (Eq.symm ?_)
    · exact (cmp_eq_gt_iff _ _).2 (hlow _)
    · exact (cmp_eq_gt_iff _ _).2 (hlow _)
    · exact (cmp_eq_lt_iff _ _).2 (hhigh _)
    · exact (cmp_eq_lt_iff _ _).2 (hhigh _)
  case zero.zero => exact congrArg some (cmp_self_eq_eq (0 : EReal)).symm
  case zero.finite =>
    have hy : (0 : ℝ) < n * 2 ^ f := by positivity
    cases s' <;> refine congrArg some (Eq.symm ?_)
    · exact (cmp_coe 0 _).trans ((cmp_eq_gt_iff _ _).2 (neg_lt_zero.2 hy))
    · exact (cmp_coe 0 _).trans ((cmp_eq_lt_iff _ _).2 hy)
  case finite.zero =>
    have hx : (0 : ℝ) < m * 2 ^ e := by positivity
    cases s <;> refine congrArg some (Eq.symm ?_)
    · exact (cmp_coe _ 0).trans ((cmp_eq_lt_iff _ _).2 (neg_lt_zero.2 hx))
    · exact (cmp_coe _ 0).trans ((cmp_eq_gt_iff _ _).2 hx)
  case finite.finite =>
    rw [cmp_signed hu.1 hv.1, ← cmp_coe]
    rfl
  all_goals rfl

theorem lt_eq_true_iff {u v : UnpackedFloat} (hu : IsCanonical u) (hv : IsCanonical v) :
    u.lt v = true ↔ ∃ a b, valueOf u = some a ∧ valueOf v = some b ∧ a < b := by
  rw [UnpackedFloat.lt, compare_eq hu hv]
  rcases valueOf u with _ | a <;> rcases valueOf v with _ | b <;> simp

theorem le_eq_true_iff {u v : UnpackedFloat} (hu : IsCanonical u) (hv : IsCanonical v) :
    u.le v = true ↔ ∃ a b, valueOf u = some a ∧ valueOf v = some b ∧ a ≤ b := by
  rw [UnpackedFloat.le, compare_eq hu hv]
  have hcmp : ∀ a b : EReal, (cmp a b).isLE = true ↔ a ≤ b := fun a b => by
    rw [cmp_eq_compare, ← Ordering.ne_gt_iff_isLE]
    exact compare_le_iff_le
  rcases valueOf u with _ | a <;> rcases valueOf v with _ | b <;> simp [hcmp]

end Order

section Range

variable (s : Sign) {m : ℕ} {e : ℤ}

theorem valueOf_unpack_pack_zero : valueOf (pack (.zero s)).unpack = some 0 := by
  rw [unpack_pack_of_canonical (show IsCanonical (.zero s) from trivial)]
  rfl

theorem valueOf_unpack_pack_infinity :
    valueOf (pack (.infinity s)).unpack = some (infinite s) := by
  rw [unpack_pack_of_canonical (show IsCanonical (.infinity s) from trivial)]
  rfl

theorem abs_signed (x : ℝ) : |signed s x| = |x| := by
  cases s
  · exact abs_neg x
  · rfl

/-- A reduced number stands for itself once it is packed, or for an infinity if it is too large. -/
theorem valueOf_unpack_pack (h : IsReduced m e) (hm : 0 < m) :
    valueOf (pack (.finite s m e hm)).unpack = some (inRange (signed s (m * 2 ^ e))) := by
  rcases lt_or_ge e 972 with he | he
  · rw [unpack_pack_of_reduced s hm h (by omega), inRange_eq]
    · rfl
    · rw [abs_signed, abs_of_pos (by positivity)]
      exact h.lt_zpow.trans_le (zpow_le_zpow_right₀ one_le_two (by omega))
  · have hlarge : (2 : ℝ) ^ (1024 : ℤ) ≤ m * 2 ^ e :=
      (zpow_le_zpow_right₀ one_le_two (by omega)).trans (h.zpow_le (by omega))
    have hpos : (0 : ℝ) < 2 ^ (1024 : ℤ) := by positivity
    rw [unpack_pack_of_large s hm he]
    cases s
    · have hneg : -(m * 2 ^ e : ℝ) < 2 ^ (1024 : ℤ) := (neg_neg_of_pos (by positivity)).trans hpos
      rw [inRange_def, signed, if_neg (not_le.2 hneg), if_pos (neg_le_neg hlarge)]
      rfl
    · rw [inRange_def, signed, if_pos hlarge]
      rfl

end Range

end NoisyCover.Double
