import Mathlib
import NoisyCover.Proofs.Double.Rounds

/-!
# Costs as ordered numbers

What an algorithm does with costs is to compare them, to share one among some items and to take one
off another.  So results about the steps of an algorithm need no more than an order, shares that do
not grow with the number of items (`SharedCosts`), or differences that are not negative
(`LoweredCosts`).  Exact numbers have both, and so have the finite doubles.
-/

namespace NoisyCover

section Orders

variable {K : Type u} [Arithmetic K]

/-- On the numbers with the property the order is total, with those below positive infinity below
all others. -/
structure OrderedOn (P : K → Prop) : Prop extends TotalOn P where
  le_iff_not_lt : ∀ {x y : K}, P x → P y → (x ≤ y ↔ ¬ y < x)
  lt_of_bounded : ∀ {x y : K}, P x → P y → Arithmetic.bounded x = true →
    Arithmetic.bounded y = false → x < y

/-- The costs of switching candidates on are among the ordered numbers, and are not negative. -/
structure OrderedCosts (P : K → Prop) : Prop extends OrderedOn P where
  selectionCost : ∀ {p : K}, 0 < p → p ≤ 1 → P (selectionCost p) ∧ 0 ≤ selectionCost p

/-- A share of a cost is not larger when more items share it. -/
structure SharedCosts (P : K → Prop) : Prop extends OrderedCosts P where
  div : ∀ {x : K} {n : ℕ}, P x → 0 ≤ x → n ≠ 0 → P (x / (n : K))
  div_le_div : ∀ {x : K} {m n : ℕ}, P x → 0 ≤ x → m ≠ 0 → m ≤ n → x / (n : K) ≤ x / (m : K)

/-- A cost less one that is not larger is a cost, and a cost less itself is zero. -/
structure LoweredCosts (P : K → Prop) : Prop extends OrderedCosts P where
  sub : ∀ {x y : K}, P x → P y → 0 ≤ y → y ≤ x → P (x - y) ∧ 0 ≤ x - y
  sub_self : ∀ {x : K}, P x → x - x = 0

namespace OrderedOn

variable {P : K → Prop} (hP : OrderedOn P) {x y z : K}

include hP

theorem le_trans (hx : P x) (hy : P y) (hz : P z) (hxy : x ≤ y) (hyz : y ≤ z) : x ≤ z := by
  rw [hP.le_iff_not_lt hx hy] at hxy
  rw [hP.le_iff_not_lt hy hz] at hyz
  rw [hP.le_iff_not_lt hx hz]
  exact hP.trans hx hy hz hxy hyz

theorem lt_of_lt_of_le (hx : P x) (hy : P y) (hz : P z) (hxy : x < y) (hyz : y ≤ z) : x < z := by
  by_contra hxz
  rw [hP.le_iff_not_lt hy hz] at hyz
  exact hP.trans hy hz hx hyz hxz hxy

theorem mono {Q : K → Prop} (h : ∀ x, Q x → P x) : OrderedOn Q where
  toTotalOn := hP.toTotalOn.mono h
  le_iff_not_lt hx hy := hP.le_iff_not_lt (h _ hx) (h _ hy)
  lt_of_bounded hx hy := hP.lt_of_bounded (h _ hx) (h _ hy)

end OrderedOn

end Orders

theorem orderedOn_real : OrderedOn fun _ : ℝ => True where
  toTotalOn := totalOn_real
  le_iff_not_lt _ _ := not_lt.symm
  lt_of_bounded _ _ _ h := by cases h

theorem orderedCosts_real : OrderedCosts fun _ : ℝ => True where
  toOrderedOn := orderedOn_real
  selectionCost h0 h1 := ⟨trivial, onCost_nonneg h0 h1⟩

theorem sharedCosts_real : SharedCosts fun _ : ℝ => True where
  toOrderedCosts := orderedCosts_real
  div _ _ _ := trivial
  div_le_div {x m n} _ hx hm hmn := by
    have hpos : (0 : ℝ) < m := Nat.cast_pos.2 (Nat.pos_of_ne_zero hm)
    exact div_le_div_of_nonneg_left hx hpos (Nat.cast_le.2 hmn)

theorem loweredCosts_real : LoweredCosts fun _ : ℝ => True where
  toOrderedCosts := orderedCosts_real
  sub _ _ _ h := ⟨trivial, sub_nonneg.2 h⟩
  sub_self _ := sub_self _

namespace Rounding

variable {K : Type u} [Arithmetic K] (R : Rounding K)

/-- Whatever stands for an extended real number is ordered. -/
theorem orderedOn : OrderedOn fun x : K => ∃ a, R.value x = some a where
  toTotalOn := R.totalOn
  le_iff_not_lt := by
    rintro x y ⟨a, ha⟩ ⟨b, hb⟩
    rw [R.le_iff_of_value ha hb, R.lt_iff_of_value hb ha, not_lt]
  lt_of_bounded := by
    rintro x y ⟨a, ha⟩ ⟨b, hb⟩ hx hy
    obtain ⟨a', ha', hlt⟩ := R.bounded_iff.1 hx
    obtain rfl := Option.some.inj (ha.symm.trans ha')
    refine (R.lt_iff_of_value ha hb).2 (hlt.trans_le (top_le_iff.2 ?_))
    by_contra hne
    have hbounded := R.bounded_iff.2 ⟨b, hb, lt_top_iff_ne_top.2 hne⟩
    rw [hy] at hbounded
    cases hbounded

theorem isCost_iff {x : K} : R.IsCost x ↔ R.IsFinite x ∧ 0 ≤ x := by
  constructor
  · rintro ⟨a, ha0, ha⟩
    exact ⟨⟨a, ha⟩, (R.le_iff_of_value R.value_zero ha).2 (EReal.coe_nonneg.2 ha0)⟩
  · rintro ⟨⟨a, ha⟩, h0⟩
    exact ⟨a, EReal.coe_nonneg.1 ((R.le_iff_of_value R.value_zero ha).1 h0), ha⟩

theorem orderedCosts : OrderedCosts R.IsFinite where
  toOrderedOn := R.orderedOn.mono fun _ ⟨a, ha⟩ => ⟨a, ha⟩
  selectionCost h0 h1 := R.isCost_iff.1 (R.isCost_selectionCost h0 h1)

/-- Rounding keeps larger shares larger. -/
theorem sharedCosts : SharedCosts R.IsFinite where
  toOrderedCosts := R.orderedCosts
  div hx h0 hn := ((R.isCost_iff.2 ⟨hx, h0⟩).div R hn).isFinite R
  div_le_div {x m n} hx h0 hm hmn := by
    obtain ⟨a, ha0, ha⟩ := R.isCost_iff.2 ⟨hx, h0⟩
    have hle : R.round m ≤ R.round n := R.monotone_round (Nat.cast_le.2 hmn)
    obtain ⟨htop, hxm⟩ | ⟨b, hb, hbm, hxm⟩ := R.value_div_natCast ha hm <;>
      obtain ⟨-, hxn⟩ | ⟨b', -, hbn, hxn⟩ := R.value_div_natCast ha (show n ≠ 0 by omega) <;>
      rw [R.le_iff_of_value hxn hxm]
    · rw [htop, hbn] at hle
      exact absurd hle (not_le.2 (EReal.coe_lt_top b'))
    · exact R.round_zero.symm.trans_le (R.monotone_round (by positivity))
    · rw [hbm, hbn] at hle
      refine R.monotone_round (div_le_div_of_nonneg_left ha0 (by positivity) ?_)
      exact_mod_cast hle

theorem isFinite_sub {x y : K} (hx : R.IsFinite x) (hy : R.IsFinite y) (h0 : 0 ≤ y)
    (hle : y ≤ x) : R.IsFinite (x - y) ∧ 0 ≤ x - y := by
  obtain ⟨a, ha⟩ := hx
  obtain ⟨b, hb0, hb⟩ := R.isCost_iff.2 ⟨hy, h0⟩
  rw [R.le_iff_of_value hb ha] at hle
  have hx : R.IsCost x := ⟨a, hb0.trans (EReal.coe_le_coe_iff.1 hle), ha⟩
  rw [← R.isCost_iff]
  refine hx.sub R ⟨b, hb0, hb⟩ ?_
  rw [R.lt_iff_of_value ha hb]
  exact not_lt.2 hle

end Rounding

namespace Double

open Float.Model Float.Model.UnpackedFloat

/-- A double less itself is zero, unless it is infinite or not a number. -/
theorem sub_self_of_value {x : Float} {a : ℝ} (h : value x = some (a : EReal)) :
    x - x = Float.ofNat 0 := by
  have hzero : UnpackedFloat.sub Format.binary64 x.toModel.unpack x.toModel.unpack =
      .zero .positive := by
    obtain ⟨s, hx, -⟩ | ⟨s, m, e, hm, hx, -⟩ := eq_of_valueOf_eq_coe h <;> rw [hx]
    · cases s <;> rfl
    · simp only [UnpackedFloat.sub, Int.sub_self, UnpackedFloat.normalize]
      rfl
  exact congrArg (fun u => Float.ofModel (pack u)) hzero

/-- Finite doubles are exact enough for differences of costs. -/
theorem loweredCosts {log : Float → Float} (hlog : IsLogarithm log) :
    letI := Arithmetic.doublesWith log
    LoweredCosts (doubleRounding hlog).IsFinite :=
  letI := Arithmetic.doublesWith log
  { toOrderedCosts := (doubleRounding hlog).orderedCosts
    sub := (doubleRounding hlog).isFinite_sub
    sub_self := fun ⟨_, ha⟩ => sub_self_of_value ha }

end Double

end NoisyCover
