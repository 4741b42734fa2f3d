import Mathlib
import NoisyCover.Proofs.Rounding

/-!
# The double nearest to a real number

A finite double is an integer of fewer than 54 bits times a power of two that is not below
`2 ^ (-1074)` (`IsDouble`).  Near a real number the doubles are the multiples of one power of two,
its last place, and the number is rounded to the nearest such multiple, a tie to the even one
(`nearestDouble`).  That keeps every double there is (`nearestDouble_eq`).  It is monotone, because
a power of two between two numbers is a multiple of the last place of each (`nearestDouble_mono`).
What is too large for a double becomes an infinity (`roundDouble`).
-/

namespace NoisyCover

section NearestEven

variable {x y : ℝ} {n : ℤ}

theorem nearestEven_of_lt_half (h : n ≤ x) (h' : x < n + 1 / 2) : nearestEven x = n := by
  have hfloor : ⌊x⌋ = n := Int.floor_eq_iff.2 ⟨h, by linarith⟩
  have hfract : Int.fract x = x - n := by rw [Int.fract, hfloor]
  rw [nearestEven, if_neg fun hc => by rw [hfract] at hc; linarith [hc.1]]
  exact round_eq_iff.2 ⟨by linarith, h'⟩

theorem nearestEven_of_half_lt (h : n + 1 / 2 < x) (h' : x < n + 1) : nearestEven x = n + 1 := by
  have hfloor : ⌊x⌋ = n := Int.floor_eq_iff.2 ⟨by linarith, h'⟩
  have hfract : Int.fract x = x - n := by rw [Int.fract, hfloor]
  rw [nearestEven, if_neg fun hc => by rw [hfract] at hc; linarith [hc.1]]
  exact round_eq_iff.2 ⟨by push_cast; linarith, by push_cast; linarith⟩

theorem nearestEven_eq (h : |x - n| < 1 / 2) : nearestEven x = n := by
  obtain ⟨hlow, hhigh⟩ := abs_lt.1 h
  rcases le_or_gt (n : ℝ) x with hle | hlt
  · exact nearestEven_of_lt_half hle (by linarith)
  · have hbelow : nearestEven x = (n - 1) + 1 :=
      nearestEven_of_half_lt (by push_cast; linarith) (by push_cast; linarith)
    rw [hbelow, sub_add_cancel]

theorem nearestEven_half (h : x = n + 1 / 2) : nearestEven x = n + n % 2 := by
  have hfloor : ⌊x⌋ = n := Int.floor_eq_iff.2 ⟨by linarith, by linarith⟩
  have hfract : Int.fract x = 1 / 2 := by
    rw [Int.fract, hfloor, h]
    ring
  rw [nearestEven, hfloor, hfract]
  rcases Int.emod_two_eq_zero_or_one n with heven | hodd
  · rw [if_pos ⟨by norm_num, Int.even_iff.2 heven⟩, heven, add_zero]
  · rw [if_neg fun hc => by rw [Int.even_iff] at hc; omega, hodd]
    exact round_eq_iff.2 ⟨by push_cast; linarith, by push_cast; linarith⟩

/-- A number lies below, at or above the middle between two integers. -/
theorem nearestEven_cases (x : ℝ) :
    ∃ n : ℤ, (n ≤ x ∧ x < n + 1 / 2 ∧ nearestEven x = n) ∨
      (x = n + 1 / 2 ∧ nearestEven x = n + n % 2) ∨
      (n + 1 / 2 < x ∧ x < n + 1 ∧ nearestEven x = n + 1) := by
  have hle := Int.floor_le x
  have hlt := Int.lt_floor_add_one x
  refine ⟨⌊x⌋, ?_⟩
  rcases lt_trichotomy x (⌊x⌋ + 1 / 2) with h | h | h
  · exact .inl ⟨hle, h, nearestEven_of_lt_half hle h⟩
  · exact .inr (.inl ⟨h, nearestEven_half h⟩)
  · exact .inr (.inr ⟨h, hlt, nearestEven_of_half_lt h hlt⟩)

theorem nearestEven_neg (x : ℝ) : nearestEven (-x) = -nearestEven x := by
  obtain ⟨n, ⟨h, h', heq⟩ | ⟨h, heq⟩ | ⟨h, h', heq⟩⟩ := nearestEven_cases x
  · rcases h.eq_or_lt with rfl | h
    · rw [heq, ← Int.cast_neg, nearestEven_intCast]
    · have hneg : nearestEven (-x) = (-n - 1) + 1 := nearestEven_of_half_lt
        (by push_cast; linarith) (by push_cast; linarith)
      rw [hneg, heq]
      omega
  · have hneg : nearestEven (-x) = (-n - 1) + (-n - 1) % 2 := nearestEven_half
      (by push_cast; linarith)
    rw [hneg, heq]
    omega
  · have hneg : nearestEven (-x) = -n - 1 := nearestEven_of_lt_half
      (by push_cast; linarith) (by push_cast; linarith)
    rw [hneg, heq]
    omega

theorem nearestEven_mono (h : x ≤ y) : nearestEven x ≤ nearestEven y := by
  obtain ⟨n, hx⟩ := nearestEven_cases x
  obtain ⟨m, hy⟩ := nearestEven_cases y
  -- numbers between different integers are rounded apart; between the same ones the middle decides
  rcases lt_trichotomy n m with hnm | rfl | hnm
  · rcases hx with hx | hx | hx <;> rcases hy with hy | hy | hy <;> omega
  · rcases hx with ⟨-, hx, heqx⟩ | ⟨hx, heqx⟩ | ⟨hx, -, heqx⟩ <;>
    rcases hy with ⟨-, hy, heqy⟩ | ⟨hy, heqy⟩ | ⟨hy, -, heqy⟩ <;>
    first | omega | linarith
  · have hmn : (m : ℝ) + 1 ≤ n := by exact_mod_cast hnm
    rcases hx with ⟨hx, -⟩ | ⟨hx, -⟩ | ⟨hx, -⟩ <;>
    rcases hy with ⟨-, hy, -⟩ | ⟨hy, -⟩ | ⟨-, hy, -⟩ <;>
    linarith

end NearestEven

/-- The exponent of the last place that a double near a number has. -/
noncomputable def lastPlace (x : ℝ) : ℤ := max (Int.log 2 |x| - 52) (-1074)

/-- The nearest multiple of a power of two, a tie to the even one. -/
noncomputable def roundAt (e : ℤ) (x : ℝ) : ℝ :=
  nearestEven (x / ((2 : ℕ) : ℝ) ^ e) * ((2 : ℕ) : ℝ) ^ e

/-- The nearest double, if doubles had no largest exponent. -/
noncomputable def nearestDouble (x : ℝ) : ℝ := roundAt (lastPlace x) x

/-- A number as a double, infinite from `2 ^ 1024` on. -/
noncomputable def inRange (x : ℝ) : EReal :=
  if ((2 : ℕ) : ℝ) ^ (1024 : ℤ) ≤ x then ⊤ else if x ≤ -((2 : ℕ) : ℝ) ^ (1024 : ℤ) then ⊥ else x

/-- What a real number is rounded to in doubles. -/
noncomputable def roundDouble (x : ℝ) : EReal := inRange (nearestDouble x)

/-- The numbers that doubles stand for, if they had no largest exponent. -/
inductive IsDouble (x : ℝ) : Prop
  | intro (m e : ℤ) (lt : |m| < 2 ^ 53) (le : -1074 ≤ e) (eq : x = m * 2 ^ e)

section RoundAt

variable {e f : ℤ} {x y : ℝ}

theorem roundAt_eq (e : ℤ) (x : ℝ) : roundAt e x = nearestEven (x / 2 ^ e) * 2 ^ e := rfl

theorem roundAt_mono (e : ℤ) (h : x ≤ y) : roundAt e x ≤ roundAt e y := by
  rw [roundAt_eq, roundAt_eq]
  gcongr
  exact nearestEven_mono (by gcongr)

theorem roundAt_neg (e : ℤ) (x : ℝ) : roundAt e (-x) = -roundAt e x := by
  rw [roundAt_eq, roundAt_eq, neg_div, nearestEven_neg, Int.cast_neg, neg_mul]

theorem roundAt_mul (h : e ≤ f) (m : ℤ) : roundAt e (m * 2 ^ f) = m * 2 ^ f := by
  have hsplit : (m : ℝ) * 2 ^ f = ((m * 2 ^ (f - e).toNat : ℤ) : ℝ) * 2 ^ e := by
    push_cast
    rw [mul_assoc, ← zpow_natCast, Int.toNat_of_nonneg (sub_nonneg.2 h),
      ← zpow_add₀ two_ne_zero, sub_add_cancel]
  rw [roundAt_eq, hsplit, mul_div_cancel_right₀ _ (by positivity), nearestEven_intCast]

theorem roundAt_zpow (h : e ≤ f) : roundAt e (2 ^ f) = 2 ^ f := by
  have hone := roundAt_mul h 1
  rwa [Int.cast_one, one_mul] at hone

theorem roundAt_zero (e : ℤ) : roundAt e 0 = 0 := by
  have hzero := roundAt_mul (le_refl e) 0
  rwa [Int.cast_zero, zero_mul] at hzero

end RoundAt

section Nearest

variable {x y : ℝ}

theorem lastPlace_neg (x : ℝ) : lastPlace (-x) = lastPlace x := by
  rw [lastPlace, lastPlace, abs_neg]

theorem le_lastPlace (x : ℝ) : -1074 ≤ lastPlace x := le_max_right _ _

theorem lastPlace_mono (h : 0 < x) (h' : x ≤ y) : lastPlace x ≤ lastPlace y := by
  rw [lastPlace, lastPlace, abs_of_pos h, abs_of_pos (h.trans_le h')]
  have hlog : Int.log 2 x ≤ Int.log 2 y := Int.log_mono_right h h'
  omega

theorem lastPlace_le {e : ℤ} (he : -1074 ≤ e) (hx : x ≠ 0) (h : |x| < 2 ^ (e + 53)) :
    lastPlace x ≤ e := by
  have hlog : Int.log 2 |x| < e + 53 :=
    (Int.lt_zpow_iff_log_lt one_lt_two (abs_pos.2 hx)).1 (by exact_mod_cast h)
  rw [lastPlace]
  omega

theorem lastPlace_eq {k : ℤ} (hk : -1022 ≤ k) (h : 2 ^ k ≤ x) (h' : x < 2 ^ (k + 1)) :
    lastPlace x = k - 52 := by
  have hx : 0 < x := (by positivity : (0 : ℝ) < 2 ^ k).trans_le h
  have hle : k ≤ Int.log 2 x := (Int.zpow_le_iff_le_log one_lt_two hx).1 (by exact_mod_cast h)
  have hlt : Int.log 2 x < k + 1 :=
    (Int.lt_zpow_iff_log_lt one_lt_two hx).1 (by exact_mod_cast h')
  rw [lastPlace, abs_of_pos hx]
  omega

/-- A number above the least last place has 53 binary digits down to its last place. -/
theorem zpow_lastPlace_le (hx : 0 < x) (h : -1074 < lastPlace x) : 2 ^ (lastPlace x + 52) ≤ x := by
  have hlog : lastPlace x = Int.log 2 x - 52 := by
    rw [lastPlace, abs_of_pos hx] at h ⊢
    omega
  rw [hlog, sub_add_cancel]
  exact_mod_cast Int.zpow_log_le_self one_lt_two hx

theorem lt_zpow_lastPlace (x : ℝ) : |x| < 2 ^ (lastPlace x + 53) := by
  refine (Int.lt_zpow_succ_log_self one_lt_two |x|).trans_le ?_
  rw [Nat.cast_ofNat]
  refine zpow_le_zpow_right₀ one_le_two ?_
  rw [lastPlace]
  omega

theorem nearestDouble_zero : nearestDouble 0 = 0 := roundAt_zero _

theorem nearestDouble_neg (x : ℝ) : nearestDouble (-x) = -nearestDouble x := by
  rw [nearestDouble, lastPlace_neg, roundAt_neg, nearestDouble]

theorem nearestDouble_mono_of_pos (hx : 0 < x) (h : x ≤ y) :
    nearestDouble x ≤ nearestDouble y := by
  rcases (lastPlace_mono hx h).eq_or_lt with heq | hlt
  · rw [nearestDouble, nearestDouble, heq]
    exact roundAt_mono _ h
  · -- the power of two at which the last place of `y` starts is a multiple of both last places
    have hy : 2 ^ (lastPlace y + 52) ≤ y :=
      zpow_lastPlace_le (hx.trans_le h) ((le_lastPlace x).trans_lt hlt)
    have hx' : x ≤ 2 ^ (lastPlace y + 52) := by
      have hlt' := lt_zpow_lastPlace x
      rw [abs_of_pos hx] at hlt'
      exact hlt'.le.trans (zpow_le_zpow_right₀ one_le_two (by omega))
    calc nearestDouble x ≤ roundAt (lastPlace x) (2 ^ (lastPlace y + 52)) := roundAt_mono _ hx'
      _ = 2 ^ (lastPlace y + 52) := roundAt_zpow (by omega)
      _ = roundAt (lastPlace y) (2 ^ (lastPlace y + 52)) := (roundAt_zpow (by omega)).symm
      _ ≤ nearestDouble y := roundAt_mono _ hy

theorem nearestDouble_nonneg (h : 0 ≤ x) : 0 ≤ nearestDouble x :=
  (roundAt_zero _).symm.trans_le (roundAt_mono _ h)

theorem nearestDouble_mono : Monotone nearestDouble := by
  intro x y h
  rcases lt_or_ge 0 x with hx | hx
  · exact nearestDouble_mono_of_pos hx h
  · have hx' : nearestDouble x ≤ 0 := by
      have := nearestDouble_nonneg (neg_nonneg.2 hx)
      rw [nearestDouble_neg] at this
      linarith
    rcases lt_or_ge y 0 with hy | hy
    · have := nearestDouble_mono_of_pos (neg_pos.2 hy) (neg_le_neg h)
      rw [nearestDouble_neg, nearestDouble_neg] at this
      linarith
    · exact hx'.trans (nearestDouble_nonneg hy)

theorem nearestDouble_eq (h : IsDouble x) : nearestDouble x = x := by
  obtain ⟨m, e, hm, he, rfl⟩ := h
  rcases eq_or_ne m 0 with rfl | hm0
  · rw [Int.cast_zero, zero_mul, nearestDouble_zero]
  · refine roundAt_mul (lastPlace_le he (by positivity) ?_) m
    rw [abs_mul, abs_of_pos (by positivity : (0 : ℝ) < 2 ^ e), add_comm, zpow_add₀ two_ne_zero]
    gcongr
    exact_mod_cast hm

end Nearest

section Range

variable {x y : ℝ}

theorem inRange_def (x : ℝ) : inRange x =
    if 2 ^ (1024 : ℤ) ≤ x then ⊤ else if x ≤ -2 ^ (1024 : ℤ) then ⊥ else (x : EReal) := rfl

theorem inRange_mono : Monotone inRange := by
  intro x y h
  rw [inRange_def, inRange_def]
  split_ifs with hx hy hy' hx'
  · exact le_rfl
  · linarith
  · linarith
  · exact le_top
  · exact bot_le
  · exact bot_le
  · exact le_top
  · linarith
  · exact_mod_cast h

theorem inRange_eq (h : |x| < 2 ^ (1024 : ℤ)) : inRange x = x := by
  obtain ⟨hlow, hhigh⟩ := abs_lt.1 h
  rw [inRange_def, if_neg (not_le.2 hhigh), if_neg (not_le.2 hlow)]

theorem roundDouble_mono : Monotone roundDouble := inRange_mono.comp nearestDouble_mono

theorem roundDouble_eq (h : IsDouble x) (h' : |x| < 2 ^ (1024 : ℤ)) : roundDouble x = x := by
  rw [roundDouble, nearestDouble_eq h, inRange_eq h']

theorem roundDouble_zero : roundDouble 0 = 0 := by
  rw [roundDouble, nearestDouble_zero, inRange_eq (by simp), EReal.coe_zero]

theorem roundDouble_intCast {n : ℤ} (hn : |n| < 2 ^ 53) : roundDouble n = (n : ℝ) := by
  refine roundDouble_eq ⟨n, 0, hn, by norm_num, by simp⟩ ?_
  calc |(n : ℝ)| < 2 ^ (53 : ℤ) := by exact_mod_cast hn
    _ ≤ 2 ^ (1024 : ℤ) := zpow_le_zpow_right₀ one_le_two (by norm_num)

theorem roundDouble_natCast {n : ℕ} (hn : n < 2 ^ 53) : roundDouble n = (n : ℝ) := by
  have := roundDouble_intCast (n := n) (by rw [Nat.abs_cast]; exact_mod_cast hn)
  exact_mod_cast this

/-- Rounding moves a number that is not too large by at most one. -/
theorem exists_roundDouble_eq (h : |x| ≤ 2 ^ 52) :
    ∃ l : ℝ, roundDouble x = l ∧ |l - x| ≤ 1 := by
  have hlow : ⌊x⌋ ≤ x := Int.floor_le x
  have hhigh : x < ⌊x⌋ + 1 := Int.lt_floor_add_one x
  obtain ⟨hx, hx'⟩ := abs_le.1 h
  have hfloor : -2 ^ 52 ≤ ⌊x⌋ := Int.le_floor.2 (by exact_mod_cast hx)
  have hfloor' : ⌊x⌋ ≤ 2 ^ 52 := by exact_mod_cast hlow.trans hx'
  have hbelow := roundDouble_mono hlow
  have habove := roundDouble_mono (hhigh.le.trans_eq (by push_cast; rfl : _ = ((⌊x⌋ + 1 : ℤ) : ℝ)))
  rw [roundDouble_intCast (by rw [abs_lt]; omega)] at hbelow habove
  obtain ⟨d, hd, hlow', hhigh'⟩ := exists_coe_of_bounds hbelow habove
  push_cast at hhigh'
  exact ⟨d, hd, abs_le.2 ⟨by linarith, by linarith⟩⟩

end Range

section Multiples

variable {x : ℝ}

/-- Every double is a multiple of the least positive one. -/
theorem IsDouble.exists_mul_least (h : IsDouble x) : ∃ k : ℤ, x = k * 2 ^ (-1074 : ℤ) := by
  obtain ⟨m, e, -, he, rfl⟩ := h
  refine ⟨m * 2 ^ (e + 1074).toNat, ?_⟩
  have hexp : ((e + 1074).toNat : ℤ) + -1074 = e := by omega
  push_cast
  rw [mul_assoc, ← zpow_natCast, ← zpow_add₀ two_ne_zero, hexp]

theorem IsDouble.le_sub {y : ℝ} (hx : IsDouble x) (hy : IsDouble y) (h : x < y) :
    2 ^ (-1074 : ℤ) ≤ y - x := by
  obtain ⟨k, rfl⟩ := hx.exists_mul_least
  obtain ⟨l, rfl⟩ := hy.exists_mul_least
  have hkl : k + 1 ≤ l := by
    exact_mod_cast lt_of_mul_lt_mul_right h (by positivity)
  have hstep : (1 : ℝ) ≤ l - k := by
    have : ((k + 1 : ℤ) : ℝ) ≤ l := Int.cast_le.2 hkl
    push_cast at this
    linarith
  rw [← sub_mul]
  exact le_mul_of_one_le_left (by positivity) hstep

theorem IsDouble.least_le (hx : IsDouble x) (h : 0 < x) : 2 ^ (-1074 : ℤ) ≤ x := by
  have := IsDouble.le_sub ⟨0, 0, by norm_num, by norm_num, by norm_num⟩ hx h
  rwa [sub_zero] at this

end Multiples

end NoisyCover
