import Mathlib
import NoisyCover.FirstLeast
import NoisyCover.Proofs.ExactCost

/-!
# What a scan for the least key finds

On keys of a total order, what a scan finds has the least key of all (`not_lt_firstLeast`), and it
finds something as soon as some key is below positive infinity (`firstLeast_eq_none_iff`).  Only the
keys that occur have to be comparable.
-/

namespace NoisyCover

variable {K : Type u} [Arithmetic K] {α : Type v}

/-- On the numbers with the property the order is total, and no number lies above positive
infinity. -/
structure TotalOn (P : K → Prop) : Prop where
  asymm : ∀ {x y : K}, P x → P y → x < y → ¬ y < x
  trans : ∀ {x y z : K}, P x → P y → P z → ¬ y < x → ¬ z < y → ¬ z < x
  top : ∀ {x y : K}, P x → P y → Arithmetic.bounded x = false → ¬ x < y

theorem TotalOn.mono {P Q : K → Prop} (hP : TotalOn P) (h : ∀ x, Q x → P x) : TotalOn Q where
  asymm hx hy := hP.asymm (h _ hx) (h _ hy)
  trans hx hy hz := hP.trans (h _ hx) (h _ hy) (h _ hz)
  top hx hy := hP.top (h _ hx) (h _ hy)

theorem totalOn_real : TotalOn fun _ : ℝ => True where
  asymm _ _ h := not_lt.2 (le_of_lt h)
  trans _ _ _ h h' := not_lt.2 (le_trans (not_lt.1 h) (not_lt.1 h'))
  top _ _ h := by cases h

section Least

variable {key : α → Option K} {P : K → Prop}

/-- One step of a scan leaves a key that neither the best one so far nor the next one is below. -/
theorem better_not_lt (hP : TotalOn P) {best : Option (α × K)} {a : α} {found : α × K}
    (hbest : ∀ b, best = some b → P b.2) (hkey : ∀ k, key a = some k → P k)
    (h : better key best a = some found) :
    P found.2 ∧ (∀ b, best = some b → ¬ b.2 < found.2) ∧
      ∀ k, key a = some k → ¬ k < found.2 := by
  have irrefl : ∀ {x : K}, P x → ¬ x < x := fun hx hlt => hP.asymm hx hx hlt hlt
  unfold better at h
  split at h
  · rename_i hk
    subst h
    refine ⟨hbest _ rfl, fun b hb => ?_, fun k hk' => ?_⟩
    · obtain rfl := Option.some.inj hb
      exact irrefl (hbest _ rfl)
    · rw [hk] at hk'
      cases hk'
  · rename_i k hk
    have hPk := hkey k hk
    split_ifs at h with hb
    · obtain rfl := Option.some.inj h
      refine ⟨hPk, fun b hbest' => ?_, fun k' hk' => ?_⟩
      · subst hbest'
        exact hP.asymm hPk (hbest b rfl) (of_decide_eq_true hb)
      · rw [hk] at hk'
        obtain rfl := Option.some.inj hk'
        exact irrefl hPk
    · subst h
      refine ⟨hbest _ rfl, fun b hb' => ?_, fun k' hk' => ?_⟩
      · obtain rfl := Option.some.inj hb'
        exact irrefl (hbest _ rfl)
      · rw [hk] at hk'
        obtain rfl := Option.some.inj hk'
        exact fun hlt => hb (decide_eq_true hlt)

theorem better_eq_none_iff {best : Option (α × K)} {a : α} :
    better key best a = none ↔
      best = none ∧ ∀ k, key a = some k → Arithmetic.bounded k = false := by
  unfold better
  rcases hk : key a with _ | k
  · simp
  · rcases best with _ | b
    · by_cases hb : Arithmetic.bounded k <;> simp [beats, hb]
    · by_cases hb : k < b.2 <;> simp [beats, hb]

theorem foldl_better_eq_none_iff : ∀ (l : List α) (start : Option (α × K)),
    l.foldl (better key) start = none ↔
      start = none ∧ ∀ a ∈ l, ∀ k, key a = some k → Arithmetic.bounded k = false
  | [], start => by simp
  | a :: l, start => by
    rw [List.foldl_cons, foldl_better_eq_none_iff l, better_eq_none_iff, and_assoc,
      List.forall_mem_cons]

/-- A scan finds nothing exactly when no key lies below positive infinity. -/
theorem firstLeast_eq_none_iff {l : List α} :
    firstLeast key l = none ↔ ∀ a ∈ l, ∀ k, key a = some k → Arithmetic.bounded k = false := by
  rw [firstLeast, foldl_better_eq_none_iff]
  exact and_iff_right rfl

theorem foldl_better_not_lt (hP : TotalOn P) {found : α × K} : ∀ (l : List α)
    (start : Option (α × K)), (∀ b, start = some b → P b.2) →
      (∀ a ∈ l, ∀ k, key a = some k → P k) → l.foldl (better key) start = some found →
      P found.2 ∧ (∀ b, start = some b → ¬ b.2 < found.2) ∧
        ∀ a ∈ l, ∀ k, key a = some k → ¬ k < found.2
  | [], start, hstart, _, h => by
    rw [List.foldl_nil] at h
    subst h
    have hfound := hstart found rfl
    refine ⟨hfound, fun b hb hlt => ?_, by simp⟩
    obtain rfl := Option.some.inj hb
    exact hP.asymm hfound hfound hlt hlt
  | a :: l, start, hstart, hkeys, h => by
    obtain ⟨ha, hl⟩ := List.forall_mem_cons.1 hkeys
    rw [List.foldl_cons] at h
    rcases hnext : better key start a with _ | next
    · obtain ⟨rfl, hunbounded⟩ := better_eq_none_iff.1 hnext
      obtain ⟨hfound, -, hrest⟩ := foldl_better_not_lt hP l (better key none a) (by simp [hnext])
        hl h
      refine ⟨hfound, by simp, List.forall_mem_cons.2 ⟨fun k hk => ?_, hrest⟩⟩
      exact hP.top (ha k hk) hfound (hunbounded k hk)
    · obtain ⟨hPnext, hbest, hkey⟩ := better_not_lt hP hstart ha hnext
      have hstart' : ∀ b, better key start a = some b → P b.2 := by
        intro b hb
        rw [hnext] at hb
        obtain rfl := Option.some.inj hb
        exact hPnext
      obtain ⟨hfound, hle, hrest⟩ := foldl_better_not_lt hP l _ hstart' hl h
      refine ⟨hfound, fun b hb => ?_, List.forall_mem_cons.2 ⟨fun k hk => ?_, hrest⟩⟩
      · exact hP.trans hfound hPnext (hstart b hb) (hle next hnext) (hbest b hb)
      · exact hP.trans hfound hPnext (ha k hk) (hle next hnext) (hkey k hk)

/-- No key lies below the key a scan finds. -/
theorem not_lt_firstLeast (hP : TotalOn P) {l : List α} {found : α × K}
    (hkeys : ∀ a ∈ l, ∀ k, key a = some k → P k) (h : firstLeast key l = some found) :
    ∀ a ∈ l, ∀ k, key a = some k → ¬ k < found.2 :=
  (foldl_better_not_lt hP l none (by simp) hkeys h).2.2

end Least

/-- Over the real numbers a scan finds the least key. -/
theorem firstLeast_le {key : α → Option ℝ} {l : List α} {found : α × ℝ}
    (h : firstLeast key l = some found) {a : α} (ha : a ∈ l) {k : ℝ} (hk : key a = some k) :
    found.2 ≤ k :=
  not_lt.1 (not_lt_firstLeast totalOn_real (fun _ _ _ _ => trivial) h a ha k hk)

/-- Over the real numbers a scan finds the element whose key is below all others. -/
theorem firstLeast_eq_some {key : α → Option ℝ} {l : List α} {a : α} {k : ℝ} (ha : a ∈ l)
    (hk : key a = some k) (hlt : ∀ b ∈ l, b ≠ a → ∀ k', key b = some k' → k < k') :
    firstLeast key l = some (a, k) := by
  rcases hfirst : firstLeast key l with _ | ⟨b, k'⟩
  · cases firstLeast_eq_none_iff.1 hfirst a ha k hk
  · obtain ⟨hmem, hkey⟩ := firstLeast_mem hfirst
    obtain rfl : b = a := by
      by_contra hne
      exact (hlt b hmem hne k' hkey).not_ge (firstLeast_le hfirst ha hk)
    obtain rfl := Option.some.inj (hk.symm.trans hkey)
    rfl

end NoisyCover
