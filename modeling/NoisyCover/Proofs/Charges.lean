import Mathlib
import NoisyCover.PrimalDual
import NoisyCover.Proofs.Rounding

/-!
# When a cost can be computed

Both costs that inference reports are running totals over the candidates, and a running total fails
exactly when one of its steps does (`exists_foldlM_ok_iff`).  A candidate that can take part always
has a cost when it is switched on, and has one when it is left off exactly if its probability is
below one.  So a covering has a cost exactly when it leaves out no candidate of probability one or
more (`Pool.exists_cost_iff`), and a primal-dual run reports a cost exactly when its selection
leaves out none (`PrimalDual.Run.exists_cost_iff`).
-/

namespace NoisyCover

theorem exists_foldlM_ok_iff {α β ε : Type*} {step : β → α → Except ε β} {P : α → Prop} :
    ∀ (l : List α), (∀ a ∈ l, ∀ b, (∃ r, step b a = .ok r) ↔ P a) →
      ∀ b, (∃ r, l.foldlM step b = .ok r) ↔ ∀ a ∈ l, P a
  | [], _, b => iff_of_true ⟨b, rfl⟩ (by simp)
  | a :: l, h, b => by
    obtain ⟨ha, hl⟩ := List.forall_mem_cons.1 h
    rw [List.foldlM_cons, List.forall_mem_cons, ← ha b]
    rcases hstep : step b a with e | r
    · simp [bind, Except.bind]
    · rw [← exists_foldlM_ok_iff l hl r]
      simp [bind, Except.bind]

theorem exists_foldlM_ok {α β ε : Type*} {step : β → α → Except ε β} {P : β → Prop} :
    ∀ (l : List α), (∀ a ∈ l, ∀ b, P b → ∃ r, step b a = .ok r ∧ P r) →
      ∀ b, P b → ∃ r, l.foldlM step b = .ok r ∧ P r
  | [], _, b, hb => ⟨b, rfl, hb⟩
  | a :: l, h, b, hb => by
    obtain ⟨ha, hl⟩ := List.forall_mem_cons.1 h
    obtain ⟨r, hr, hP⟩ := ha b hb
    rw [List.foldlM_cons, hr]
    exact exists_foldlM_ok l hl r hP

theorem exists_mapM_ok_iff {α β ε : Type*} {f : α → Except ε β} : ∀ l : List α,
    (∃ r, l.mapM f = .ok r) ↔ ∀ a ∈ l, ∃ b, f a = .ok b
  | [] => iff_of_true ⟨[], rfl⟩ (by simp)
  | a :: l => by
    rw [List.mapM_cons, List.forall_mem_cons, ← exists_mapM_ok_iff l]
    rcases f a with e | b
    · simp [bind, Except.bind]
    · rcases l.mapM f with e | r
      · simp [bind, Except.bind]
      · simp [bind, Except.bind, pure, Except.pure]

theorem exists_map_ok_iff {α β ε : Type*} {x : Except ε α} {f : α → β} :
    (∃ r, x.map f = .ok r) ↔ ∃ a, x = .ok a := by
  cases x <;> simp [Except.map]

theorem map_eq_ok_iff {α β ε : Type*} {x : Except ε α} {f : α → β} {b : β} :
    x.map f = .ok b ↔ ∃ a, x = .ok a ∧ f a = b := by
  cases x <;> simp [Except.map]

theorem bind_eq_ok_iff {α β ε : Type*} {x : Except ε α} {f : α → Except ε β} {b : β} :
    x.bind f = .ok b ↔ ∃ a, x = .ok a ∧ f a = .ok b := by
  cases x <;> simp [Except.bind]

theorem bind_eq_error_iff {α β ε : Type*} {x : Except ε α} {f : α → Except ε β} {e : ε} :
    x.bind f = .error e ↔ x = .error e ∨ ∃ a, x = .ok a ∧ f a = .error e := by
  cases x <;> simp [Except.bind]

theorem map_eq_error_iff {α β ε : Type*} {x : Except ε α} {f : α → β} {e : ε} :
    x.map f = .error e ↔ x = .error e := by
  cases x <;> simp [Except.map]

section Costs

variable {K : Type u} [Arithmetic K] (R : Rounding K) {pool : Pool K} {p : K}

theorem Pool.pos_of_mem_within {t : Transaction} :
    ∀ c ∈ (pool.within t).candidates, 0 < c.2 :=
  fun _ hc => (mem_within.1 hc).2.1

include R

theorem exists_costOff_iff (h : 0 < p) : (∃ x, costOff p = .ok x) ↔ p < 1 := by
  by_cases h1 : p < 1
  · exact iff_of_true ⟨_, R.costOff_eq h h1⟩ h1
  · rw [R.costOff_eq_error h h1]
    exact iff_of_false (by simp) h1

theorem exists_candidateCost_iff {c : Candidate K} (h : 0 < c.2) (covering : Covering) :
    (∃ x, candidateCost covering c = .ok x) ↔ (c.1 ∉ covering → c.2 < 1) := by
  unfold candidateCost
  split_ifs with hc
  · exact iff_of_true ⟨_, R.costOn_eq h⟩ fun hout => absurd hc hout
  · rw [exists_costOff_iff R h]
    exact ⟨fun hlt _ => hlt, fun hlt => hlt hc⟩

/-- A covering has a cost exactly when every candidate it leaves out has a probability below one. -/
theorem Pool.exists_cost_iff (hpos : ∀ c ∈ pool.candidates, 0 < c.2) (covering : Covering) :
    (∃ x, pool.cost covering = .ok x) ↔
      ∀ c ∈ pool.candidates, c.1 ∉ covering → c.2 < 1 := by
  refine exists_foldlM_ok_iff _ (fun c hc total => ?_) 0
  rw [exists_map_ok_iff, exists_candidateCost_iff R (hpos c hc)]

/-- A run reports a cost exactly when every candidate it leaves out has a probability below one. -/
theorem PrimalDual.Run.exists_cost_iff {σ : Type} (r : Run K σ)
    (hpos : ∀ c ∈ pool.candidates, 0 < c.2) :
    (∃ x, r.cost pool.candidates = .ok x) ↔
      ∀ c ∈ pool.candidates, c.1 ∉ r.selection → c.2 < 1 := by
  refine exists_foldlM_ok_iff _ (fun c hc total => ?_) r.dualTotal
  split_ifs with hs
  · exact iff_of_true ⟨_, rfl⟩ fun hout => absurd hs hout
  · rw [exists_map_ok_iff, exists_costOff_iff R (hpos c hc)]
    exact ⟨fun hlt _ => hlt, fun hlt => hlt hs⟩

end Costs

end NoisyCover
