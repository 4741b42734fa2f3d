import Mathlib
import NoisyCover.Inference
import NoisyCover.Proofs.Charges
import NoisyCover.Proofs.Decoding
import NoisyCover.Proofs.Incidence
import NoisyCover.Proofs.Rows

/-!
# How inference fails

All that can go wrong while costs are added up is a logarithm of a number that is not positive, and
it goes wrong for a candidate that is left off although its probability is one or more
(`Pool.cost_eq_error_iff`, `PrimalDual.Run.cost_eq_error_iff`).  A program fails to be built in the
same way, since the odds of a candidate are never a division by zero (`build_eq_error_iff`).  Exact
inference hands on what its solver fails with, and fails on a value of the solver that has no
nearest integer; otherwise it reports the cost of its selection (`conclude_cost_cases`).
-/

namespace NoisyCover

section Single

variable {α β : Type u} {x : Except Fault α} {fault : Fault}

/-- A computation that never fails with anything but one fault. -/
def FailsOnlyWith (fault : Fault) (x : Except Fault α) : Prop := ∀ f, x = .error f → f = fault

theorem failsOnlyWith_ok (a : α) : FailsOnlyWith fault (.ok a) := fun _ h => by cases h

theorem failsOnlyWith_error : FailsOnlyWith fault (.error fault : Except Fault α) := fun _ h =>
  (Except.error.inj h).symm

theorem FailsOnlyWith.eq_error_iff (h : FailsOnlyWith fault x) {f : Fault} :
    x = .error f ↔ f = fault ∧ ¬ ∃ a, x = .ok a := by
  constructor
  · rintro rfl
    exact ⟨h f rfl, by simp⟩
  · rintro ⟨rfl, hnone⟩
    rcases hx : x with f' | a
    · rw [h f' hx]
    · exact absurd ⟨a, hx⟩ hnone

/-- What succeeds unless an element of a list is bad fails exactly when one is. -/
theorem FailsOnlyWith.eq_error_iff_exists {γ : Type v} {l : List γ} {bad : γ → Prop}
    (h : FailsOnlyWith fault x) (hx : (∃ a, x = .ok a) ↔ ∀ c ∈ l, ¬ bad c) {f : Fault} :
    x = .error f ↔ f = fault ∧ ∃ c ∈ l, bad c := by
  rw [h.eq_error_iff, hx]
  push Not
  rfl

theorem FailsOnlyWith.bind {g : α → Except Fault β} (h : FailsOnlyWith fault x)
    (hg : ∀ a, FailsOnlyWith fault (g a)) : FailsOnlyWith fault (x >>= g) := by
  rcases x with f | a
  · rw [h f rfl]
    exact failsOnlyWith_error
  · exact hg a

theorem FailsOnlyWith.map (h : FailsOnlyWith fault x) (g : α → β) :
    FailsOnlyWith fault (x.map g) := by
  rcases x with f | a
  · rw [h f rfl]
    exact failsOnlyWith_error
  · exact failsOnlyWith_ok _

theorem failsOnlyWith_foldlM {step : β → α → Except Fault β} :
    ∀ (l : List α), (∀ a ∈ l, ∀ b, FailsOnlyWith fault (step b a)) →
      ∀ b, FailsOnlyWith fault (l.foldlM step b)
  | [], _, b => failsOnlyWith_ok b
  | a :: l, h, b => by
    obtain ⟨ha, hl⟩ := List.forall_mem_cons.1 h
    rw [List.foldlM_cons]
    exact (ha b).bind fun r => failsOnlyWith_foldlM l hl r

theorem failsOnlyWith_mapM {g : α → Except Fault β} :
    ∀ (l : List α), (∀ a ∈ l, FailsOnlyWith fault (g a)) → FailsOnlyWith fault (l.mapM g)
  | [], _ => failsOnlyWith_ok []
  | a :: l, h => by
    obtain ⟨ha, hl⟩ := List.forall_mem_cons.1 h
    rw [List.mapM_cons]
    exact ha.bind fun r => (failsOnlyWith_mapM l hl).bind fun rs => failsOnlyWith_ok (r :: rs)

end Single

section Logarithms

variable {K : Type} [Arithmetic K] (R : Rounding K) {pool : Pool K} {t : Transaction} {p : K}
  {f : Fault}

theorem failsOnlyWith_checkedLog (x : K) :
    FailsOnlyWith .logOfNonpositive (Arithmetic.checkedLog x) := by
  unfold Arithmetic.checkedLog
  split_ifs
  · exact failsOnlyWith_error
  · exact failsOnlyWith_ok _

theorem failsOnlyWith_costOff (p : K) : FailsOnlyWith .logOfNonpositive (costOff p) :=
  (failsOnlyWith_checkedLog _).map _

theorem failsOnlyWith_cost (pool : Pool K) (covering : Covering) :
    FailsOnlyWith .logOfNonpositive (pool.cost covering) := by
  refine failsOnlyWith_foldlM _ (fun c _ total => FailsOnlyWith.map ?_ _) 0
  unfold candidateCost
  split_ifs
  · exact (failsOnlyWith_checkedLog _).map _
  · exact failsOnlyWith_costOff _

theorem PrimalDual.Run.failsOnlyWith_cost {σ : Type} (r : Run K σ)
    (candidates : List (Candidate K)) :
    FailsOnlyWith .logOfNonpositive (r.cost candidates) := by
  refine failsOnlyWith_foldlM _ (fun c _ total => ?_) r.dualTotal
  split_ifs
  · exact failsOnlyWith_ok _
  · exact (failsOnlyWith_costOff _).map _

include R

theorem exists_logOddsAgainst_iff (h : 0 < p) :
    (∃ x, logOddsAgainst p = .ok x) ↔ ¬ (1 - p) / p ≤ 0 := by
  rw [R.logOddsAgainst_eq_checkedLog h, Arithmetic.checkedLog]
  split_ifs with hle
  · exact iff_of_false (by simp) (not_not.2 hle)
  · exact iff_of_true ⟨_, rfl⟩ hle

theorem imp_lt_one_iff {left : Prop} (h : 0 < p) : (left → p < 1) ↔ ¬ (1 ≤ p ∧ left) := by
  rw [← R.not_lt_one_iff h, and_comm, not_and, not_not]

/-- A cost fails exactly for a covering that leaves out a candidate of probability one or more. -/
theorem Pool.cost_eq_error_iff (hpos : ∀ c ∈ pool.candidates, 0 < c.2) {covering : Covering} :
    pool.cost covering = .error f ↔
      f = .logOfNonpositive ∧ ∃ c ∈ pool.candidates, 1 ≤ c.2 ∧ c.1 ∉ covering := by
  refine (failsOnlyWith_cost pool covering).eq_error_iff_exists ?_
  rw [Pool.exists_cost_iff R hpos]
  exact forall₂_congr fun c hc => imp_lt_one_iff R (hpos c hc)

theorem PrimalDual.Run.cost_eq_error_iff {σ : Type} {r : Run K σ}
    (hpos : ∀ c ∈ pool.candidates, 0 < c.2) :
    r.cost pool.candidates = .error f ↔
      f = .logOfNonpositive ∧ ∃ c ∈ pool.candidates, 1 ≤ c.2 ∧ c.1 ∉ r.selection := by
  refine (r.failsOnlyWith_cost _).eq_error_iff_exists ?_
  rw [r.exists_cost_iff R hpos]
  exact forall₂_congr fun c hc => imp_lt_one_iff R (hpos c hc)

theorem build_eq_error_iff (hpos : ∀ c ∈ pool.candidates, 0 < c.2) :
    BinaryProgram.build pool t = .error f ↔
      f = .logOfNonpositive ∧ ∃ c ∈ pool.candidates, (1 - c.2) / c.2 ≤ 0 := by
  have hbuild : FailsOnlyWith .logOfNonpositive (BinaryProgram.build pool t) := by
    refine (failsOnlyWith_mapM _ fun c hc => ?_).map _
    rw [R.logOddsAgainst_eq_checkedLog (hpos c hc)]
    exact failsOnlyWith_checkedLog _
  refine hbuild.eq_error_iff_exists ?_
  rw [exists_build_iff]
  exact forall₂_congr fun c hc => exists_logOddsAgainst_iff R (hpos c hc)

end Logarithms

section Solvers

variable {K : Type u} [Arithmetic K] {pool : Pool K} {t : Transaction} {f : Fault}

/-- The solver fails, or one of its values has no nearest integer. -/
def SolverAnswer.FailsWith (answer : SolverAnswer K) (fault : Fault) : Prop :=
  answer.values = .error fault ∨
    ∃ values, answer.values = .ok (some values) ∧
      ∃ v ∈ values, Arithmetic.nearestInt v = .error fault

theorem exists_of_decode_eq_error : ∀ {candidates : List (Candidate K)} {values : List K},
    Exact.decode candidates values = .error f → ∃ v ∈ values, Arithmetic.nearestInt v = .error f
  | [], _, h | _ :: _, [], h => by cases h
  | c :: candidates, v :: values, h => by
    rw [Exact.decode] at h
    rcases hn : Arithmetic.nearestInt v with f' | n <;> rw [hn] at h
    · cases h
      exact ⟨v, List.mem_cons_self, hn⟩
    rcases hrest : Exact.decode candidates values with f' | rest <;> rw [hrest] at h
    · cases h
      obtain ⟨w, hw, hfault⟩ := exists_of_decode_eq_error hrest
      exact ⟨w, List.mem_cons_of_mem v hw, hfault⟩
    · cases h

/-- Exact inference reports a fault of its solver's answer, an infinite cost, or the cost of what it
selects. -/
theorem conclude_cost_cases (covering : Covering) (answer : SolverAnswer K) :
    (∃ fault, (Exact.conclude covering pool t answer).cost = .error fault ∧
        answer.FailsWith fault) ∨
      (Exact.conclude covering pool t answer).cost = .ok .infinite ∨
      ∃ selected, (Exact.conclude covering pool t answer).cost =
        ((pool.within t).cost selected).map .value := by
  rcases hvalues : answer.values with fault | _ | values
  · refine .inl ⟨fault, ?_, .inl hvalues⟩
    simp only [Exact.conclude, hvalues, Except.bind]
  · exact .inr (.inl (conclude_of_none covering hvalues).2)
  rcases hsets : Exact.decode (pool.within t).candidates values with fault | sets
  · refine .inl ⟨fault, ?_, .inr ⟨values, hvalues, exists_of_decode_eq_error hsets⟩⟩
    simp only [Exact.conclude, hvalues, Except.bind, Exact.selection, hsets, Except.map]
  · exact .inr (.inr ⟨_, (conclude_of_decode covering hvalues hsets).2⟩)

end Solvers

end NoisyCover
