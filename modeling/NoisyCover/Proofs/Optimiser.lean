import Mathlib
import NoisyCover.Proofs.Decoding
import NoisyCover.Proofs.Optimality

/-!
# Solving covering programs in doubles

An optimiser refuses a request when a coefficient of its objective is not finite, and otherwise
gives an optimal assignment of zeros and ones, or nothing when no assignment is feasible
(`MilpRequest.IsAnsweredBy`).  In doubles a coefficient is infinite when its candidate is negligible
(`forall_isFinite_objective_iff`), and the solver takes the refusal for a program without a
solution.  So it answers a covering program with an assignment that covers everything when no item
is isolated and no candidate is negligible, and with nothing otherwise (`solve_isSound`).
-/

namespace NoisyCover

open BinaryProgram Std.Do

section Contract

variable {K : Type} (value : K → Option EReal)

/-- The real number that a number stands for, if it is finite. -/
noncomputable def realOf (x : K) : ℝ := ((value x).getD 0).toReal

theorem realOf_eq {x : K} {a : ℝ} (h : value x = some (a : EReal)) : realOf value x = a := by
  rw [realOf, h]
  rfl

/-- The program that an optimiser is asked to solve, in real numbers. -/
noncomputable def MilpRequest.program (r : MilpRequest K) : BinaryProgram ℝ where
  objective := r.objective.map (realOf value)
  rows := (r.rows.getD []).map fun row => row.map (realOf value)
  integrality := r.integrality
  items := []

/-- What an optimiser may reply: it refuses a request with a coefficient that is not finite, and
solves every other request. -/
def MilpRequest.IsAnsweredBy (r : MilpRequest K) : Except OptimiserFault (MilpReply K) → Prop
  | .error .rejected => ∃ x ∈ r.objective, ∀ a : ℝ, value x ≠ some (a : EReal)
  | .error .failed => False
  | .ok ⟨none, _⟩ =>
    (∀ x ∈ r.objective, ∃ a : ℝ, value x = some (a : EReal)) ∧
      ∀ values, ¬ (r.program value).IsFeasible values
  | .ok ⟨some values, _⟩ =>
    (∀ x ∈ r.objective, ∃ a : ℝ, value x = some (a : EReal)) ∧
      (∀ x ∈ values, ∃ a : ℝ, value x = some (a : EReal)) ∧
      (r.program value).IsOptimal (values.map (realOf value))

/-- A probability so small that the odds against it are infinite in doubles. -/
inductive IsNegligible (p : K) : Prop
  | intro (a : ℝ) (value_eq : value p = some (a : EReal)) (le : a ≤ 2 ^ (-1024 : ℤ))

/-- A transaction is in reach when no item is isolated and no candidate is negligible. -/
def InReach (pool : Pool K) (t : Transaction) : Prop :=
  isolatedItems pool t = [] ∧ ∀ c ∈ pool.candidates, ¬ IsNegligible value c.2

end Contract

section Reals

variable {K : Type} [Arithmetic K] (R : Rounding K) {pool : Pool K} {t : Transaction}
variable {values : List ℝ}

noncomputable def Rounding.realPool (pool : Pool K) : Pool ℝ where
  candidates := pool.candidates.map fun c => (c.1, realOf R.value c.2)
  nodup := by
    rw [List.map_map]
    exact pool.nodup

theorem Rounding.length_realPool (pool : Pool K) :
    (R.realPool pool).candidates.length = pool.candidates.length := List.length_map _

theorem BinaryProgram.isFeasible_congr {p q : BinaryProgram ℝ}
    (hcount : p.variableCount = q.variableCount) (hrows : p.rows = q.rows) :
    p.IsFeasible values ↔ q.IsFeasible values := by
  constructor
  · rintro ⟨hassign, hreach⟩
    exact ⟨hcount ▸ hassign, hrows ▸ hreach⟩
  · rintro ⟨hassign, hreach⟩
    exact ⟨hcount ▸ hassign, hrows ▸ hreach⟩

theorem Rounding.rowOf_realPool (i : Item) :
    (rowOf pool.candidates i).map (realOf R.value) = rowOf (R.realPool pool).candidates i := by
  have hone : realOf R.value 1 = 1 := realOf_eq R.value R.value_one
  have hzero : realOf R.value 0 = 0 := realOf_eq R.value R.value_zero
  rw [rowOf, rowOf, realPool, List.map_map, List.map_map]
  refine List.map_congr_left fun c _ => ?_
  simp only [Function.comp_apply]
  split_ifs
  · exact hone
  · exact hzero

/-- The program that the optimiser is asked to solve is the covering program of the real pool, up to
its objective. -/
theorem isFeasible_request_iff (s : MilpSolver) (limit : Option Float) :
    ((s.request limit (logOddsProgram pool t)).program R.value).IsFeasible values ↔
      (coveringProgram (R.realPool pool) t).IsFeasible values := by
  refine isFeasible_congr ?_ ?_
  · simp [variableCount, MilpRequest.program, MilpSolver.request, logOddsProgram, coveringProgram,
      Rounding.realPool]
  · have hrows : (s.request limit (logOddsProgram pool t)).rows.getD [] =
        t.map (rowOf pool.candidates) := by
      cases t <;> rfl
    rw [MilpRequest.program, hrows, List.map_map]
    exact List.map_congr_left fun i _ => R.rowOf_realPool i

/-- Switching every candidate on covers every item that is not isolated. -/
theorem exists_isFeasible (h : isolatedItems pool t = []) :
    ∃ values, (coveringProgram (R.realPool pool) t).IsFeasible values := by
  refine ⟨indicator _ (SortedSet.ofList pool.itemsets), isFeasible_indicator_iff.2 fun i hi => ?_⟩
  obtain ⟨s, hs, his⟩ := (isolatedItems_eq_nil_iff pool).1 h i hi
  obtain ⟨c, hc, rfl⟩ := List.mem_map.1 hs
  exact ⟨(c.1, realOf R.value c.2), List.mem_map_of_mem hc, SortedSet.mem_ofList.2 hs, his⟩

end Reals

section Sound

variable {K : Type} [Arithmetic K] (R : Double.RoundsToDoubles K) {pool : Pool K}
variable {t : Transaction}

/-- An answer to the covering program of a pool: an assignment that covers everything, or nothing
when the transaction is out of reach. -/
def SolverAnswer.IsSound (answer : SolverAnswer K) (pool : Pool K) (t : Transaction) : Prop :=
  match answer.values with
  | .error _ => False
  | .ok none => ¬ InReach R.value pool t
  | .ok (some values) =>
    InReach R.value pool t ∧ (∀ x ∈ values, R.IsFinite x) ∧
      (coveringProgram (R.realPool pool) t).IsFeasible (values.map (realOf R.value))

theorem forall_isFinite_objective_iff (hopen : ∀ c ∈ pool.candidates, 0 < c.2 ∧ c.2 < 1) :
    (∀ x ∈ (logOddsProgram pool t).objective, R.IsFinite x) ↔
      ∀ c ∈ pool.candidates, ¬ IsNegligible R.value c.2 := by
  rw [logOddsProgram, List.forall_mem_map]
  refine forall₂_congr fun c hc => ?_
  obtain ⟨h0, h1⟩ := hopen c hc
  obtain ⟨a, -, -, ha⟩ := R.value_of_open h0 h1
  rw [R.isFinite_logOdds_iff h0 h1, ne_eq, R.value_odds_eq_top_iff h0 h1 ha, not_iff_not]
  constructor
  · exact fun h => ⟨a, ha, h⟩
  · rintro ⟨b, hb, h⟩
    obtain rfl := EReal.coe_injective (Option.some.inj (ha.symm.trans hb))
    exact h

theorem interpret_isSound (hopen : ∀ c ∈ pool.candidates, 0 < c.2 ∧ c.2 < 1)
    (hisolated : isolatedItems pool t = []) {s : MilpSolver} {limit : Option Float}
    {reply : Except OptimiserFault (MilpReply K)}
    (h : (s.request limit (logOddsProgram pool t)).IsAnsweredBy R.value reply) :
    (MilpSolver.interpret (logOddsProgram pool t).variableCount reply).IsSound R pool t := by
  have hobjective := forall_isFinite_objective_iff R (t := t) hopen
  rcases reply with fault | ⟨values, proven⟩
  · cases fault
    · -- a refusal is interpreted as a program without a solution
      obtain ⟨x, hx, hinfinite⟩ := h
      intro hreach
      obtain ⟨a, ha⟩ := hobjective.2 hreach.2 x hx
      exact hinfinite a ha
    · exact h.elim
  · rcases values with _ | values
    · obtain ⟨-, hnone⟩ := h
      obtain ⟨all, hall⟩ := exists_isFeasible R.toRounding hisolated
      exact absurd ((isFeasible_request_iff R.toRounding s limit).2 hall) (hnone all)
    · obtain ⟨hfinite, hvalues, hoptimal⟩ := h
      have hfeasible := (isFeasible_request_iff R.toRounding s limit).1 hoptimal.toIsFeasible
      have hlength : values.length = (logOddsProgram pool t).variableCount := by
        have := hoptimal.assignment.length_eq
        rw [List.length_map] at this
        exact this.trans (List.length_map _)
      have hinterpret : (MilpSolver.interpret (logOddsProgram pool t).variableCount
          (.ok ⟨some values, proven⟩)).values = .ok (some values) := by
        simp only [MilpSolver.interpret, if_pos hlength]
      rw [SolverAnswer.IsSound, hinterpret]
      exact ⟨⟨hisolated, hobjective.1 hfinite⟩, hvalues, hfeasible⟩

variable {m : Type → Type v} {ps : PostShape} [Monad m] [WPMonad m ps] {s : MilpSolver}
variable {limit : Option Float} {optimise : Optimiser m K}

/-- An answer is for an empty row, for a program without variables, or what the optimiser's reply is
taken for. -/
theorem attempt_of_cases {p : BinaryProgram K} {Good : SolverAnswer K → Prop}
    (hlimit : s.limit = .ok limit)
    (hempty : p.hasEmptyRow = true → Good ⟨.ok none, [.emptyRow]⟩)
    (hnil : ¬ p.hasEmptyRow = true → p.variableCount = 0 →
      Good ⟨.ok (if p.constraintCount = 0 then some [] else none), []⟩)
    (hasked : ¬ p.hasEmptyRow = true → p.variableCount ≠ 0 →
      ⦃⌜True⌝⦄ optimise (s.request limit p)
      ⦃⇓ reply => ⌜Good (MilpSolver.interpret p.variableCount reply)⌝⦄) :
    ⦃⌜True⌝⦄ s.attempt optimise p ⦃⇓ answer => ⌜Good answer⌝⦄ := by
  unfold MilpSolver.attempt
  by_cases hrow : p.hasEmptyRow = true
  · rw [if_pos hrow]
    exact Triple.pure _ (SPred.pure_intro (hempty hrow))
  rw [if_neg hrow]
  by_cases hcount : p.variableCount = 0
  · rw [if_pos hcount]
    exact Triple.pure _ (SPred.pure_intro (hnil hrow hcount))
  · rw [if_neg hcount, hlimit]
    refine Triple.bind _ _ (hasked hrow hcount) fun reply => ?_
    exact Triple.pure _ (SPred.pure_mono id)

theorem attempt_isSound (hlimit : s.limit = .ok limit)
    (hoptimise : ∀ r, ⦃⌜True⌝⦄ optimise r ⦃⇓ reply => ⌜r.IsAnsweredBy R.value reply⌝⦄)
    (hopen : ∀ c ∈ pool.candidates, 0 < c.2 ∧ c.2 < 1) :
    ⦃⌜True⌝⦄ s.attempt optimise (logOddsProgram pool t)
    ⦃⇓ answer => ⌜answer.IsSound R pool t⌝⦄ := by
  have hempty := R.hasEmptyRow_iff (p := logOddsProgram pool t) rfl rfl
  have hcovered : ¬ (logOddsProgram pool t).hasEmptyRow = true → isolatedItems pool t = [] :=
    fun hrow => not_not.1 fun hne => hrow (hempty.2 hne)
  refine attempt_of_cases hlimit (fun hrow hreach => hempty.1 hrow hreach.1)
    (fun hrow hcount => ?_) (fun hrow hcount => ?_)
  · -- without candidates there are no items either, and nothing has to be selected
    have hisolated := hcovered hrow
    have hnone : pool.candidates = [] :=
      List.length_eq_zero_iff.1 ((List.length_map _).symm.trans hcount)
    have ht : t = [] := List.eq_nil_iff_forall_not_mem.2 fun i hi => by
      obtain ⟨s, hs, -⟩ := (isolatedItems_eq_nil_iff pool).1 hisolated i hi
      rw [Pool.itemsets, hnone] at hs
      cases hs
    have hconstraint : (logOddsProgram pool t).constraintCount = 0 := by
      rw [ht]
      rfl
    have hfeasible : (coveringProgram (R.realPool pool) t).IsFeasible [] := by
      refine ⟨⟨?_, by simp⟩, ?_⟩
      · rw [coveringProgram_variableCount, Rounding.length_realPool, hnone]
        rfl
      · rw [ht]
        simp [coveringProgram]
    rw [if_pos hconstraint]
    exact ⟨⟨hisolated, by simp [hnone]⟩, by simp, hfeasible⟩
  · exact triple_mono (hoptimise _) fun reply h => interpret_isSound R hopen (hcovered hrow) h

end Sound

section Counting

variable {K : Type} [Arithmetic K] (R : Double.RoundsToDoubles K) {x : K} {values : List K}

theorem nearBit_of_bit (hx : R.IsFinite x) (h : realOf R.value x = 0 ∨ realOf R.value x = 1) :
    R.NearBit x := by
  obtain ⟨a, ha⟩ := hx
  rw [realOf_eq R.value ha] at h
  refine ⟨a, ha, ?_⟩
  rcases h with rfl | rfl <;> norm_num

theorem selectedCount_ok (hfinite : ∀ x ∈ values, R.IsFinite x)
    (hbits : ∀ x ∈ values, realOf R.value x = 0 ∨ realOf R.value x = 1)
    (hlength : values.length < 2 ^ 53) :
    ∃ n, MilpSolver.selectedCount (some values) = .ok n :=
  ⟨_, selectedCount_eq R (fun x hx => nearBit_of_bit R (hfinite x hx) (hbits x hx))
    (List.countP_le_length.trans_lt hlength)⟩

end Counting

section Solver

variable {K : Type} [Arithmetic K] (R : Double.RoundsToDoubles K) {pool : Pool K}
variable {t : Transaction} {m : Type → Type v} {ps : PostShape} [Monad m] [WPMonad m ps]
variable {s : MilpSolver} {limit : Option Float} {now : m K} {optimise : Optimiser m K}
variable {solves : Option (SolveLog K)}

theorem SolverAnswer.IsSound.selectedCount_ok {answer : SolverAnswer K} {values : Option (List K)}
    (h : answer.IsSound R pool t) (hvalues : answer.values = .ok values)
    (hsize : pool.candidates.length < 2 ^ 53) :
    ∃ n, MilpSolver.selectedCount values = .ok n := by
  rw [IsSound, hvalues] at h
  rcases values with _ | values
  · exact ⟨0, rfl⟩
  · obtain ⟨-, hfinite, hfeasible⟩ := h
    have hlength : values.length = pool.candidates.length := by
      rw [← R.length_realPool, ← coveringProgram_variableCount _ t,
        ← hfeasible.assignment.length_eq, List.length_map]
    refine NoisyCover.selectedCount_ok R hfinite (fun x hx => ?_) (hlength.trans_lt hsize)
    exact hfeasible.assignment.zero_or_one _ (List.mem_map_of_mem hx)

/-- Timing a solver leaves its answers as they are, as long as all of them can be counted. -/
theorem solve_of_attempt {p : BinaryProgram K} {Good : SolverAnswer K → Prop}
    (hnow : ⦃⌜True⌝⦄ now ⦃⇓ _ => ⌜True⌝⦄)
    (hattempt : ⦃⌜True⌝⦄ s.attempt optimise p ⦃⇓ answer => ⌜Good answer⌝⦄)
    (hcount : solves = none ∨ ∀ answer values, Good answer → answer.values = .ok values →
      ∃ n, MilpSolver.selectedCount values = .ok n) :
    ⦃⌜True⌝⦄ s.solve now optimise p solves ⦃⇓ r => ⌜Good r.1⌝⦄ := by
  unfold MilpSolver.solve
  refine Triple.bind _ _ hnow fun start => ?_
  refine Triple.bind _ _ hattempt fun answer => ?_
  refine Triple.iff.2 (SPred.pure_elim' fun hgood => Triple.iff.1 ?_)
  rcases hvalues : answer.values with fault | values
  · exact Triple.pure _ (SPred.pure_intro hgood)
  rcases solves with _ | calls
  · exact Triple.pure _ (SPred.pure_intro hgood)
  refine Triple.bind _ _ hnow fun stop => ?_
  obtain ⟨n, hn⟩ := hcount.resolve_left (by simp) answer values hgood hvalues
  rw [hn]
  exact Triple.pure _ (SPred.pure_intro hgood)

theorem solve_isSound (hlimit : s.limit = .ok limit)
    (hnow : ⦃⌜True⌝⦄ now ⦃⇓ _ => ⌜True⌝⦄)
    (hoptimise : ∀ r, ⦃⌜True⌝⦄ optimise r ⦃⇓ reply => ⌜r.IsAnsweredBy R.value reply⌝⦄)
    (hopen : ∀ c ∈ pool.candidates, 0 < c.2 ∧ c.2 < 1)
    (hsolves : solves = none ∨ pool.candidates.length < 2 ^ 53) :
    ⦃⌜True⌝⦄ s.solve now optimise (logOddsProgram pool t) solves
    ⦃⇓ r => ⌜r.1.IsSound R pool t⌝⦄ := by
  refine solve_of_attempt hnow (attempt_isSound R hlimit hoptimise hopen) ?_
  exact hsolves.imp_right fun hsize _ _ h hvalues => h.selectedCount_ok R hvalues hsize

end Solver

end NoisyCover
