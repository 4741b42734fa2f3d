import Mathlib
import NoisyCover.Proofs.Reordering

/-!
# The contract of a covering solver

A solver has to answer a program with a feasible assignment of least objective, or with nothing when
no assignment is feasible (`SolverAnswer.Minimises`).  When the rows are zeros and ones, switching
on every variable reaches every row that has a one in it, so some assignment is feasible exactly
when no row is empty (`exists_isFeasible_iff`).  The solver answers programs with an empty row or
without variables itself and asks its optimiser once for any other (`solve_keepRequests`); and if
the optimiser answers that, all answers are as they have to be (`solve_minimises`).
-/

namespace NoisyCover

open BinaryProgram Std.Do

section Requests

variable {K : Type} (value : K → Option EReal)

/-- Finite coefficients, and rows of zeros and ones with one entry for every variable. -/
structure IsBinaryData (objective : List K) (rows : List (List K)) : Prop where
  finite : ∀ x ∈ objective, ∃ a : ℝ, value x = some (a : EReal)
  length_eq : ∀ row ∈ rows, row.length = objective.length
  zero_or_one : ∀ row ∈ rows, ∀ x ∈ row, value x = some 0 ∨ value x = some 1

/-- A program with one row of zeros and ones for each item. -/
structure BinaryProgram.IsBinary (p : BinaryProgram K) : Prop extends
    IsBinaryData value p.objective p.rows where
  length_rows : p.rows.length = p.items.length

/-- A request for at least one variable, with rows of zeros and ones. -/
structure MilpRequest.IsBinary (r : MilpRequest K) : Prop extends
    IsBinaryData value r.objective (r.rows.getD []) where
  objective_ne_nil : r.objective ≠ []

variable {value} {p : BinaryProgram K} {s : MilpSolver} {limit : Option Float}

/-- A request leaves the rows out when there are no items, and then there are no rows. -/
theorem rows_request (h : p.rows.length = p.items.length) (s : MilpSolver)
    (limit : Option Float) : (s.request limit p).rows.getD [] = p.rows := by
  rw [MilpSolver.request, constraintCount, ← h]
  split_ifs with hzero
  · exact (List.length_eq_zero_iff.1 hzero).symm
  · rfl

theorem isFeasible_program_iff (h : p.rows.length = p.items.length) {values : List ℝ} :
    ((s.request limit p).program value).IsFeasible values ↔
      (p.reading value).IsFeasible values := by
  refine isFeasible_congr rfl ?_
  rw [MilpRequest.program, rows_request h]
  rfl

theorem BinaryProgram.IsBinary.request (h : p.IsBinary value) (hcount : p.variableCount ≠ 0)
    (s : MilpSolver) (limit : Option Float) : (s.request limit p).IsBinary value where
  toIsBinaryData := by
    rw [rows_request h.length_rows]
    exact h.toIsBinaryData
  objective_ne_nil hnil := hcount (congrArg List.length hnil)

theorem BinaryProgram.variableCount_reading (value : K → Option EReal) (p : BinaryProgram K) :
    (p.reading value).variableCount = p.variableCount :=
  List.length_map _

/-- With finite coefficients the objective of an assignment is a product of real numbers. -/
theorem objectiveAt_eq : ∀ {objective : List K} {values : List ℝ},
    (∀ x ∈ objective, ∃ a : ℝ, value x = some (a : EReal)) → (∀ x ∈ values, x = 0 ∨ x = 1) →
      ((objective.zip values).map fun cx => if cx.2 = 1 then (value cx.1).getD ⊤ else 0).sum =
        (dot (objective.map (realOf value)) values : EReal)
  | [], _, _, _ => by simp [dot]
  | _ :: _, [], _, _ => by simp [dot]
  | x :: objective, y :: values, hfinite, hbits => by
    obtain ⟨⟨a, ha⟩, hfinite⟩ := List.forall_mem_cons.1 hfinite
    obtain ⟨hy, hbits⟩ := List.forall_mem_cons.1 hbits
    rw [List.zip_cons_cons, List.map_cons, List.sum_cons, objectiveAt_eq hfinite hbits,
      List.map_cons, dot_cons, EReal.coe_add, realOf_eq value ha]
    rcases hy with rfl | rfl
    · simp
    · simp [ha]

end Requests

section Feasibility

theorem dot_replicate_one : ∀ row : List ℝ, dot row (List.replicate row.length 1) = row.sum
  | [] => rfl
  | a :: row => by
    rw [List.length_cons, List.replicate_succ, dot_cons, dot_replicate_one row, mul_one,
      List.sum_cons]

theorem dot_eq_zero : ∀ {row values : List ℝ}, (∀ a ∈ row, a = 0) → dot row values = 0
  | [], values, _ => dot_nil values
  | _ :: _, [], _ => rfl
  | a :: row, x :: values, h => by
    obtain ⟨ha, hrow⟩ := List.forall_mem_cons.1 h
    rw [dot_cons, dot_eq_zero hrow, ha, zero_mul, zero_add]

variable {K : Type} {value : K → Option EReal} {p : BinaryProgram K}

theorem realOf_eq_zero {x : K} (h : value x = some 0) : realOf value x = 0 := realOf_eq value h

theorem realOf_eq_one {x : K} (h : value x = some 1) : realOf value x = 1 := realOf_eq value h

/-- Switching on every variable reaches every row that has a one in it, and no assignment reaches
any other row. -/
theorem exists_isFeasible_iff (h : p.IsBinary value) :
    (∃ values, (p.reading value).IsFeasible values) ↔
      ¬ ∃ row ∈ p.rows, ∀ x ∈ row, value x = some 0 := by
  constructor
  · rintro ⟨values, -, hreaches⟩ ⟨row, hrow, hzero⟩
    have hreach := hreaches _ (List.mem_map_of_mem hrow)
    rw [dot_eq_zero (List.forall_mem_map.2 fun x hx => realOf_eq_zero (hzero x hx))] at hreach
    exact absurd hreach (not_le.2 zero_lt_one)
  · intro hnone
    refine ⟨List.replicate p.variableCount 1, ⟨?_, ?_⟩, List.forall_mem_map.2 fun row hrow => ?_⟩
    · rw [List.length_replicate, variableCount_reading]
    · exact fun x hx => .inr (List.eq_of_mem_replicate hx)
    · have hbits := h.zero_or_one row hrow
      have hone : ∃ x ∈ row, value x = some 1 := by
        by_contra hcon
        push Not at hcon
        exact hnone ⟨row, hrow, fun x hx => (hbits x hx).resolve_right (hcon x hx)⟩
      obtain ⟨x, hx, hone⟩ := hone
      have hcount : p.variableCount = (row.map (realOf value)).length := by
        rw [List.length_map, h.length_eq row hrow]
        rfl
      rw [hcount, dot_replicate_one]
      refine List.single_le_sum (List.forall_mem_map.2 fun y hy => ?_) 1
        (realOf_eq_one hone ▸ List.mem_map_of_mem hx)
      rcases hbits y hy with hy | hy
      · exact (realOf_eq_zero hy).ge
      · exact (realOf_eq_one hy).symm ▸ zero_le_one

theorem isFeasible_nil (hcount : p.variableCount = 0) (hrows : p.rows = []) :
    (p.reading value).IsFeasible [] := by
  refine ⟨⟨?_, by simp⟩, ?_⟩
  · rw [variableCount_reading, hcount]
    rfl
  · simp [BinaryProgram.reading, hrows]

/-- A program without variables has at most the empty assignment. -/
theorem isMinimiser_nil (hcount : p.variableCount = 0) (hrows : p.rows = []) :
    p.IsMinimiser value [] where
  feasible := isFeasible_nil hcount hrows
  least other hother := by
    have hlength := hother.assignment.length_eq
    rw [variableCount_reading, hcount] at hlength
    rw [List.length_eq_zero_iff.1 hlength]

end Feasibility

section Built

variable {K : Type} [Arithmetic K] (R : Double.RoundsToDoubles K)

/-- The covering program of a pool is such a program unless a candidate is negligible. -/
theorem build_isBinary {pool : Pool K} (hopen : ∀ c ∈ pool.candidates, 0 < c.2 ∧ c.2 < 1)
    (t : Transaction) : ∃ p, BinaryProgram.build pool t = .ok p ∧
      (p.IsBinary R.value ↔ ∀ c ∈ pool.candidates, ¬ IsNegligible R.value c.2) := by
  refine ⟨_, R.build_eq hopen t, ?_⟩
  rw [← forall_isFinite_objective_iff R (t := t) hopen]
  refine ⟨fun h => h.finite, fun hfinite => ⟨⟨hfinite, ?_, ?_⟩, List.length_map _⟩⟩
  · refine List.forall_mem_map.2 fun i _ => ?_
    rw [rowOf, logOddsProgram, List.length_map, List.length_map]
  · exact List.forall_mem_map.2 fun i _ => R.value_rowOf

end Built

section Asking

variable {K : Type} {m : Type → Type v} [Monad m]

/-- An optimiser that keeps the requests it is given. -/
def keepRequests (optimise : Optimiser m K) : Optimiser (StateT (List (MilpRequest K)) m) K :=
  fun r requests => do
    let reply ← optimise r
    return (reply, requests ++ [r])

theorem run_keepRequests [LawfulMonad m] (optimise : Optimiser m K) (r : MilpRequest K)
    (requests : List (MilpRequest K)) : (keepRequests optimise r).run requests =
      (fun reply => (reply, requests ++ [r])) <$> optimise r :=
  bind_pure_comp _ _

variable [Arithmetic K]

/-- What a solver asks of its optimiser for a program. -/
def MilpSolver.asks (s : MilpSolver) (limit : Option Float) (p : BinaryProgram K) :
    List (MilpRequest K) :=
  if p.variableCount ≠ 0 ∧ p.hasEmptyRow = false then [s.request limit p] else []

variable [LawfulMonad m] {s : MilpSolver} {limit : Option Float} {now : m K}
  {optimise : Optimiser m K} {p : BinaryProgram K}

theorem attempt_keepRequests (hlimit : s.limit = .ok limit) (requests : List (MilpRequest K)) :
    (s.attempt (keepRequests optimise) p).run requests =
      (fun answer => (answer, requests ++ s.asks limit p)) <$> s.attempt optimise p := by
  unfold MilpSolver.attempt MilpSolver.asks
  by_cases hrow : p.hasEmptyRow = true
  · simp [hrow]
  by_cases hcount : p.variableCount = 0
  · simp [hrow, hcount]
  · rw [if_neg hrow, if_neg hcount, if_neg hrow, if_neg hcount, hlimit,
      if_pos ⟨hcount, Bool.eq_false_of_not_eq_true hrow⟩]
    simp only [StateT.run_bind, StateT.run_pure, run_keepRequests, bind_map_left, map_bind,
      map_pure]

/-- The solver asks its optimiser once or not at all. -/
theorem solve_keepRequests (hlimit : s.limit = .ok limit) (solves : Option (SolveLog K))
    (requests : List (MilpRequest K)) :
    (s.solve (StateT.lift now) (keepRequests optimise) p solves).run requests =
      (fun r => (r, requests ++ s.asks limit p)) <$> s.solve now optimise p solves := by
  unfold MilpSolver.solve
  simp only [StateT.run_bind, StateT.run_lift, attempt_keepRequests hlimit, bind_assoc, pure_bind,
    bind_map_left, map_bind]
  refine bind_congr fun start => bind_congr fun answer => ?_
  rcases answer.values with fault | values
  · simp only [StateT.run_pure, map_pure]
  rcases solves with _ | calls
  · simp only [StateT.run_pure, map_pure]
  simp only [StateT.run_bind, StateT.run_lift, bind_assoc, pure_bind, map_bind]
  refine bind_congr fun stop => ?_
  rcases MilpSolver.selectedCount values with fault | selected <;>
    simp only [StateT.run_pure, map_pure]

end Asking

section Solver

variable {K : Type} {value : K → Option EReal} {p : BinaryProgram K} {s : MilpSolver}
  {limit : Option Float}

theorem BinaryProgram.IsMinimiser.length_eq {x : List K}
    (h : p.IsMinimiser value (x.map (realOf value))) : x.length = p.variableCount := by
  rw [← variableCount_reading value, ← h.feasible.assignment.length_eq, List.length_map]

theorem isMinimiser_of_isOptimal (hp : p.IsBinary value) {values : List ℝ}
    (h : ((s.request limit p).program value).IsOptimal values) : p.IsMinimiser value values where
  feasible := (isFeasible_program_iff hp.length_rows).1 h.toIsFeasible
  least other hother := by
    have hle := h.least other ((isFeasible_program_iff hp.length_rows).2 hother)
    rw [objectiveAt, objectiveAt, objectiveAt_eq hp.finite h.assignment.zero_or_one,
      objectiveAt_eq hp.finite hother.assignment.zero_or_one]
    exact EReal.coe_le_coe_iff.2 hle

/-- What an optimiser's reply is taken for answers the program, and it is not refused. -/
theorem interpret_minimises (hp : p.IsBinary value)
    {reply : Except OptimiserFault (MilpReply K)}
    (h : (s.request limit p).IsAnsweredBy value reply) :
    (MilpSolver.interpret p.variableCount reply).Minimises value p := by
  rcases reply with (_ | _) | ⟨_ | x, proven⟩
  · obtain ⟨c, hc, hinfinite⟩ := h
    obtain ⟨a, ha⟩ := hp.finite c hc
    exact absurd ha (hinfinite a)
  · exact h.elim
  · intro values hvalues
    exact h.2 values ((isFeasible_program_iff hp.length_rows).2 hvalues)
  · obtain ⟨-, hfinite, hoptimal⟩ := h
    have hminimiser := isMinimiser_of_isOptimal hp hoptimal
    have hinterpret : (MilpSolver.interpret p.variableCount (.ok ⟨some x, proven⟩)).values =
        .ok (some x) := by
      simp only [MilpSolver.interpret, if_pos hminimiser.length_eq]
    rw [SolverAnswer.Minimises, hinterpret]
    exact ⟨hfinite, hminimiser⟩

theorem rows_eq_nil (hp : p.IsBinary value) (hcount : p.variableCount = 0)
    (h : ¬ ∃ row ∈ p.rows, ∀ x ∈ row, value x = some 0) : p.rows = [] := by
  refine List.eq_nil_iff_forall_not_mem.2 fun row hrow => h ⟨row, hrow, ?_⟩
  obtain rfl : row = [] := List.length_eq_zero_iff.1 ((hp.length_eq row hrow).trans hcount)
  exact fun x hx => absurd hx List.not_mem_nil

variable [Arithmetic K] (R : Double.RoundsToDoubles K) {m : Type → Type v} {ps : PostShape}
  [Monad m] [WPMonad m ps] {optimise : Optimiser m K}

theorem attempt_minimises (hlimit : s.limit = .ok limit) (hp : p.IsBinary R.value)
    (hoptimise : ∀ r, r.IsBinary R.value → r.integrality = p.integrality →
      ⦃⌜True⌝⦄ optimise r ⦃⇓ reply => ⌜r.IsAnsweredBy R.value reply⌝⦄) :
    ⦃⌜True⌝⦄ s.attempt optimise p ⦃⇓ answer => ⌜answer.Minimises R.value p⌝⦄ := by
  have hempty := R.hasEmptyRow_iff_exists hp.length_rows hp.zero_or_one
  refine attempt_of_cases hlimit (fun hrow values hvalues => ?_) (fun hrow hcount => ?_)
    (fun hrow hcount => ?_)
  · exact (exists_isFeasible_iff hp).1 ⟨values, hvalues⟩ (hempty.1 hrow)
  · -- a row without variables is empty, so there is no row
    have hrows := rows_eq_nil hp hcount (mt hempty.2 hrow)
    have hconstraint : p.constraintCount = 0 := by
      rw [constraintCount, ← hp.length_rows, hrows]
      rfl
    rw [if_pos hconstraint]
    exact ⟨by simp, isMinimiser_nil hcount hrows⟩
  · exact triple_mono (hoptimise _ (hp.request hcount s limit) rfl) fun reply h =>
      interpret_minimises hp h

theorem SolverAnswer.Minimises.selectedCount_ok {answer : SolverAnswer K}
    {values : Option (List K)} (h : answer.Minimises R.value p)
    (hvalues : answer.values = .ok values) (hsize : p.variableCount < 2 ^ 53) :
    ∃ n, MilpSolver.selectedCount values = .ok n := by
  rw [Minimises, hvalues] at h
  rcases values with _ | x
  · exact ⟨0, rfl⟩
  · obtain ⟨hfinite, hminimiser⟩ := h
    refine NoisyCover.selectedCount_ok R hfinite (fun v hv => ?_)
      (hminimiser.length_eq.trans_lt hsize)
    exact hminimiser.feasible.assignment.zero_or_one _ (List.mem_map_of_mem hv)

end Solver

/-- A program in doubles with any number of variables, whose coefficients are finite and whose rows
are zeros and ones, one row for each item.  Of the optimiser it is assumed that it answers such
requests, of the same integrality, when there is at least one variable.  Then the program is
feasible exactly when no row is empty, the optimiser is asked once if there are variables and no row
is empty and not at all otherwise, and the answer is nothing when no assignment is feasible and
otherwise a feasible assignment of least objective. -/
theorem solve_minimises {log : Float → Float} (hlog : Double.IsLogarithm log)
    {m : Type → Type v} {ps : PostShape} [Monad m] [WPMonad m ps] {now : m Float}
    (hnow : ⦃⌜True⌝⦄ now ⦃⇓ _ => ⌜True⌝⦄) {s : MilpSolver} {limit : Option Float}
    (hlimit : s.limit = .ok limit) {p : BinaryProgram Float} (hp : p.IsBinary Double.value)
    {optimise : Optimiser m Float}
    (hoptimise : ∀ r, r.IsBinary Double.value → r.integrality = p.integrality →
      ⦃⌜True⌝⦄ optimise r ⦃⇓ reply => ⌜r.IsAnsweredBy Double.value reply⌝⦄)
    {solves : Option (SolveLog Float)} (hsolves : solves = none ∨ p.variableCount < 2 ^ 53) :
    letI := Arithmetic.doublesWith log
    (p.hasEmptyRow = true ↔ ∃ row ∈ p.rows, ∀ x ∈ row, Double.value x = some 0) ∧
      (p.hasEmptyRow = false ↔ ∃ values, (p.reading Double.value).IsFeasible values) ∧
      (s.solve (StateT.lift now) (keepRequests optimise) p solves).run [] =
        (fun r => (r, if p.variableCount ≠ 0 ∧ p.hasEmptyRow = false then [s.request limit p]
          else [])) <$> s.solve now optimise p solves ∧
      ⦃⌜True⌝⦄ s.solve now optimise p solves
      ⦃⇓ r => ⌜r.1.Minimises Double.value p⌝⦄ := by
  let _ := Arithmetic.doublesWith log
  let R := Double.doubleRounding hlog
  have hempty := R.hasEmptyRow_iff_exists hp.length_rows hp.zero_or_one
  refine ⟨hempty, ?_, ?_, ?_⟩
  · rw [← Bool.not_eq_true, hempty]
    exact (exists_isFeasible_iff hp).symm
  · exact solve_keepRequests hlimit solves []
  · refine solve_of_attempt hnow (attempt_minimises R hlimit hp hoptimise) ?_
    exact hsolves.imp_right fun hsize _ _ h hvalues => h.selectedCount_ok R hvalues hsize

section Runs

/-- Two rows written out by hand, with the second of three variables in both. -/
def twoRows : BinaryProgram Float where
  objective := [1, 1, 1]
  rows := [[1, 1, 0], [0, 1, 1]]
  integrality := [1, 1, 1]
  items := [1, 2]

theorem Double.value_one : Double.value 1 = some 1 := by
  let _ := Arithmetic.doublesWith Double.nearestLog
  exact (Double.doubleRounding Double.nearestLog_isLogarithm).value_one

theorem Double.value_zero : Double.value 0 = some 0 := by
  let _ := Arithmetic.doublesWith Double.nearestLog
  exact (Double.doubleRounding Double.nearestLog_isLogarithm).value_zero

theorem twoRows_isBinary : twoRows.IsBinary Double.value := by
  refine ⟨⟨fun x hx => ⟨1, ?_⟩, by simp [twoRows], ?_⟩, rfl⟩
  · obtain rfl : x = 1 := by simpa [twoRows] using hx
    exact Double.value_one
  · simp [twoRows, Double.value_one, Double.value_zero]

/-- Trying every assignment answers the two rows with one request. -/
theorem solve_twoRows :
    letI := Arithmetic.doublesWith Double.nearestLog
    let optimise {m : Type → Type} [Monad m] : Optimiser m Float :=
      exhaustiveOptimiser (Double.doubleRounding Double.nearestLog_isLogarithm).toRounding
    let s : MilpSolver := {}
    (((s.solve (StateT.lift (pure 0)) (keepRequests optimise) twoRows none).run [] : Id _)).run.2 =
        [s.request none twoRows] ∧
      ∃ x, (s.solve (pure 0) optimise twoRows none : Id _).run.1.values = .ok (some x) ∧
        twoRows.IsMinimiser Double.value (x.map (realOf Double.value)) := by
  let _ := Arithmetic.doublesWith Double.nearestLog
  intro optimise s
  have hnow : ⦃⌜True⌝⦄ (pure 0 : Id Float) ⦃⇓ _ => ⌜True⌝⦄ :=
    Triple.pure _ (SPred.pure_mono id)
  have hoptimise : ∀ r : MilpRequest Float, r.IsBinary Double.value →
      r.integrality = twoRows.integrality →
      ⦃⌜True⌝⦄ (optimise r : Id _) ⦃⇓ reply => ⌜r.IsAnsweredBy Double.value reply⌝⦄ :=
    fun r _ _ => exhaustiveOptimiser_isAnsweredBy _ r
  have hlog : (none : Option (SolveLog Float)) = none ∨ twoRows.variableCount < 2 ^ 53 := .inl rfl
  obtain ⟨hempty, hfeasible, hasked, hsolved⟩ :=
    solve_minimises Double.nearestLog_isLogarithm hnow (s := s) rfl twoRows_isBinary hoptimise hlog
  have hrow : twoRows.hasEmptyRow = false := by
    rw [← Bool.not_eq_true, hempty]
    simp [twoRows, Double.value_one]
  have hanswer := run_of_triple hsolved
  obtain ⟨full, hfull⟩ := hfeasible.1 hrow
  refine ⟨?_, ?_⟩
  · rw [hasked, hrow, if_pos ⟨by decide, rfl⟩]
    rfl
  · unfold SolverAnswer.Minimises at hanswer
    split at hanswer
    · rename_i x hx
      exact ⟨x, hx, hanswer.2⟩
    · exact absurd hfull (hanswer full)
    · exact hanswer.elim

end Runs

end NoisyCover
