import Mathlib
import NoisyCover.Inference
import NoisyCover.Proofs.Program
import NoisyCover.Proofs.Scan

/-!
# Exact covering is optimal

A solver answers a program when it gives an optimal assignment, or nothing if no assignment is
feasible (`SolverAnswer.Solves`).  Trying every assignment is one way to meet that
(`exhaustiveSolver_solves`).  With any such solver exact inference adds a complete covering of least
cost, or nothing when no covering is complete (`infer_optimal`).
-/

namespace NoisyCover

open BinaryProgram Std.Do

/-- An answer to a program: an optimal assignment, or nothing when no assignment is feasible. -/
def SolverAnswer.Solves (answer : SolverAnswer ℝ) (p : BinaryProgram ℝ) : Prop :=
  match answer.values with
  | .ok (some values) => p.IsOptimal values
  | .ok none => ∀ values, ¬ p.IsFeasible values
  | .error _ => False

/-- What a triple says of a computation without effects holds of its result. -/
theorem run_of_triple {α : Type u} {x : Id α} {P : α → Prop}
    (h : ⦃⌜True⌝⦄ x ⦃⇓ a => ⌜P a⌝⦄) : P x.run :=
  Id.of_wp_run_eq rfl P (Triple.iff.1 h)

/-- What every result meets can be weakened. -/
theorem triple_mono {m : Type u → Type v} {ps : PostShape} [Monad m] [WPMonad m ps] {α : Type u}
    {x : m α} {P Q : α → Prop} (h : ⦃⌜True⌝⦄ x ⦃⇓ a => ⌜P a⌝⦄) (hPQ : ∀ a, P a → Q a) :
    ⦃⌜True⌝⦄ x ⦃⇓ a => ⌜Q a⌝⦄ :=
  Triple.of_entails_wp <| Triple.entails_wp_of_post h <|
    (PostCond.entails_noThrow _ _).2 fun a => SPred.pure_mono (hPQ a)

section Exhaustive

/-- All assignments of zeros and ones to `n` variables. -/
noncomputable def assignments : ℕ → List (List ℝ)
  | 0 => [[]]
  | n + 1 => (assignments n).flatMap fun values => [0 :: values, 1 :: values]

theorem mem_assignments : ∀ {n : ℕ} {values : List ℝ},
    values ∈ assignments n ↔ IsAssignment n values
  | 0, values => by
    rw [assignments, List.mem_singleton]
    constructor
    · rintro rfl
      exact ⟨rfl, by simp⟩
    · exact fun h => List.length_eq_zero_iff.1 h.length_eq
  | n + 1, values => by
    rw [assignments, List.mem_flatMap]
    constructor
    · rintro ⟨rest, hrest, hmem⟩
      obtain ⟨hlength, hbits⟩ := mem_assignments.1 hrest
      simp only [List.mem_cons, List.not_mem_nil, or_false] at hmem
      rcases hmem with rfl | rfl
      · exact ⟨congrArg Nat.succ hlength, List.forall_mem_cons.2 ⟨.inl rfl, hbits⟩⟩
      · exact ⟨congrArg Nat.succ hlength, List.forall_mem_cons.2 ⟨.inr rfl, hbits⟩⟩
    · rintro ⟨hlength, hbits⟩
      obtain _ | ⟨x, rest⟩ := values
      · cases hlength
      · obtain ⟨hx, hrest⟩ := List.forall_mem_cons.1 hbits
        refine ⟨rest, mem_assignments.2 ⟨Nat.succ.inj hlength, hrest⟩, ?_⟩
        rcases hx with rfl | rfl <;> simp

/-- The feasible assignments of a program. -/
noncomputable def feasibleAssignments (p : BinaryProgram ℝ) : List (List ℝ) :=
  (assignments p.variableCount).filter fun values => decide (∀ row ∈ p.rows, 1 ≤ dot row values)

theorem mem_feasibleAssignments {p : BinaryProgram ℝ} {values : List ℝ} :
    values ∈ feasibleAssignments p ↔ p.IsFeasible values := by
  rw [feasibleAssignments, List.mem_filter, mem_assignments, decide_eq_true_eq]
  exact ⟨fun h => ⟨h.1, h.2⟩, fun h => ⟨h.assignment, h.reaches⟩⟩

/-- The solver that tries every assignment and answers with the first of least objective. -/
noncomputable def exhaustiveSolver {m : Type → Type v} [Monad m] : Solver m ℝ := fun p =>
  let best := firstLeast (fun values => some (dot p.objective values)) (feasibleAssignments p)
  pure ⟨.ok (best.map Prod.fst), []⟩

theorem exhaustiveSolver_solves {m : Type → Type v} {ps : PostShape} [Monad m] [WPMonad m ps]
    (p : BinaryProgram ℝ) :
    ⦃⌜True⌝⦄ (exhaustiveSolver p : m (SolverAnswer ℝ)) ⦃⇓ answer => ⌜answer.Solves p⌝⦄ := by
  refine Triple.pure _ (SPred.pure_mono fun _ => ?_)
  rcases hbest : firstLeast (fun values => some (dot p.objective values)) (feasibleAssignments p)
    with _ | best
  · show ∀ values, ¬ p.IsFeasible values
    intro values hvalues
    have := firstLeast_eq_none_iff.1 hbest values (mem_feasibleAssignments.2 hvalues) _ rfl
    cases this
  · show p.IsOptimal best.1
    obtain ⟨hmem, hkey⟩ := firstLeast_mem hbest
    refine ⟨mem_feasibleAssignments.1 hmem, fun other hother => ?_⟩
    rw [Option.some.inj hkey]
    exact firstLeast_le hbest (mem_feasibleAssignments.2 hother) rfl

end Exhaustive

section Inference

variable {pool : Pool ℝ} {t : Transaction}

/-- What optimal inference leaves behind.  If some covering is complete, it adds a complete
covering, reports its cost, and no complete covering costs less; otherwise it adds nothing and
reports an infinite cost. -/
def Inference.IsOptimal (inference : Inference ℝ) (covering : Covering) (pool : Pool ℝ)
    (t : Transaction) : Prop :=
  (isolatedItems (pool.within t) t = [] →
    ∃ (added : Covering) (cost : ℝ),
      inference.covering = covering ∪ added ∧ inference.cost = .ok (.value cost) ∧
      isComplete added pool t = true ∧ (pool.within t).cost added = .ok cost ∧
      ∀ other : Covering, isComplete other pool t = true →
        ∃ otherCost, (pool.within t).cost other = .ok otherCost ∧ cost ≤ otherCost) ∧
  (isolatedItems (pool.within t) t ≠ [] →
    inference.covering = covering ∧ inference.cost = .ok .infinite)

/-- An optimal assignment decodes to a complete covering that no complete covering undercuts. -/
theorem isComplete_chosen {values : List ℝ}
    (h : (coveringProgram (pool.within t) t).IsOptimal values) :
    let added := SortedSet.ofList (chosen (pool.within t).candidates values)
    isComplete added pool t = true ∧ ∀ other : Covering, isComplete other pool t = true →
      (pool.within t).onTotal added + (pool.within t).offTotal added ≤
        (pool.within t).onTotal other + (pool.within t).offTotal other := by
  intro added
  have hassign := isAssignment_of_isFeasible h.toIsFeasible
  have hvalues : indicator (pool.within t).candidates added = values :=
    indicator_chosen (pool.within t).nodup hassign
  have hdrawn : ∀ s ∈ added, s ∈ (pool.within t).itemsets := fun s hs =>
    chosen_subset (SortedSet.mem_ofList.1 hs)
  refine ⟨(isFeasible_indicator_iff_isComplete hdrawn).1 (hvalues ▸ h.toIsFeasible), ?_⟩
  intro other hother
  have hfeasible := (isFeasible_indicator_iff_isComplete (isComplete_iff.1 hother).1).2 hother
  have hleast := h.least _ hfeasible
  rw [← hvalues, dot_objective_indicator, dot_objective_indicator] at hleast
  rw [onTotal_add_offTotal, onTotal_add_offTotal]
  exact add_le_add hleast le_rfl

theorem conclude_isOptimal (hopen : ∀ c ∈ (pool.within t).candidates, 0 < c.2 ∧ c.2 < 1)
    {answer : SolverAnswer ℝ} (h : answer.Solves (coveringProgram (pool.within t) t))
    (covering : Covering) : (Exact.conclude covering pool t answer).IsOptimal covering pool t := by
  unfold SolverAnswer.Solves at h
  split at h
  · rename_i values hvalues
    obtain ⟨hcomplete, hleast⟩ := isComplete_chosen h
    have hdecode : Exact.decode (pool.within t).candidates values =
        .ok (chosen (pool.within t).candidates values) := decode_eq h.assignment.zero_or_one
    refine ⟨fun _ => ⟨_, _, ?_, ?_, hcomplete, Pool.cost_eq hopen _, fun other hother => ?_⟩,
      fun hisolated => absurd ((exists_isComplete_iff pool).1 ⟨_, hcomplete⟩) hisolated⟩
    · simp only [Exact.conclude, hvalues, Exact.selection, Except.bind, hdecode, Except.map]
    · simp only [Exact.conclude, hvalues, Exact.selection, Except.bind, hdecode, Except.map,
        Exact.cost, Pool.cost_eq hopen _]
    · exact ⟨_, Pool.cost_eq hopen other, hleast other hother⟩
  · rename_i hvalues
    have hnone : ¬ isolatedItems (pool.within t) t = [] := by
      intro hisolated
      obtain ⟨full, hfull⟩ := (exists_isComplete_iff pool).2 hisolated
      exact h _ ((isFeasible_indicator_iff_isComplete (isComplete_iff.1 hfull).1).2 hfull)
    refine ⟨fun hisolated => absurd hisolated hnone, fun _ => ⟨?_, ?_⟩⟩
    · simp only [Exact.conclude, hvalues, Exact.selection, Except.bind]
    · simp only [Exact.conclude, hvalues, Exact.selection, Except.bind, Exact.cost]
  · exact h.elim

end Inference

/-- With a solver that answers every program, exact inference adds a complete covering of least cost
and reports that cost, or finds that no covering is complete. -/
theorem infer_optimal {m : Type → Type v} {ps : PostShape} [Monad m] [WPMonad m ps]
    {solve : Solver m ℝ}
    (hsolve : ∀ program, ⦃⌜True⌝⦄ solve program ⦃⇓ answer => ⌜answer.Solves program⌝⦄)
    (covering : Covering) (pool : Pool ℝ) (t : Transaction)
    (hp : ∀ c ∈ (pool.within t).candidates, c.2 < 1) :
    ⦃⌜True⌝⦄ Exact.infer solve covering pool t
    ⦃⇓ inference => ⌜inference.IsOptimal covering pool t⌝⦄ := by
  have hopen := Pool.within_open hp
  have hasked : Exact.answer solve pool t = solve (coveringProgram (pool.within t) t) := by
    rw [Exact.answer, build_eq hopen]
  rw [Exact.infer, hasked]
  refine Triple.bind _ _ (hsolve _) fun answer => ?_
  exact Triple.pure _ (SPred.pure_mono fun h => conclude_isOptimal hopen h covering)

/-- Trying every assignment covers four items at least cost, from their two halves and the whole. -/
theorem infer_exhaustive_overlapping :
    ∃ (added : Covering) (cost : ℝ),
      (Exact.infer exhaustiveSolver ∅ overlapping [1, 2, 3, 4] : Id _).run.cost =
          .ok (.value cost) ∧
        isComplete added overlapping [1, 2, 3, 4] = true ∧ overlapping.cost added = .ok cost ∧
        ∃ halvesCost, overlapping.cost halves = .ok halvesCost ∧ cost ≤ halvesCost := by
  have h : ((Exact.infer exhaustiveSolver ∅ overlapping [1, 2, 3, 4] : Id _).run).IsOptimal ∅
      overlapping [1, 2, 3, 4] :=
    Id.of_wp_run_eq rfl (Inference.IsOptimal · ∅ overlapping [1, 2, 3, 4])
      (Triple.iff.1 (infer_optimal exhaustiveSolver_solves ∅ overlapping [1, 2, 3, 4]
        overlapping_lt_one))
  obtain ⟨added, cost, -, hcost, hcomplete, hadded, hleast⟩ :=
    h.1 ((exists_isComplete_iff overlapping).1 ⟨halves, halves_isComplete⟩)
  rw [overlapping_within] at hadded hleast
  exact ⟨added, cost, hcost, hcomplete, hadded, hleast halves halves_isComplete⟩

end NoisyCover
