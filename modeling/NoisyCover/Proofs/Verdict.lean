import Mathlib
import NoisyCover.Proofs.Greedy.Coverage
import NoisyCover.Proofs.Optimality
import NoisyCover.Proofs.Optimiser

/-!
# The verdict of exact inference in doubles

With an optimiser that solves every program it does not refuse, exact inference in doubles explains
a transaction when no item is isolated and no candidate is negligible; otherwise it reports an
infinite cost (`infer_isVerdict`).  So one negligible candidate is enough to leave a transaction
unexplained that the other candidates cover (`infer_vanishing`).
-/

namespace NoisyCover

open BinaryProgram Std.Do

/-- What inference in doubles leaves behind.  If the transaction is in reach of its candidates, it
adds a complete covering and reports a finite cost; otherwise it adds nothing and reports an
infinite cost. -/
def Inference.IsVerdict {K : Type} [Arithmetic K] (inference : Inference K)
    (value : K → Option EReal) (covering : Covering) (pool : Pool K) (t : Transaction) : Prop :=
  (InReach value (pool.within t) t →
    ∃ (added : Covering) (cost : K) (a : ℝ),
      inference.covering = covering ∪ added ∧ isComplete added pool t = true ∧
        inference.cost = .ok (.value cost) ∧ value cost = some (a : EReal)) ∧
  (¬ InReach value (pool.within t) t →
    inference.covering = covering ∧ inference.cost = .ok .infinite)

section Conclusion

variable {K : Type} [Arithmetic K] (R : Double.RoundsToDoubles K) {pool : Pool K}
variable {t : Transaction}

theorem decode_real : ∀ {candidates : List (Candidate K)} {values : List K},
    (∀ x ∈ values, R.IsFinite x) → Exact.decode candidates values =
      Exact.decode (candidates.map fun c => (c.1, realOf R.value c.2)) (values.map (realOf R.value))
  | [], _, _ => rfl
  | _ :: _, [], _ => rfl
  | c :: candidates, x :: values, h => by
    obtain ⟨⟨a, ha⟩, hvalues⟩ := List.forall_mem_cons.1 h
    have hnearest : Arithmetic.nearestInt x = Arithmetic.nearestInt (realOf R.value x) := by
      rw [realOf_eq R.value ha]
      exact R.nearestInt_eq ha
    rw [Exact.decode, decode_real hvalues, hnearest]
    rfl

/-- An assignment that covers everything decodes to a complete covering. -/
theorem isComplete_decode {values : List K} (hfinite : ∀ x ∈ values, R.IsFinite x)
    (h : (coveringProgram (R.realPool (pool.within t)) t).IsFeasible
      (values.map (realOf R.value))) :
    ∃ sets, Exact.decode (pool.within t).candidates values = .ok sets ∧
      isComplete (SortedSet.ofList sets) pool t = true := by
  have hassign := isAssignment_of_isFeasible h
  have hvalues := indicator_chosen (R.realPool (pool.within t)).nodup hassign
  refine ⟨_, (decode_real R hfinite).trans (decode_eq hassign.zero_or_one),
    isComplete_iff.2 ⟨?_, ?_⟩⟩
  · intro s hs
    have hmem := chosen_subset (SortedSet.mem_ofList.1 hs)
    rwa [List.map_map] at hmem
  · intro i hi
    obtain ⟨c, -, hc, his⟩ := isFeasible_indicator_iff.1 (hvalues ▸ h) i hi
    exact ⟨c.1, hc, his⟩

theorem conclude_isVerdict (hopen : ∀ c ∈ (pool.within t).candidates, 0 < c.2 ∧ c.2 < 1)
    {answer : SolverAnswer K} (h : answer.IsSound R (pool.within t) t) (covering : Covering) :
    (Exact.conclude covering pool t answer).IsVerdict R.value covering pool t := by
  unfold SolverAnswer.IsSound at h
  split at h
  · exact h.elim
  · rename_i hvalues
    exact ⟨fun hreach => absurd hreach h, fun _ => conclude_of_none covering hvalues⟩
  · rename_i values hvalues
    obtain ⟨hreach, hfinite, hfeasible⟩ := h
    obtain ⟨sets, hsets, hcomplete⟩ := isComplete_decode R hfinite hfeasible
    obtain ⟨cost, hcost, a, ha⟩ := R.isFinite_cost hopen (SortedSet.ofList sets)
    obtain ⟨hadded, hreported⟩ := conclude_of_decode covering hvalues hsets
    rw [hcost] at hreported
    exact ⟨fun _ => ⟨_, cost, a, hadded, hcomplete, hreported, ha⟩, fun hout => absurd hreach hout⟩

variable {m : Type → Type v} {ps : PostShape} [Monad m] [WPMonad m ps]
variable {s : MilpSolver} {limit : Option Float} {now : m K} {optimise : Optimiser m K}
variable {solves : Option (SolveLog K)}

theorem run_infer_isVerdict (hlimit : s.limit = .ok limit)
    (hnow : ⦃⌜True⌝⦄ now ⦃⇓ _ => ⌜True⌝⦄)
    (hoptimise : ∀ r, ⦃⌜True⌝⦄ optimise r ⦃⇓ reply => ⌜r.IsAnsweredBy R.value reply⌝⦄)
    (hprobable : improbable? pool = none)
    (hsolves : solves = none ∨ pool.candidates.length < 2 ^ 53) (covering : Covering) :
    ⦃⌜True⌝⦄ (Exact.infer (s.solver now optimise) covering pool t).run solves
    ⦃⇓ r => ⌜r.1.IsVerdict R.value covering pool t⌝⦄ := by
  have hopen : ∀ c ∈ (pool.within t).candidates, 0 < c.2 ∧ c.2 < 1 := fun c hc =>
    improbable?_eq_none_iff.1 hprobable c (Pool.mem_within.1 hc).1
  have hsolves' : solves = none ∨ (pool.within t).candidates.length < 2 ^ 53 :=
    hsolves.imp_right (List.length_filter_le _ _).trans_lt
  -- the program can be built, so a run is one call of the solver
  have hrun : (Exact.infer (s.solver now optimise) covering pool t).run solves =
      s.solve now optimise (logOddsProgram (pool.within t) t) solves >>= fun r =>
        Pure.pure (Exact.conclude covering pool t r.1, r.2) := by
    rw [Exact.infer, Exact.answer, R.build_eq hopen]
    rfl
  rw [hrun]
  refine Triple.bind _ _ (solve_isSound R hlimit hnow hoptimise hopen hsolves') fun r => ?_
  exact Triple.pure _ (SPred.pure_mono fun h => conclude_isVerdict R hopen h covering)

end Conclusion

section Exhaustive

variable {K : Type} [Arithmetic K] (R : Rounding K)

open Classical in
/-- The optimiser that refuses what it has to and otherwise tries every assignment. -/
noncomputable def exhaustiveOptimiser {m : Type → Type v} [Monad m] : Optimiser m K := fun r =>
  pure <|
    if ∀ x ∈ r.objective, R.IsFinite x then
      match (exhaustiveSolver (m := Id) (r.program R.value)).run.values with
      | .ok best => .ok ⟨best.map fun values => values.map fun x => if x = 1 then 1 else 0, true⟩
      | .error _ => .error .failed
    else .error .rejected

theorem realOf_bits {values : List ℝ} (h : ∀ x ∈ values, x = 0 ∨ x = 1) :
    (values.map fun x => if x = 1 then (1 : K) else 0).map (realOf R.value) = values := by
  rw [List.map_map]
  refine (List.map_congr_left fun x hx => ?_).trans (List.map_id values)
  rcases h x hx with rfl | rfl
  · rw [Function.comp_apply, if_neg zero_ne_one]
    exact realOf_eq R.value R.value_zero
  · rw [Function.comp_apply, if_pos rfl]
    exact realOf_eq R.value R.value_one

theorem exhaustiveOptimiser_isAnsweredBy {m : Type → Type v} {ps : PostShape} [Monad m]
    [WPMonad m ps] (r : MilpRequest K) :
    ⦃⌜True⌝⦄ (exhaustiveOptimiser R r : m _) ⦃⇓ reply => ⌜r.IsAnsweredBy R.value reply⌝⦄ := by
  refine Triple.pure _ (SPred.pure_mono fun _ => ?_)
  have hsolves := run_of_triple (exhaustiveSolver_solves (m := Id) (r.program R.value))
  split_ifs with hfinite
  · unfold SolverAnswer.Solves at hsolves
    split at hsolves
    · rename_i values hvalues
      rw [hvalues]
      have hbits := hsolves.assignment.zero_or_one
      refine ⟨hfinite, fun x hx => ?_, (realOf_bits R hbits).symm ▸ hsolves⟩
      obtain ⟨v, -, rfl⟩ := List.mem_map.1 hx
      split_ifs
      · exact ⟨1, R.value_one⟩
      · exact ⟨0, R.value_zero⟩
    · rename_i hvalues
      rw [hvalues]
      exact ⟨hfinite, hsolves⟩
    · exact hsolves.elim
  · push Not at hfinite
    obtain ⟨x, hx, hinfinite⟩ := hfinite
    exact ⟨x, hx, fun a ha => hinfinite ⟨a, ha⟩⟩

end Exhaustive

/-- Exact inference in doubles, with a logarithm that is good enough and an optimiser that solves
every program it does not refuse. -/
theorem infer_isVerdict {log : Float → Float} (hlog : Double.IsLogarithm log)
    {m : Type → Type v} {ps : PostShape} [Monad m] [WPMonad m ps] {now : m Float}
    (hnow : ⦃⌜True⌝⦄ now ⦃⇓ _ => ⌜True⌝⦄) {optimise : Optimiser m Float}
    (hoptimise : ∀ r, ⦃⌜True⌝⦄ optimise r ⦃⇓ reply => ⌜r.IsAnsweredBy Double.value reply⌝⦄)
    {s : MilpSolver} {limit : Option Float} (hlimit : s.limit = .ok limit) {pool : Pool Float}
    {solves : Option (SolveLog Float)}
    (hsolves : solves = none ∨ pool.candidates.length < 2 ^ 53) :
    letI := Arithmetic.doublesWith log
    improbable? pool = none → ∀ (covering : Covering) (t : Transaction),
      ⦃⌜True⌝⦄ (Exact.infer (s.solver now optimise) covering pool t).run solves
      ⦃⇓ r => ⌜r.1.IsVerdict Double.value covering pool t⌝⦄ := by
  intro hprobable covering t
  let _ := Arithmetic.doublesWith log
  exact run_infer_isVerdict (Double.doubleRounding hlog) hlimit hnow hoptimise hprobable hsolves
    covering

section Runs

/-- Exact inference in doubles with the nearest logarithm, by trying every assignment. -/
noncomputable def exhaustiveInfer (pool : Pool Float) (t : Transaction) : Inference Float :=
  letI := Arithmetic.doublesWith Double.nearestLog
  let optimise : Optimiser Id Float :=
    exhaustiveOptimiser (Double.doubleRounding Double.nearestLog_isLogarithm).toRounding
  ((Exact.infer (MilpSolver.solver {} (pure 0) optimise) ∅ pool t).run none).run.1

def evenPair : Pool Float where
  candidates := [(SortedSet.ofList [1, 2], 0.5)]
  nodup := by decide

theorem infer_isVerdict_evenPair :
    letI := Arithmetic.doublesWith Double.nearestLog
    isComplete (exhaustiveInfer evenPair [1, 2]).covering evenPair [1, 2] = true ∧
      ∃ (cost : Float) (a : ℝ), (exhaustiveInfer evenPair [1, 2]).cost = .ok (.value cost) ∧
        Double.value cost = some (a : EReal) := by
  let _ := Arithmetic.doublesWith Double.nearestLog
  have hprobable : improbable? evenPair = none := by decide
  have hisolated : isolatedItems (evenPair.within [1, 2]) [1, 2] = [] := by decide
  have hverdict : (exhaustiveInfer evenPair [1, 2]).IsVerdict Double.value ∅ evenPair [1, 2] :=
    Id.of_wp_run_eq rfl (fun r : Inference Float × Option (SolveLog Float) =>
      r.1.IsVerdict Double.value ∅ evenPair [1, 2])
      (Triple.iff.1 (infer_isVerdict Double.nearestLog_isLogarithm
        (Triple.pure _ (SPred.pure_mono id)) (exhaustiveOptimiser_isAnsweredBy _) (s := {}) rfl
        (.inl rfl) hprobable ∅ [1, 2]))
  have hreach : InReach Double.value (evenPair.within [1, 2]) [1, 2] := by
    have hwithin : (evenPair.within [1, 2]).candidates = evenPair.candidates := by decide
    have hvalue : Double.value 0.5 = some ((1 / 2 : ℝ) : EReal) := by
      have hunpack : (0.5 : Float).toModel.unpack =
          .finite .positive (2 ^ 52) (-53) (by norm_num) := rfl
      rw [Double.value_of_unpack_eq hunpack]
      norm_num
    refine ⟨hisolated, fun c hc hnegligible => ?_⟩
    rw [hwithin, evenPair, List.mem_singleton] at hc
    obtain ⟨a, ha, hle⟩ := hnegligible
    rw [hc, hvalue] at ha
    obtain rfl := EReal.coe_injective (Option.some.inj ha)
    have hhalf : (1 / 2 : ℝ) = 2 ^ (-1 : ℤ) := by norm_num
    rw [hhalf] at hle
    exact absurd hle (not_le.2 (zpow_lt_zpow_right₀ one_lt_two (by norm_num)))
  obtain ⟨added, cost, a, hadded, hcomplete, hcost, ha⟩ := hverdict.1 hreach
  rw [hadded, SortedSet.empty_union]
  exact ⟨hcomplete, cost, a, hcost, ha⟩

/-- The first of two items with the least probability that there is, and both as a candidate. -/
def vanishing : Pool Float where
  candidates := [(SortedSet.ofList [1], Float.ofBits 1), (SortedSet.ofList [1, 2], 0.3)]
  nodup := by decide

/-- A negligible candidate is enough for an infinite cost, although the other candidate covers
everything, and greedy covering finds that. -/
theorem infer_vanishing :
    letI := Arithmetic.doublesWith Double.nearestLog
    improbable? vanishing = none ∧ isolatedItems (vanishing.within [1, 2]) [1, 2] = [] ∧
      isComplete (Greedy.infer ∅ vanishing [1, 2]).covering vanishing [1, 2] = true ∧
      (exhaustiveInfer vanishing [1, 2]).cost = .ok .infinite := by
  let _ := Arithmetic.doublesWith Double.nearestLog
  let R := Double.doubleRounding Double.nearestLog_isLogarithm
  have hprobable : improbable? vanishing = none := by decide
  have hisolated : isolatedItems (vanishing.within [1, 2]) [1, 2] = [] := by decide
  have hp : ∀ c ∈ (vanishing.within [1, 2]).candidates, c.2 ≤ 1 := by decide
  refine ⟨hprobable, hisolated, ?_, ?_⟩
  · rw [Greedy.covering_infer_empty]
    exact Greedy.isComplete_selection R.toRounding hp hisolated
  · have hverdict :
        (exhaustiveInfer vanishing [1, 2]).IsVerdict Double.value ∅ vanishing [1, 2] :=
      Id.of_wp_run_eq rfl (fun r : Inference Float × Option (SolveLog Float) =>
        r.1.IsVerdict Double.value ∅ vanishing [1, 2])
        (Triple.iff.1 (run_infer_isVerdict R (s := {}) rfl (Triple.pure _ (SPred.pure_mono id))
          (exhaustiveOptimiser_isAnsweredBy R.toRounding) hprobable (.inl rfl) ∅))
    have hvalue : Double.value (Float.ofBits 1) = some ((2 ^ (-1074 : ℤ) : ℝ) : EReal) := by
      have hunpack : (Float.ofBits 1).toModel.unpack =
          .finite .positive 1 (-1074) (by norm_num) := rfl
      rw [Double.value_of_unpack_eq hunpack, Nat.cast_one, one_mul]
    have hwithin : (vanishing.within [1, 2]).candidates = vanishing.candidates := by decide
    have hmem : (SortedSet.ofList [1], Float.ofBits 1) ∈ (vanishing.within [1, 2]).candidates := by
      rw [hwithin]
      exact List.mem_cons_self
    refine (hverdict.2 fun hreach => hreach.2 _ hmem ⟨_, hvalue, ?_⟩).2
    exact zpow_le_zpow_right₀ one_le_two (by norm_num)

end Runs

end NoisyCover
