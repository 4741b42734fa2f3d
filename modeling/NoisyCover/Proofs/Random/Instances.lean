import Mathlib
import NoisyCover.Proofs.Double.Failures
import NoisyCover.Proofs.Random.Draws
import NoisyCover.Proofs.Reordering

/-!
# Random instances can be explained

When all probabilities are accepted and no item is isolated, every algorithm leaves a complete
covering behind and reports a number as its cost (`Inference.Covers`).  Random instances are made
for that: probabilities are drawn away from zero and one, and every item has its singleton in the
pool (`random_covers`).
-/

namespace NoisyCover

open BinaryProgram Std.Do

section Covering

variable {K : Type} [Arithmetic K] (R : Double.RoundsToDoubles K) {pool : Pool K}
  {t : Transaction} (hopen : ∀ c ∈ (pool.within t).candidates, 0 < c.2 ∧ c.2 < 1)
  (hisolated : isolatedItems (pool.within t) t = [])

/-- The covering that inference leaves behind is complete, and it reports a number as the cost. -/
def Inference.Covers (inference : Inference K) (pool : Pool K) (t : Transaction) : Prop :=
  isComplete inference.covering pool t = true ∧ ∃ x, inference.cost = .ok (.value x)

include R hopen hisolated

theorem Greedy.infer_covers : (infer ∅ pool t).Covers pool t := by
  have hcomplete := isComplete_selection R.toRounding
    (fun c hc => R.toRounding.le_of_lt (hopen c hc).2) hisolated
  obtain ⟨x, hx, -⟩ := R.isWithin_cost hopen (selection pool t)
  have hcost : (infer ∅ pool t).cost = ((pool.within t).cost (selection pool t)).map .value := rfl
  rw [Inference.Covers, covering_infer_empty, hcost, hx]
  exact ⟨hcomplete, x, rfl⟩

theorem PrimalDual.infer_covers {σ : Type} (source : RandomSource σ) (state : σ) :
    (infer source ∅ pool t state).1.Covers pool t := by
  have hcourse := run_course source pool t state
  have hcomplete := (isComplete_selection_iff hcourse R.toRounding
    fun c hc => R.toRounding.le_of_lt (hopen c hc).2).2 hisolated
  obtain ⟨x, hx, -⟩ := R.isWithin_runCost source hopen state
  unfold Inference.Covers infer conclude
  simp only [hx, SortedSet.empty_union]
  exact ⟨hcomplete, x, rfl⟩

theorem Exact.conclude_covers {answer : SolverAnswer K}
    (h : answer.Minimises R.value (logOddsProgram (pool.within t) t)) :
    (conclude ∅ pool t answer).Covers pool t := by
  have hfeasible : ∀ xs, ((logOddsProgram (pool.within t) t).reading R.value).IsFeasible xs ↔
      (coveringProgram (R.realPool (pool.within t)) t).IsFeasible xs := by
    intro xs
    refine isFeasible_congr ?_ ?_
    · simp [variableCount, BinaryProgram.reading, logOddsProgram, coveringProgram,
        Rounding.realPool]
    · simp [BinaryProgram.reading, logOddsProgram, coveringProgram, R.rowOf_realPool]
  unfold SolverAnswer.Minimises at h
  split at h
  · rename_i values hvalues
    obtain ⟨hfinite, hleast⟩ := h
    obtain ⟨sets, hsets, hcomplete⟩ := isComplete_decode R hfinite ((hfeasible _).1 hleast.feasible)
    obtain ⟨x, hx, -⟩ := R.isWithin_cost hopen (SortedSet.ofList sets)
    obtain ⟨hcovering, hcost⟩ := conclude_of_decode ∅ hvalues hsets
    rw [hx] at hcost
    exact ⟨by rwa [hcovering, SortedSet.empty_union], x, hcost⟩
  · obtain ⟨xs, hxs⟩ := exists_isFeasible R.toRounding hisolated
    exact absurd ((hfeasible xs).2 hxs) (h xs)
  · exact h.elim

theorem Exact.infer_covers {m : Type → Type v} {ps : PostShape} [Monad m] [WPMonad m ps]
    {solve : Solver m K}
    (hsolve : ∀ p, ⦃⌜True⌝⦄ solve p ⦃⇓ answer => ⌜answer.Minimises R.value p⌝⦄) :
    ⦃⌜True⌝⦄ infer solve ∅ pool t ⦃⇓ r => ⌜r.Covers pool t⌝⦄ := by
  rw [infer_of_build (R.build_eq hopen t)]
  refine Triple.bind _ _ (hsolve _) fun answer => ?_
  exact Triple.pure _ (SPred.pure_mono (conclude_covers R hopen hisolated))

end Covering

/-- A random instance fails for a negative number of items if random itemsets are asked for, and
only then.  Otherwise its pool is drawn as it should be, its probabilities are accepted, no item is
isolated, and greedy inference, primal-dual inference with any source of draws, and exact inference
with any solver that finds a minimiser all cover its transaction. -/
theorem random_covers {log : Float → Float} (hlog : Double.IsLogarithm log) {σ : Type}
    {sampler : Sampler σ Float} (hsampler : sampler.IsFaithful Instance.probabilities)
    (itemCount setCount : ℤ) (state : σ) :
    letI := Arithmetic.doublesWith log
    let generated := Instance.random sampler Instance.probabilities itemCount setCount state
    (∀ fault, generated = .error fault ↔
      itemCount < 0 ∧ 0 < setCount ∧ fault = .emptyRange 2 ((itemCount + 2).toNat + 1)) ∧
    ∀ problem, generated = .ok problem →
      let ⟨t, pool⟩ := problem
      (∃ drawn, Instance.draws sampler Instance.probabilities itemCount setCount state = .ok drawn ∧
        problem.IsDrawn Instance.probabilities drawn itemCount setCount) ∧
      improbable? pool = none ∧ isolatedItems (pool.within t) t = [] ∧
      (Greedy.infer ∅ pool t).Covers pool t ∧
      (∀ {τ : Type} (source : RandomSource τ) (start : τ),
        (PrimalDual.infer source ∅ pool t start).1.Covers pool t) ∧
      ∀ {m : Type → Type} {ps : PostShape} [Monad m] [WPMonad m ps] {solve : Solver m Float},
        (∀ p, ⦃⌜True⌝⦄ solve p ⦃⇓ answer => ⌜answer.Minimises Double.value p⌝⦄) →
        ⦃⌜True⌝⦄ Exact.infer solve ∅ pool t ⦃⇓ r => ⌜r.Covers pool t⌝⦄ := by
  let _ := Arithmetic.doublesWith log
  let R := Double.doubleRounding hlog
  refine ⟨fun fault => Instance.random_eq_error_iff hsampler, fun ⟨t, pool⟩ hok => ?_⟩
  obtain ⟨drawn, hdraws, hdrawn⟩ := Instance.random_isDrawn hsampler hok
  have hpool : ∀ c ∈ pool.candidates, 0 < c.2 ∧ c.2 < 1 := by
    intro c hc
    obtain ⟨hlow, hhigh⟩ := hdrawn.probability_mem c hc
    exact ⟨Double.lt_of_lt_of_le (by decide) hlow, Double.lt_of_le_of_lt hhigh (by decide)⟩
  have hopen : ∀ c ∈ (pool.within t).candidates, 0 < c.2 ∧ c.2 < 1 := fun c hc =>
    hpool c (Pool.mem_within.1 hc).1
  have hisolated : isolatedItems (pool.within t) t = [] := by
    refine (isolatedItems_eq_nil_iff _).2 fun i hi => ?_
    obtain ⟨c, hc, hci⟩ := List.mem_map.1 (hdrawn.singleton_mem hi)
    refine ⟨c.1, List.mem_map_of_mem (Pool.mem_within.2 ⟨hc, (hpool c hc).1, ?_⟩), ?_⟩
    · intro j hj
      rw [hci, SortedSet.mem_ofList, List.mem_singleton] at hj
      exact hj ▸ hi
    · rw [hci, SortedSet.mem_ofList]
      exact List.mem_cons_self
  exact ⟨⟨drawn, hdraws, hdrawn⟩, improbable?_eq_none_iff.2 hpool, hisolated,
    Greedy.infer_covers R hopen hisolated, PrimalDual.infer_covers R hopen hisolated,
    Exact.infer_covers R hopen hisolated⟩

/-- Three items and five random itemsets from the generator can be explained. -/
theorem random_covers_three_items :
    letI := Arithmetic.doublesWith Double.nearestLog
    ∃ t pool, Instance.ofSeed 3 5 1 = .ok ⟨t, pool⟩ ∧ t = [0, 1, 2] ∧ pool.size ≤ 8 ∧
      (Greedy.infer ∅ pool t).Covers pool t ∧
      (PrimalDual.infer Twister.source ∅ pool t (Twister.ofSeed 1)).1.Covers pool t ∧
      ∃ solve : Solver Id Float, (Exact.infer solve ∅ pool t).run.Covers pool t := by
  let _ := Arithmetic.doublesWith Double.nearestLog
  obtain ⟨herror, hcovers⟩ := random_covers Double.nearestLog_isLogarithm
    Instance.twisterSampler_isFaithful 3 5 (Twister.ofSeed 1)
  rcases hproblem : Instance.ofSeed 3 5 1 with fault | ⟨t, pool⟩
  · have := (herror fault).1 hproblem
    omega
  · obtain ⟨⟨drawn, -, hdrawn⟩, -, -, hgreedy, hprimalDual, hexact⟩ := hcovers _ hproblem
    have hsize : (pool.size : ℤ) ≤ max 0 3 + max 0 5 := hdrawn.size_le
    choose answer hanswer using fun p : BinaryProgram Float =>
      p.exists_minimises (Double.doubleRounding Double.nearestLog_isLogarithm).toRounding
    let solve : Solver Id Float := fun p => pure (answer p)
    refine ⟨t, pool, rfl, hdrawn.transaction_eq, by omega, hgreedy, hprimalDual _ _, solve, ?_⟩
    refine Id.of_wp_run_eq rfl (Inference.Covers · pool t) (Triple.iff.1 (hexact fun p => ?_))
    exact Triple.pure _ (SPred.pure_intro (hanswer p))

end NoisyCover
