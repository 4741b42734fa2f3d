import Mathlib
import NoisyCover.Proofs.Decoding
import NoisyCover.Proofs.Minimisers
import NoisyCover.Proofs.Optimality

/-!
# The shape of a cheapest covering

A complete covering stays complete when a candidate is added, and a candidate that is more likely on
than off makes it cheaper; so a cheapest covering has all of these.  Without a candidate that is
more likely off it would be cheaper too; so it would not be complete, and some item is in no other
itemset of the covering (`IsCheapest.isTight`).  Exact inference finds such a covering whenever its
solver finds an optimal assignment (`infer_tight`).
-/

namespace NoisyCover

open BinaryProgram Std.Do

/-- A complete covering without slack.  It has every candidate that is more likely on than off, and
each of its itemsets that is more likely off contains an item of the transaction that no other
itemset of the covering contains. -/
structure IsTight (covering : Covering) (pool : Pool ℝ) (t : Transaction) : Prop where
  complete : isComplete covering pool t = true
  likely : ∀ c ∈ (pool.within t).candidates, 1 / 2 < c.2 → c.1 ∈ covering
  needed : ∀ c ∈ (pool.within t).candidates, c.2 < 1 / 2 → c.1 ∈ covering →
    ∃ i ∈ t, i ∈ c.1 ∧ ∀ s ∈ covering, i ∈ s → s = c.1

section Costs

variable {p : ℝ}

theorem onCost_lt_offCost (h : 1 / 2 < p) (h1 : p < 1) : onCost p < offCost p :=
  neg_lt_neg (Real.log_lt_log (by linarith) (by linarith))

theorem offCost_lt_onCost (h0 : 0 < p) (h : p < 1 / 2) : offCost p < onCost p :=
  neg_lt_neg (Real.log_lt_log h0 (by linarith))

variable {pool : Pool ℝ} {covering : Covering} {c : Candidate ℝ}

/-- Adding a candidate to a covering replaces the cost of leaving it off. -/
theorem onTotal_add_offTotal_insert (hc : c ∈ pool.candidates) (hnew : c.1 ∉ covering) :
    pool.onTotal (covering.insert c.1) + pool.offTotal (covering.insert c.1) =
      pool.onTotal covering + pool.offTotal covering + (onCost c.2 - offCost c.2) := by
  rw [onTotal_add_offTotal, onTotal_add_offTotal, Pool.sumIn_insert hc hnew]
  ring

end Costs

section Exchange

variable {pool : Pool ℝ} {t : Transaction} {covering other : Covering} {s : Itemset}

theorem isComplete_insert (h : isComplete covering pool t = true)
    (hs : s ∈ (pool.within t).itemsets) : isComplete (covering.insert s) pool t = true := by
  obtain ⟨hdrawn, hcover⟩ := isComplete_iff.1 h
  refine isComplete_iff.2 ⟨fun r hr => ?_, fun i hi => ?_⟩
  · rcases SortedSet.mem_insert.1 hr with rfl | hr
    · exact hs
    · exact hdrawn r hr
  · obtain ⟨r, hr, hir⟩ := hcover i hi
    exact ⟨r, SortedSet.mem_insert.2 (.inr hr), hir⟩

/-- An itemset can be taken out of a complete covering when its items are also in others. -/
theorem isComplete_sdiff (h : isComplete covering pool t = true)
    (hshared : ∀ i ∈ t, i ∈ s → ∃ r ∈ covering, i ∈ r ∧ r ≠ s) :
    isComplete (covering \ SortedSet.ofList [s]) pool t = true := by
  have hmem : ∀ {r}, r ∈ covering \ SortedSet.ofList [s] ↔ r ∈ covering ∧ r ≠ s := by simp
  obtain ⟨hdrawn, hcover⟩ := isComplete_iff.1 h
  refine isComplete_iff.2 ⟨fun r hr => hdrawn r (hmem.1 hr).1, fun i hi => ?_⟩
  obtain ⟨r, hr, hir⟩ := hcover i hi
  by_cases hrs : r = s
  · obtain ⟨r', hr', hir', hne⟩ := hshared i hi (hrs ▸ hir)
    exact ⟨r', hmem.2 ⟨hr', hne⟩, hir'⟩
  · exact ⟨r, hmem.2 ⟨hr, hrs⟩, hir⟩

theorem IsCheapest.total_le (h : IsCheapest covering pool t)
    (hopen : ∀ c ∈ (pool.within t).candidates, 0 < c.2 ∧ c.2 < 1)
    (hother : isComplete other pool t = true) :
    (pool.within t).onTotal covering + (pool.within t).offTotal covering ≤
      (pool.within t).onTotal other + (pool.within t).offTotal other := by
  obtain ⟨cost, otherCost, hcost, hotherCost, hle⟩ := h.least other hother
  rw [Pool.cost_eq hopen] at hcost hotherCost
  rwa [Except.ok.inj hcost, Except.ok.inj hotherCost]

theorem IsCheapest.isTight (h : IsCheapest covering pool t)
    (hopen : ∀ c ∈ (pool.within t).candidates, 0 < c.2 ∧ c.2 < 1) : IsTight covering pool t where
  complete := h.complete
  likely c hc hlikely := by
    by_contra hnew
    have hle := h.total_le hopen (isComplete_insert h.complete (List.mem_map_of_mem hc))
    rw [onTotal_add_offTotal_insert hc hnew] at hle
    linarith [onCost_lt_offCost hlikely (hopen c hc).2]
  needed c hc hunlikely hin := by
    by_contra hnone
    push Not at hnone
    have hle := h.total_le hopen (isComplete_sdiff h.complete hnone)
    -- the covering is the rest with the candidate added
    have hnew : c.1 ∉ covering \ SortedSet.ofList [c.1] := by simp
    have hcovering : (covering \ SortedSet.ofList [c.1]).insert c.1 = covering := by
      refine SortedSet.ext_mem fun r => ?_
      by_cases hr : r = c.1
      · simp [hr, hin]
      · simp [hr]
    have hcost := onTotal_add_offTotal_insert hc hnew
    rw [hcovering] at hcost
    linarith [offCost_lt_onCost (hopen c hc).1 hunlikely]

end Exchange

/-- With a solver that finds an optimal assignment whenever there is one, exact inference adds a
covering without slack to explain a transaction that can be covered. -/
theorem infer_tight {m : Type → Type v} {ps : PostShape} [Monad m] [WPMonad m ps]
    {solve : Solver m ℝ}
    (hsolve : ∀ program, (∃ values, program.IsFeasible values) →
      ⦃⌜True⌝⦄ solve program
      ⦃⇓ answer => ⌜∃ best, answer.values = .ok (some best) ∧ program.IsOptimal best⌝⦄)
    (covering : Covering) (pool : Pool ℝ) (t : Transaction)
    (hp : ∀ c ∈ (pool.within t).candidates, c.2 < 1)
    (hcoverable : isolatedItems (pool.within t) t = []) :
    ⦃⌜True⌝⦄ Exact.infer solve covering pool t
    ⦃⇓ inference => ⌜∃ (added : Covering) (cost : ℝ), inference.covering = covering ∪ added ∧
      inference.cost = .ok (.value cost) ∧ IsTight added pool t⌝⦄ := by
  have hopen := Pool.within_open hp
  obtain ⟨full, hfull⟩ := (exists_isComplete_iff pool).2 hcoverable
  have hfeasible := (isFeasible_indicator_iff_isComplete (isComplete_iff.1 hfull).1).2 hfull
  rw [Exact.infer_of_build (build_eq hopen t)]
  refine Triple.bind _ _ (hsolve _ ⟨_, hfeasible⟩) fun answer => ?_
  refine Triple.pure _ (SPred.pure_mono fun ⟨best, hvalues, hoptimal⟩ => ?_)
  have hassign := isAssignment_of_isFeasible hoptimal.toIsFeasible
  obtain ⟨hadded, hcost⟩ :=
    conclude_of_decode covering hvalues (decode_eq hassign.zero_or_one)
  rw [← switchedOn, cost_switchedOn (t := t) hopen hassign] at hcost
  exact ⟨_, _, hadded, hcost, ((isOptimal_iff_isCheapest hopen hassign).1 hoptimal).isTight hopen⟩

section Runs

theorem SolverAnswer.Solves.exists_isOptimal {answer : SolverAnswer ℝ} {p : BinaryProgram ℝ}
    (h : answer.Solves p) (hfeasible : ∃ values, p.IsFeasible values) :
    ∃ best, answer.values = .ok (some best) ∧ p.IsOptimal best := by
  unfold SolverAnswer.Solves at h
  split at h
  · rename_i best hbest
    exact ⟨best, hbest, h⟩
  · obtain ⟨values, hvalues⟩ := hfeasible
    exact absurd hvalues (h values)
  · exact h.elim

theorem exhaustiveSolver_isOptimal {p : BinaryProgram ℝ}
    (hfeasible : ∃ values, p.IsFeasible values) {m : Type → Type v} {ps : PostShape} [Monad m]
    [WPMonad m ps] : ⦃⌜True⌝⦄ (exhaustiveSolver p : m _)
      ⦃⇓ answer => ⌜∃ best, answer.values = .ok (some best) ∧ p.IsOptimal best⌝⦄ :=
  triple_mono (exhaustiveSolver_solves p) fun _ h => h.exists_isOptimal hfeasible

/-- The empty itemset and two items as likely candidates, and one of the items as an unlikely
one. -/
noncomputable def crowded : Pool ℝ where
  candidates := [(∅, 0.6), (SortedSet.ofList [1, 2], 0.9), (SortedSet.ofList [1], 0.2)]
  nodup := by decide

theorem crowded_within : crowded.within [1, 2] = crowded := by
  refine Pool.within_eq_self ?_
  simp only [crowded, List.forall_mem_cons]
  refine ⟨⟨by norm_num, by decide⟩, ⟨by norm_num, by decide⟩, ⟨by norm_num, by decide⟩, by simp⟩

theorem crowded_lt_one : ∀ c ∈ (crowded.within [1, 2]).candidates, c.2 < 1 := by
  rw [crowded_within]
  simp only [crowded, List.forall_mem_cons]
  norm_num

/-- Both likely candidates explain the two items, and the unlikely one has none to itself. -/
theorem infer_crowded :
    (Exact.infer exhaustiveSolver ∅ crowded [1, 2] : Id _).run.covering =
      SortedSet.ofList [∅, SortedSet.ofList [1, 2]] := by
  have hcoverable : isolatedItems (crowded.within [1, 2]) [1, 2] = [] := by
    rw [crowded_within]
    decide
  obtain ⟨added, cost, hadded, -, htight⟩ := run_of_triple
    (infer_tight (fun _ h => exhaustiveSolver_isOptimal h) ∅ crowded [1, 2] crowded_lt_one
      hcoverable)
  have hdrawn := (isComplete_iff.1 htight.complete).1
  obtain ⟨-, hlikely, hneeded⟩ := htight
  rw [crowded_within] at hdrawn hlikely hneeded
  have hboth : SortedSet.ofList [1, 2] ∈ added :=
    hlikely (_, 0.9) (List.mem_cons_of_mem _ List.mem_cons_self) (by norm_num)
  have hone : SortedSet.ofList [1] ∉ added := by
    intro hin
    obtain ⟨i, -, hi, hown⟩ := hneeded (_, 0.2)
      (List.mem_cons_of_mem _ (List.mem_cons_of_mem _ List.mem_cons_self)) (by norm_num) hin
    obtain rfl : i = 1 := List.mem_singleton.1 (SortedSet.mem_ofList.1 hi)
    exact absurd (hown _ hboth (by decide)) (by decide)
  rw [hadded, SortedSet.empty_union]
  refine SortedSet.ext_mem fun s => ?_
  rw [SortedSet.mem_ofList]
  constructor
  · intro hs
    have hcases : s = ∅ ∨ s = SortedSet.ofList [1, 2] ∨ s = SortedSet.ofList [1] := by
      simpa [Pool.itemsets, crowded] using hdrawn s hs
    rcases hcases with rfl | rfl | rfl
    · simp
    · simp
    · exact absurd hs hone
  · intro hs
    have hcases : s = ∅ ∨ s = SortedSet.ofList [1, 2] := by simpa using hs
    rcases hcases with rfl | rfl
    · exact hlikely (_, 0.6) List.mem_cons_self (by norm_num)
    · exact hboth

end Runs

end NoisyCover
