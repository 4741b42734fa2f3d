import Mathlib
import NoisyCover.Proofs.Program

/-!
# The minimisers of the covering program

An assignment stands for the covering that it switches on, and every covering drawn from the pool is
switched on by exactly one assignment (`switchedOn_bijOn`).  An assignment is feasible when its
covering is complete (`reaches_iff_isComplete`), and its objective is the cost of its covering up to
what leaving every candidate off would cost (`cost_switchedOn`).  So the optimal assignments of the
program are those of the cheapest complete coverings (`isOptimal_iff_isCheapest`).
-/

namespace NoisyCover

open BinaryProgram

variable {pool : Pool ℝ} {t : Transaction} {covering : Covering} {values : List ℝ}

/-- The covering of the candidates with value one. -/
noncomputable def switchedOn (candidates : List (Candidate ℝ)) (values : List ℝ) : Covering :=
  SortedSet.ofList (chosen candidates values)

theorem switchedOn_drawn : ∀ s ∈ switchedOn pool.candidates values, s ∈ pool.itemsets :=
  fun _ hs => chosen_subset (SortedSet.mem_ofList.1 hs)

theorem switchedOn_indicator (hdrawn : ∀ s ∈ covering, s ∈ pool.itemsets) :
    switchedOn pool.candidates (indicator pool.candidates covering) = covering := by
  refine SortedSet.ext_mem fun s => ?_
  rw [switchedOn, SortedSet.mem_ofList, mem_chosen_indicator]
  exact and_iff_right_of_imp (hdrawn s)

theorem indicator_switchedOn (h : IsAssignment pool.candidates.length values) :
    indicator pool.candidates (switchedOn pool.candidates values) = values :=
  indicator_chosen pool.nodup h

/-- The assignments to the candidates of a pool are the coverings drawn from it. -/
theorem switchedOn_bijOn (pool : Pool ℝ) :
    Set.BijOn (switchedOn pool.candidates)
      {values | IsAssignment pool.candidates.length values}
      {covering | ∀ s ∈ covering, s ∈ pool.itemsets} := by
  have hinverse : Set.InvOn (indicator pool.candidates) (switchedOn pool.candidates)
      {values | IsAssignment pool.candidates.length values}
      {covering | ∀ s ∈ covering, s ∈ pool.itemsets} :=
    ⟨fun values h => indicator_switchedOn h, fun covering h => switchedOn_indicator h⟩
  refine hinverse.bijOn ?_ ?_
  · intro values _
    exact switchedOn_drawn
  · intro covering _
    exact indicator_isAssignment _ covering

theorem reaches_iff_isComplete (h : IsAssignment (pool.within t).candidates.length values) :
    (∀ row ∈ (coveringProgram (pool.within t) t).rows, 1 ≤ dot row values) ↔
      isComplete (switchedOn (pool.within t).candidates values) pool t = true := by
  rw [← isFeasible_indicator_iff_isComplete switchedOn_drawn, indicator_switchedOn h]
  refine ⟨fun hreach => ⟨?_, hreach⟩, fun hfeasible => hfeasible.reaches⟩
  rwa [coveringProgram_variableCount]

theorem cost_switchedOn (hopen : ∀ c ∈ pool.candidates, 0 < c.2 ∧ c.2 < 1)
    (h : IsAssignment pool.candidates.length values) :
    pool.cost (switchedOn pool.candidates values) =
      .ok (dot (coveringProgram pool t).objective values +
        (pool.candidates.map fun c => offCost c.2).sum) := by
  have hobjective := dot_objective_indicator pool t (switchedOn pool.candidates values)
  rw [indicator_switchedOn h] at hobjective
  rw [Pool.cost_eq hopen, onTotal_add_offTotal, hobjective]

/-- A complete covering that no complete covering undercuts. -/
structure IsCheapest (covering : Covering) (pool : Pool ℝ) (t : Transaction) : Prop where
  complete : isComplete covering pool t = true
  least : ∀ other, isComplete other pool t = true →
    ∃ cost otherCost, (pool.within t).cost covering = .ok cost ∧
      (pool.within t).cost other = .ok otherCost ∧ cost ≤ otherCost

theorem isOptimal_iff_isCheapest (hopen : ∀ c ∈ (pool.within t).candidates, 0 < c.2 ∧ c.2 < 1)
    (h : IsAssignment (pool.within t).candidates.length values) :
    (coveringProgram (pool.within t) t).IsOptimal values ↔
      IsCheapest (switchedOn (pool.within t).candidates values) pool t := by
  have hcost := cost_switchedOn (t := t) hopen h
  constructor
  · intro hoptimal
    refine ⟨(reaches_iff_isComplete h).1 hoptimal.reaches, fun other hother => ?_⟩
    -- the competitor is the covering of its own indicator
    have hdrawn := (isComplete_iff.1 hother).1
    have hassign := indicator_isAssignment (pool.within t).candidates other
    have hle := hoptimal.least _ ((isFeasible_indicator_iff_isComplete hdrawn).2 hother)
    have hotherCost := cost_switchedOn (t := t) hopen hassign
    rw [switchedOn_indicator hdrawn] at hotherCost
    exact ⟨_, _, hcost, hotherCost, by linarith⟩
  · intro hcheapest
    refine ⟨⟨by rwa [coveringProgram_variableCount], (reaches_iff_isComplete h).2
      hcheapest.complete⟩, fun other hother => ?_⟩
    have hassign := isAssignment_of_isFeasible hother
    obtain ⟨cost, otherCost, hc, hoc, hle⟩ :=
      hcheapest.least _ ((reaches_iff_isComplete hassign).1 hother.reaches)
    rw [hcost] at hc
    rw [cost_switchedOn (t := t) hopen hassign] at hoc
    obtain rfl := Except.ok.inj hc
    obtain rfl := Except.ok.inj hoc
    linarith

/-- The covering program of a transaction is its covering problem.  The assignments are the
coverings drawn from the candidates, each being what inference decodes the assignment to; every row
reaches one exactly when the covering is complete; and the cost of the covering is the objective
value and the cost of leaving every candidate off.  So the optimal assignments are the cheapest
complete coverings. -/
theorem build_isCoveringProblem (pool : Pool ℝ) (t : Transaction)
    (hp : ∀ c ∈ (pool.within t).candidates, c.2 < 1) :
    ∃ p, BinaryProgram.build (pool.within t) t = .ok p ∧
      let filtered := pool.within t
      let covers := switchedOn filtered.candidates
      Set.BijOn covers {values | IsAssignment p.variableCount values}
          {covering | ∀ s ∈ covering, s ∈ filtered.itemsets} ∧
        (∀ values, IsAssignment p.variableCount values →
          Exact.selection filtered.candidates (some values) = .ok (some (covers values)) ∧
          ((∀ row ∈ p.rows, 1 ≤ dot row values) ↔ isComplete (covers values) pool t = true) ∧
          filtered.cost (covers values) = .ok (dot p.objective values +
            (filtered.candidates.map fun c => offCost c.2).sum)) ∧
        Set.BijOn covers {values | p.IsOptimal values}
          {covering | IsCheapest covering pool t} := by
  have hopen := Pool.within_open hp
  refine ⟨_, build_eq hopen t, ?_⟩
  intro filtered covers
  have hcount : (coveringProgram filtered t).variableCount = filtered.candidates.length :=
    coveringProgram_variableCount filtered t
  have hbij := switchedOn_bijOn filtered
  rw [hcount]
  refine ⟨hbij, fun values h => ⟨?_, reaches_iff_isComplete h, cost_switchedOn hopen h⟩, ?_⟩
  · rw [Exact.selection, decode_eq h.zero_or_one]
    rfl
  · refine ⟨fun values hoptimal => ?_, hbij.injOn.mono fun values hoptimal => ?_,
      fun covering hcheapest => ?_⟩
    · exact (isOptimal_iff_isCheapest hopen (hcount ▸ hoptimal.assignment)).1 hoptimal
    · exact hcount ▸ hoptimal.assignment
    · obtain ⟨values, h, rfl⟩ := hbij.surjOn (isComplete_iff.1 hcheapest.complete).1
      exact ⟨values, (isOptimal_iff_isCheapest hopen h).2 hcheapest, rfl⟩

/-- Switching on the two halves of four items reaches every row. -/
theorem build_overlapping_halves :
    ∃ p, BinaryProgram.build overlapping [1, 2, 3, 4] = .ok p ∧
      (∀ row ∈ p.rows, 1 ≤ dot row [0, 1, 1]) ∧
      overlapping.cost halves = .ok (dot p.objective [0, 1, 1] +
        (overlapping.candidates.map fun c => offCost c.2).sum) := by
  obtain ⟨p, hp, -, hvalues, -⟩ :=
    build_isCoveringProblem overlapping [1, 2, 3, 4] overlapping_lt_one
  have hcount : p.variableCount = 3 := by
    rw [build_eq (Pool.within_open overlapping_lt_one)] at hp
    obtain rfl := Except.ok.inj hp
    rw [coveringProgram_variableCount, overlapping_within]
    rfl
  rw [overlapping_within] at hp hvalues
  have hhalves : switchedOn overlapping.candidates [0, 1, 1] = halves := by
    simp only [switchedOn, overlapping, chosen_cons, zero_ne_one, if_false, if_true]
    rfl
  obtain ⟨-, hrows, hcost⟩ := hvalues [0, 1, 1] ⟨hcount.symm, by simp⟩
  rw [hhalves] at hrows hcost
  exact ⟨p, hp, hrows.2 halves_isComplete, hcost⟩

end NoisyCover
