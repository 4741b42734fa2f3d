import Mathlib
import NoisyCover.Inference
import NoisyCover.Proofs.PrimalDual.Progress

/-!
# What primal-dual inference can lead to

A run is one course among many, and the draws decide which.  Every course is the run of some
sequence of answers (`Course.exists_answers`), so the outcomes over all sequences of answers are the
outcomes over all sources.  A course looks at uncovered items one at a time and never at where they
stand in the list or how often, so lists with the same items have the same courses
(`Course.exists_of_mem_iff`), and transactions with the same items the same outcomes.
-/

namespace NoisyCover

/-- The random source whose draws are the next number of a sequence each, modulo the length. -/
def RandomSource.reading : RandomSource (ℕ → ℕ) where
  index n answers :=
    (⟨answers 0 % (n + 1), Nat.mod_lt _ n.succ_pos⟩, fun k => answers (k + 1))

/-- The covering and the cost that an inference leaves behind. -/
def Inference.outcome {K : Type u} (inference : Inference K) :
    Covering × Except Fault (Cost K) :=
  (inference.covering, inference.cost)

namespace PrimalDual

variable {K : Type u} [Arithmetic K] {uncovered : List Item} {residuals : List (Candidate K)}
  {visits : List (Visit K)} {stuck : Option (Item × ℕ)}

theorem exists_reading {first item : Item} {others : List Item} (h : item ∈ first :: others)
    (rest : ℕ → ℕ) : ∃ answers : ℕ → ℕ,
      (first :: others)[(RandomSource.reading.index others.length answers).1] = item ∧
        (RandomSource.reading.index others.length answers).2 = rest := by
  obtain ⟨k, hk, rfl⟩ := List.getElem_of_mem h
  -- the first answer is where the item stands, and the others are left for what comes after
  refine ⟨fun j => if j = 0 then k else rest (j - 1), ?_, rfl⟩
  have hmod : k % (others.length + 1) = k := Nat.mod_eq_of_lt hk
  simp [RandomSource.reading, hmod]

/-- Every course is the run of some sequence of answers. -/
theorem Course.exists_answers (h : Course uncovered residuals visits stuck) :
    ∃ answers, (visitFrom .reading uncovered residuals answers).visits = visits ∧
      (visitFrom .reading uncovered residuals answers).stuck = stuck := by
  induction h with
  | done => exact ⟨fun _ => 0, by simp [visitFrom]⟩
  | @stuck uncovered residuals item hitem hnone =>
    rcases uncovered with _ | ⟨first, others⟩
    · simp at hitem
    obtain ⟨answers, hanswer, -⟩ := exists_reading hitem fun _ => 0
    rw [← hanswer] at hnone
    refine ⟨answers, ?_⟩
    rw [visitFrom_of_tightest_eq_none _ hnone, hanswer]
    exact ⟨rfl, rfl⟩
  | @visit uncovered residuals item found visits stuck hitem hfound _ ih =>
    rcases uncovered with _ | ⟨first, others⟩
    · simp at hitem
    obtain ⟨rest, hvisits, hstuck⟩ := ih
    obtain ⟨answers, hanswer, hrest⟩ := exists_reading hitem rest
    rw [← hanswer] at hfound
    refine ⟨answers, ?_⟩
    rw [visitFrom_of_tightest_eq_some _ hfound, hrest, hanswer]
    exact ⟨congrArg _ hvisits, hstuck⟩

/-- Uncovered lists with the same items allow the same visits.  How many items are uncovered when
they get stuck depends on the repeats. -/
theorem Course.exists_of_mem_iff (h : Course uncovered residuals visits stuck) :
    ∀ {other : List Item}, (∀ i, i ∈ uncovered ↔ i ∈ other) →
      ∃ stuck', Course other residuals visits stuck' := by
  induction h with
  | done =>
    intro other hmem
    obtain rfl : other = [] := List.eq_nil_iff_forall_not_mem.2 fun i hi => by
      simpa using (hmem i).2 hi
    exact ⟨none, .done⟩
  | stuck hitem hnone => exact fun hmem => ⟨_, .stuck ((hmem _).1 hitem) hnone⟩
  | @visit uncovered residuals item found visits stuck hitem hfound _ ih =>
    intro other hmem
    have hdrop : ∀ i, i ∈ dropCovered found.1.1 uncovered ↔ i ∈ dropCovered found.1.1 other := by
      simp [mem_dropCovered, hmem]
    obtain ⟨stuck', hrest⟩ := ih hdrop
    exact ⟨stuck', .visit ((hmem item).1 hitem) hfound hrest⟩

section Outcomes

variable {pool : Pool K} {t t' : Transaction} {covering : Covering}

/-- What inference can lead to, over all sequences of answers. -/
def outcomes (covering : Covering) (pool : Pool K) (t : Transaction) :
    Set (Covering × Except Fault (Cost K)) :=
  Set.range fun answers => (infer .reading covering pool t answers).1.outcome

theorem outcome_conclude_congr {σ τ : Type} {candidates : List (Candidate K)} {r : Run K σ}
    {r' : Run K τ} (h : r.visits = r'.visits) :
    (conclude covering candidates r).outcome = (conclude covering candidates r').outcome := by
  have hselection : r.selection = r'.selection := by rw [Run.selection, Run.selection, h]
  have hcost : r.cost candidates = r'.cost candidates := by
    simp only [Run.cost, Run.dualTotal, hselection, h]
  simp only [conclude, Inference.outcome, hselection, hcost]

theorem outcome_mem_of_course {σ : Type} {r : Run K σ}
    (h : Course t (initialResiduals (pool.within t).candidates) r.visits stuck) :
    (conclude covering (pool.within t).candidates r).outcome ∈ outcomes covering pool t := by
  obtain ⟨answers, hvisits, -⟩ := h.exists_answers
  exact ⟨answers, outcome_conclude_congr hvisits⟩

theorem outcome_mem {σ : Type} (source : RandomSource σ) (covering : Covering) (pool : Pool K)
    (t : Transaction) (state : σ) :
    (infer source covering pool t state).1.outcome ∈ outcomes covering pool t :=
  outcome_mem_of_course (run_course source pool t state)

theorem outcomes_subset (hitems : ∀ i, i ∈ t ↔ i ∈ t') (hwithin : pool.within t = pool.within t') :
    outcomes covering pool t ⊆ outcomes covering pool t' := by
  rintro _ ⟨answers, rfl⟩
  obtain ⟨stuck', hcourse⟩ := (run_course .reading pool t answers).exists_of_mem_iff hitems
  show (conclude covering (pool.within t).candidates _).outcome ∈ _
  rw [hwithin] at hcourse ⊢
  exact outcome_mem_of_course hcourse

end Outcomes

end PrimalDual

end NoisyCover
