import Mathlib
import NoisyCover.Proofs.Checks

/-!
# Costs as likelihoods

Read every candidate as an event of its own that happens with the candidate's probability.  Over the
real numbers, the cost of a pool under a covering is minus the logarithm of the probability that
exactly the candidates in the covering happen (`exp_neg_onTotal_add_offTotal`).

Multiplying out the product of `p + (1 - p)` over the pool gives one summand for each set of
candidates.  So the probabilities of all the coverings drawn from a pool add up to one
(`sum_likelihood`).
-/

namespace NoisyCover

theorem exp_neg_sum_neg_log {α : Type*} {w : α → ℝ} : ∀ {l : List α}, (∀ a ∈ l, 0 < w a) →
    Real.exp (-(l.map fun a => -Real.log (w a)).sum) = (l.map w).prod
  | [], _ => by simp
  | a :: l, h => by
    obtain ⟨ha, hl⟩ := List.forall_mem_cons.1 h
    rw [List.map_cons, List.sum_cons, neg_add, neg_neg, Real.exp_add, Real.exp_log ha,
      exp_neg_sum_neg_log hl, List.map_cons, List.prod_cons]

namespace Pool

/-- The probability that exactly the candidates in a covering happen, when each happens with its
probability and independently of the others. -/
noncomputable def likelihood (pool : Pool ℝ) (covering : Covering) : ℝ :=
  ((pool.candidates.filter fun c => decide (c.1 ∈ covering)).map Prod.snd).prod *
    ((pool.candidates.filter fun c => !decide (c.1 ∈ covering)).map fun c => 1 - c.2).prod

/-- All the coverings drawn from a pool. -/
def coverings {K : Type u} (pool : Pool K) : Finset Covering :=
  (pool.itemsets.sublists.map SortedSet.ofList).toFinset

theorem mem_coverings {K : Type u} {pool : Pool K} {covering : Covering} :
    covering ∈ pool.coverings ↔ ∀ s ∈ covering, s ∈ pool.itemsets := by
  rw [coverings, List.mem_toFinset, List.mem_map]
  constructor
  · rintro ⟨sets, hsets, rfl⟩ s hs
    exact (List.mem_sublists.1 hsets).subset (SortedSet.mem_ofList.1 hs)
  · intro hown
    refine ⟨pool.itemsets.filter fun s => decide (s ∈ covering),
      List.mem_sublists.2 List.filter_sublist, SortedSet.ext_mem fun s => ?_⟩
    rw [SortedSet.mem_ofList, List.mem_filter, decide_eq_true_eq]
    exact and_iff_right_of_imp (hown s)

/-- The cost of a pool under a covering is minus the logarithm of a probability. -/
theorem exp_neg_onTotal_add_offTotal {pool : Pool ℝ}
    (hopen : ∀ c ∈ pool.candidates, 0 < c.2 ∧ c.2 < 1) (covering : Covering) :
    Real.exp (-(pool.onTotal covering + pool.offTotal covering)) = pool.likelihood covering := by
  have hon : Real.exp (-pool.onTotal covering) =
      ((pool.candidates.filter fun c => decide (c.1 ∈ covering)).map Prod.snd).prod :=
    exp_neg_sum_neg_log fun c hc => (hopen c (List.mem_filter.1 hc).1).1
  have hoff : Real.exp (-pool.offTotal covering) =
      ((pool.candidates.filter fun c => !decide (c.1 ∈ covering)).map fun c => 1 - c.2).prod :=
    exp_neg_sum_neg_log fun c hc => sub_pos.2 (hopen c (List.mem_filter.1 hc).1).2
  rw [neg_add, Real.exp_add, hon, hoff, likelihood]

section Normalisation

variable (pool : Pool ℝ)

/-- The candidates of a pool that are in a covering. -/
noncomputable def happening (covering : Covering) : Finset (Candidate ℝ) :=
  pool.candidates.toFinset.filter fun c => c.1 ∈ covering

theorem likelihood_eq (covering : Covering) :
    pool.likelihood covering =
      (∏ c ∈ pool.happening covering, c.2) *
        ∏ c ∈ pool.candidates.toFinset \ pool.happening covering, (1 - c.2) := by
  have hnodup : pool.candidates.Nodup := pool.nodup.of_map
  rw [likelihood, ← List.prod_toFinset _ (hnodup.filter _),
    ← List.prod_toFinset _ (hnodup.filter _), happening, ← Finset.filter_not, List.toFinset_filter,
    List.toFinset_filter]
  simp only [decide_eq_true_eq, Bool.not_eq_true', decide_eq_false_iff_not]

variable {pool} in
theorem mem_happening {covering : Covering} {c : Candidate ℝ} :
    c ∈ pool.happening covering ↔ c ∈ pool.candidates ∧ c.1 ∈ covering := by
  rw [happening, Finset.mem_filter, List.mem_toFinset]

theorem injOn_happening : Set.InjOn pool.happening pool.coverings := by
  -- a covering drawn from the pool can be read off its candidates
  have hmem : ∀ covering ∈ pool.coverings, ∀ s,
      s ∈ covering ↔ ∃ c ∈ pool.happening covering, c.1 = s := by
    intro covering hown s
    constructor
    · intro hs
      obtain ⟨c, hc, rfl⟩ := List.mem_map.1 (mem_coverings.1 hown s hs)
      exact ⟨c, mem_happening.2 ⟨hc, hs⟩, rfl⟩
    · rintro ⟨c, hc, rfl⟩
      exact (mem_happening.1 hc).2
  intro covering hown other hother heq
  refine SortedSet.ext_mem fun s => ?_
  rw [hmem covering hown, hmem other hother, heq]

theorem surjOn_happening :
    Set.SurjOn pool.happening pool.coverings pool.candidates.toFinset.powerset := by
  intro happened hhappened
  have hsub : ∀ c ∈ happened, c ∈ pool.candidates := fun c hc =>
    List.mem_toFinset.1 (Finset.mem_powerset.1 hhappened hc)
  have hmem : ∀ s, s ∈ SortedSet.ofList (happened.toList.map Prod.fst) ↔
      ∃ c ∈ happened, c.1 = s := by simp
  refine ⟨SortedSet.ofList (happened.toList.map Prod.fst), mem_coverings.2 fun s hs => ?_, ?_⟩
  · obtain ⟨c, hc, rfl⟩ := (hmem s).1 hs
    exact List.mem_map_of_mem (hsub c hc)
  · ext c
    rw [mem_happening, hmem]
    constructor
    · rintro ⟨hc, d, hd, heq⟩
      rwa [← List.inj_on_of_nodup_map pool.nodup (hsub d hd) hc heq]
    · exact fun hc => ⟨hsub c hc, c, hc, rfl⟩

/-- The probabilities of all the coverings drawn from a pool add up to one. -/
theorem sum_likelihood : ∑ covering ∈ pool.coverings, pool.likelihood covering = 1 := by
  have hchoices : ∑ covering ∈ pool.coverings, pool.likelihood covering =
      ∑ happened ∈ pool.candidates.toFinset.powerset,
        (∏ c ∈ happened, c.2) * ∏ c ∈ pool.candidates.toFinset \ happened, (1 - c.2) :=
    Finset.sum_nbij pool.happening
      (fun _ _ => Finset.mem_powerset.2 (Finset.filter_subset _ _))
      pool.injOn_happening pool.surjOn_happening fun covering _ => pool.likelihood_eq covering
  rw [hchoices, ← Finset.prod_add]
  simp only [add_sub_cancel, Finset.prod_const_one]

end Normalisation

theorem likelihood_perm {pool other : Pool ℝ} (hperm : other.candidates.Perm pool.candidates)
    (covering : Covering) : other.likelihood covering = pool.likelihood covering := by
  rw [likelihood, likelihood, ((hperm.filter _).map _).prod_eq, ((hperm.filter _).map _).prod_eq]

end Pool

/-- Costs in exact numbers are negative log-likelihoods.  For a pool of probabilities between zero
and one the cost of a covering is always a number, minus the logarithm of the probability that
exactly the candidates in the covering happen.  Neither itemsets from elsewhere nor the order of the
pool change it, and the probabilities of all the coverings drawn from the pool add up to one. -/
theorem cost_isNegLogLikelihood {pool : Pool ℝ}
    (hopen : ∀ c ∈ pool.candidates, 0 < c.2 ∧ c.2 < 1) :
    ∃ cost : Covering → ℝ,
      (∀ covering, pool.cost covering = .ok (cost covering)) ∧
      (∀ covering, Real.exp (-cost covering) =
        ((pool.candidates.filter fun c => decide (c.1 ∈ covering)).map Prod.snd).prod *
          ((pool.candidates.filter fun c => !decide (c.1 ∈ covering)).map fun c => 1 - c.2).prod) ∧
      (∀ covering other, (∀ s ∈ pool.itemsets, s ∈ other ↔ s ∈ covering) →
        cost other = cost covering) ∧
      (∀ reordered : Pool ℝ, reordered.candidates.Perm pool.candidates →
        ∀ covering, reordered.cost covering = .ok (cost covering)) ∧
      ∑ covering ∈ pool.coverings, Real.exp (-cost covering) = 1 := by
  have hcost := Pool.cost_eq hopen
  have hexp := Pool.exp_neg_onTotal_add_offTotal hopen
  refine ⟨fun covering => pool.onTotal covering + pool.offTotal covering, hcost, hexp,
    fun covering other hagree => ?_, fun reordered hperm covering => ?_, ?_⟩
  · have hsame : pool.cost other = pool.cost covering := Pool.Agree.cost_eq hagree
    rw [hcost, hcost] at hsame
    exact Except.ok.inj hsame
  · have hopen' : ∀ c ∈ reordered.candidates, 0 < c.2 ∧ c.2 < 1 :=
      fun c hc => hopen c (hperm.mem_iff.1 hc)
    have hsame : Real.exp (-(reordered.onTotal covering + reordered.offTotal covering)) =
        Real.exp (-(pool.onTotal covering + pool.offTotal covering)) := by
      rw [Pool.exp_neg_onTotal_add_offTotal hopen', hexp, Pool.likelihood_perm hperm]
    rw [Pool.cost_eq hopen', neg_injective (Real.exp_injective hsame)]
  · simp only [hexp, Pool.sum_likelihood]

/-- The two halves of four items, when all four as one candidate have probability three tenths. -/
theorem cost_halves_isNegLogLikelihood :
    ∃ cost : Covering → ℝ, overlapping.cost halves = .ok (cost halves) ∧
      Real.exp (-cost halves) = 1 / 2 * (1 / 2) * (7 / 10) ∧
      overlapping.coverings.card = 8 ∧
      ∑ covering ∈ overlapping.coverings, Real.exp (-cost covering) = 1 := by
  have hopen := Pool.within_open overlapping_lt_one
  rw [overlapping_within] at hopen
  obtain ⟨cost, hcost, hexp, -, -, hsum⟩ := cost_isNegLogLikelihood hopen
  refine ⟨cost, hcost halves, (hexp halves).trans ?_, by decide, hsum⟩
  have hon : (overlapping.candidates.filter fun c => decide (c.1 ∈ halves)) =
      [(SortedSet.ofList [1, 2], 1 / 2), (SortedSet.ofList [3, 4], 1 / 2)] := rfl
  have hoff : (overlapping.candidates.filter fun c => !decide (c.1 ∈ halves)) =
      [(SortedSet.ofList [1, 2, 3, 4], 3 / 10)] := rfl
  rw [hon, hoff]
  norm_num

end NoisyCover
