import Mathlib
import NoisyCover.Proofs.Greedy.Report
import NoisyCover.Proofs.Optimality
import NoisyCover.Proofs.PrimalDual.Accounting

/-!
# Costs relative to the best covering

When no candidate is more likely on than off, leaving a candidate off costs at most what switching
it on costs (`offCost_le_onCost`).  A selection is charged for the candidates of a competing
covering that it leaves off, and then that is at most what the covering pays for switching them on.
So a bound on what a selection pays for switching candidates on carries over to its whole cost, with
one added to the factor (`Pool.cost_le_of_onTotal_le`).  Both approximations have such a bound, and
that limits how far they are from the best covering (`cost_ratios_le`).
-/

namespace NoisyCover

theorem offCost_le_onCost {p : ℝ} (h0 : 0 < p) (h : p ≤ 1 / 2) : offCost p ≤ onCost p :=
  neg_le_neg (Real.log_le_log h0 (by linarith))

namespace Pool

variable {pool : Pool ℝ} {covering selected : Covering} {w : Candidate ℝ → ℝ}

theorem sumIn_mono (hw : ∀ c ∈ pool.candidates, 0 ≤ w c) (h : selected ⊆ covering) :
    pool.sumIn selected w ≤ pool.sumIn covering w := by
  unfold sumIn
  rw [sum_map_filter_eq, sum_map_filter_eq]
  refine List.sum_le_sum fun c hc => ?_
  by_cases hsel : c.1 ∈ selected
  · simp [hsel, h _ hsel]
  · by_cases hcov : c.1 ∈ covering <;> simp [hsel, hcov, hw c hc]

variable (hunlikely : ∀ c ∈ pool.candidates, 0 < c.2 ∧ c.2 ≤ 1 / 2)

include hunlikely

theorem onCost_nonneg_of_unlikely : ∀ c ∈ pool.candidates, 0 ≤ onCost c.2 :=
  fun c hc => onCost_nonneg (hunlikely c hc).1 (by linarith [(hunlikely c hc).2])

theorem offCost_nonneg_of_unlikely : ∀ c ∈ pool.candidates, 0 ≤ offCost c.2 :=
  fun c hc => offCost_nonneg (hunlikely c hc).1 (by linarith [(hunlikely c hc).2])

theorem onTotal_add_offTotal_nonneg (covering : Covering) :
    0 ≤ pool.onTotal covering + pool.offTotal covering :=
  add_nonneg (sumIn_nonneg (onCost_nonneg_of_unlikely hunlikely))
    (sum_map_nonneg fun c hc => offCost_nonneg_of_unlikely hunlikely c (List.mem_filter.1 hc).1)

/-- What one covering is charged for leaving candidates off is at most the whole cost of any
other. -/
theorem offTotal_le (selected covering : Covering) :
    pool.offTotal selected ≤ pool.onTotal covering + pool.offTotal covering := by
  have hon := onCost_nonneg_of_unlikely hunlikely
  have hoff := offCost_nonneg_of_unlikely hunlikely
  have hdifference : covering \ selected ⊆ covering := fun s hs => (SortedSet.mem_sdiff.1 hs).1
  calc pool.offTotal selected
      ≤ pool.offTotal covering + pool.sumIn (covering \ selected) (fun c => offCost c.2) :=
        sumOut_le_sumOut_add_sumIn hoff selected covering
    _ ≤ pool.offTotal covering + pool.sumIn (covering \ selected) (fun c => onCost c.2) := by
        gcongr
        exact sumIn_le_sumIn fun c hc _ =>
          offCost_le_onCost (hunlikely c hc).1 (hunlikely c hc).2
    _ ≤ pool.offTotal covering + pool.onTotal covering := by
        gcongr
        exact sumIn_mono hon hdifference
    _ = pool.onTotal covering + pool.offTotal covering := add_comm _ _

/-- A bound on what a covering pays for switching candidates on bounds its cost. -/
theorem cost_le_of_onTotal_le {k : ℝ} (hk : 0 ≤ k)
    (h : pool.onTotal selected ≤ k * pool.onTotal covering) :
    pool.onTotal selected + pool.offTotal selected ≤
      (1 + k) * (pool.onTotal covering + pool.offTotal covering) := by
  have hleft := offTotal_le hunlikely selected covering
  have hoff : 0 ≤ k * pool.offTotal covering :=
    mul_nonneg hk
      (sum_map_nonneg fun c hc => offCost_nonneg_of_unlikely hunlikely c (List.mem_filter.1 hc).1)
  linarith

end Pool

/-- When no candidate is more likely on than off, the cost that greedy covering reports is at most
one plus the harmonic number of the largest size times the cost of any complete covering, and the
cost of a primal-dual selection, whatever items are drawn, at most one plus the largest degree of an
item times that cost.  So these numbers bound both costs relative to what optimal inference
reports. -/
theorem cost_ratios_le {σ : Type} (source : RandomSource σ) (start : Covering) (pool : Pool ℝ)
    (t : Transaction) (state : σ) (hp : ∀ c ∈ (pool.within t).candidates, c.2 ≤ 1 / 2)
    (hcoverable : isolatedItems (pool.within t) t = []) :
    let filtered := pool.within t
    let selection := (PrimalDual.run source pool t state).selection
    ∃ x y : ℝ, (Greedy.infer start pool t).cost = .ok (.value x) ∧
      (PrimalDual.infer source start pool t state).1.covering = start ∪ selection ∧
      filtered.cost selection = .ok y ∧
      (∀ covering, isComplete covering pool t = true →
        ∃ z, filtered.cost covering = .ok z ∧ 0 ≤ z ∧
          x ≤ (1 + harmonic filtered.largestSize) * z ∧
          y ≤ (1 + largestItemDegree filtered t) * z) ∧
      ∀ best : Inference ℝ, best.IsOptimal start pool t →
        ∃ z, best.cost = .ok (.value z) ∧
          (z ≠ 0 → x / z ≤ 1 + harmonic filtered.largestSize ∧
            y / z ≤ 1 + largestItemDegree filtered t) := by
  intro filtered selection
  have hunlikely : ∀ c ∈ filtered.candidates, 0 < c.2 ∧ c.2 ≤ 1 / 2 :=
    fun c hc => ⟨(Pool.mem_within.1 hc).2.1, hp c hc⟩
  have hlt : ∀ c ∈ filtered.candidates, c.2 < 1 := fun c hc => by linarith [hp c hc]
  have hle : ∀ c ∈ filtered.candidates, c.2 ≤ 1 := fun c hc => (hlt c hc).le
  have hopen := Pool.within_open hlt
  have hcost := Pool.cost_eq hopen
  have hcourse := PrimalDual.run_course source pool t state
  have hon := Pool.onCost_nonneg_of_unlikely hunlikely
  have hbound : ∀ covering, isComplete covering pool t = true →
      ∃ z, filtered.cost covering = .ok z ∧ 0 ≤ z ∧
        filtered.onTotal (Greedy.selection pool t) +
            filtered.offTotal (Greedy.selection pool t) ≤
          (1 + harmonic filtered.largestSize) * z ∧
        filtered.onTotal selection + filtered.offTotal selection ≤
          (1 + largestItemDegree filtered t) * z := by
    intro covering hcomplete
    obtain ⟨hdrawn, hcover⟩ := isComplete_iff.1 hcomplete
    have hgreedy := Greedy.onTotal_selection_le_of_size_le hle hcomplete
      fun c hc => Pool.size_le_largestSize hc
    have hdual : filtered.onTotal selection ≤
        largestItemDegree filtered t * filtered.onTotal covering :=
      (PrimalDual.onTotal_selection_le_mul_sum_dual hcourse hon).trans
        (mul_le_mul_of_nonneg_left (PrimalDual.sum_dual_le_onTotal hcourse hon hdrawn hcover)
          (Nat.cast_nonneg _))
    exact ⟨_, hcost covering, Pool.onTotal_add_offTotal_nonneg hunlikely covering,
      Pool.cost_le_of_onTotal_le hunlikely (Greedy.harmonic_nonneg _) hgreedy,
      Pool.cost_le_of_onTotal_le hunlikely (Nat.cast_nonneg _) hdual⟩
  refine ⟨_, _, ?_, ?_, hcost selection, hbound, fun best hbest => ?_⟩
  · show (filtered.cost (Greedy.selection pool t)).map _ = _
    rw [hcost]
    rfl
  · show (PrimalDual.conclude start filtered.candidates _).covering = _
    simp only [PrimalDual.conclude, PrimalDual.Run.cost_eq _ hlt]
    rfl
  · obtain ⟨added, z, -, hreported, hcomplete, hz, -⟩ := hbest.1 hcoverable
    obtain ⟨z', hz', hnonneg, hgreedy, hdual⟩ := hbound added hcomplete
    obtain rfl := Except.ok.inj (hz.symm.trans hz')
    refine ⟨z, hreported, fun hne => ?_⟩
    have hpos : 0 < z := hnonneg.lt_of_ne' hne
    exact ⟨(div_le_iff₀ hpos).2 hgreedy, (div_le_iff₀ hpos).2 hdual⟩

/-- Four items explained by their halves. -/
theorem cost_ratios_overlapping_le :
    ∃ x y z : ℝ, (Greedy.infer ∅ overlapping [1, 2, 3, 4]).cost = .ok (.value x) ∧
      overlapping.cost
          (PrimalDual.run RandomSource.last overlapping [1, 2, 3, 4] ()).selection = .ok y ∧
      overlapping.cost halves = .ok z ∧
      x ≤ (1 + harmonic 4) * z ∧ y ≤ (1 + (2 : ℕ)) * z := by
  have hp : ∀ c ∈ (overlapping.within [1, 2, 3, 4]).candidates, c.2 ≤ 1 / 2 := by
    rw [overlapping_within]
    intro c hc
    simp only [overlapping, List.mem_cons, List.not_mem_nil, or_false] at hc
    rcases hc with rfl | rfl | rfl <;> norm_num
  have hcoverable := (exists_isComplete_iff overlapping).1 ⟨halves, halves_isComplete⟩
  obtain ⟨x, y, hx, -, hy, hbound, -⟩ :=
    cost_ratios_le RandomSource.last ∅ overlapping [1, 2, 3, 4] () hp hcoverable
  obtain ⟨z, hz, -, hgreedy, hdual⟩ := hbound halves halves_isComplete
  rw [overlapping_within] at hy hz hgreedy hdual
  exact ⟨x, y, z, hx, hy, hz, hgreedy, hdual⟩

end NoisyCover
