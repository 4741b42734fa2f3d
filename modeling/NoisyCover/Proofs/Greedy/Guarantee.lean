import Mathlib
import NoisyCover.Proofs.Covering
import NoisyCover.Proofs.Greedy.Coverage

/-!
# How far greedy covering is from the best covering

Fix a competing covering, and charge each of its candidates its on-cost times the harmonic number of
its uncovered items (`potential`).  A step pays the same price for each item it newly covers, and no
candidate offers a lower price, so a candidate that loses `k` of `n` uncovered items to the step
loses at least `k` times the price of its charge: its on-cost is at least `n` times the price, and
`k / n` is at most what the harmonic number falls by (`div_le_harmonic_sub`).  The competitor
contains every newly covered item, so a step pays at most what the potential falls
(`onCost_add_potential_le`), and all steps together at most what it is at the start.
-/

namespace NoisyCover.Greedy

theorem div_le_harmonic_sub {n m : ℕ} : ∀ k, m + k ≤ n →
    (k : ℝ) / n ≤ (harmonic (m + k) : ℝ) - harmonic m
  | 0, _ => by simp
  | k + 1, h => by
    have ih := div_le_harmonic_sub (n := n) (m := m) k (by omega)
    have hinv : (1 : ℝ) / n ≤ ((m + k + 1 : ℕ) : ℝ)⁻¹ := by
      rw [one_div]
      exact inv_anti₀ (by positivity) (by exact_mod_cast h)
    rw [← add_assoc, harmonic_succ]
    push_cast at hinv ⊢
    rw [add_div]
    linarith

theorem harmonic_le_harmonic {m n : ℕ} (h : m ≤ n) : (harmonic m : ℝ) ≤ harmonic n := by
  obtain ⟨k, rfl⟩ := Nat.exists_eq_add_of_le h
  have hdiv := div_le_harmonic_sub (n := m + k) k le_rfl
  have hnonneg : (0 : ℝ) ≤ (k : ℝ) / ((m + k : ℕ) : ℝ) := by positivity
  linarith

theorem harmonic_nonneg (n : ℕ) : (0 : ℝ) ≤ harmonic n := by
  have h := harmonic_le_harmonic (Nat.zero_le n)
  rwa [harmonic_zero, Rat.cast_zero] at h

/-- The charge of a competing covering when some items are covered. -/
noncomputable def potential (pool : Pool ℝ) (covering : Covering) (covered : SortedSet Item) : ℝ :=
  pool.sumIn covering fun c => onCost c.2 * harmonic (c.1 \ covered).size

section Charge

variable {pool : Pool ℝ} {covering : Covering} {covered : SortedSet Item}

/-- A candidate's charge falls by at least its share of the price of the newly covered items. -/
theorem charge_add_price_mul_le {price p : ℝ} (hp : 0 ≤ onCost p) (s u : SortedSet Item)
    (hprice : (s \ covered).size ≠ 0 → price ≤ onCost p / (s \ covered).size) :
    onCost p * harmonic (s \ (covered ∪ u)).size + price * ((u \ covered) ∩ s).size ≤
      onCost p * harmonic (s \ covered).size := by
  have hsize := size_sdiff_union_add s u covered
  set n := (s \ covered).size
  set m := (s \ (covered ∪ u)).size
  set k := ((u \ covered) ∩ s).size
  rcases Nat.eq_zero_or_pos n with hn | hn
  · have hk : k = 0 := by omega
    have hm : m = 0 := by omega
    rw [hn, hk, hm]
    simp
  · have hdiv := div_le_harmonic_sub (n := n) (m := m) k hsize.le
    rw [hsize] at hdiv
    have hshare : price * k ≤ onCost p * (k / n) := by
      calc price * k ≤ onCost p / n * k := by
            gcongr
            exact hprice hn.ne'
        _ = onCost p * (k / n) := by ring
    have hfall : onCost p * (k / n) ≤ onCost p * (harmonic n - harmonic m) := by gcongr
    linarith

variable (hdrawn : ∀ s ∈ covering, s ∈ pool.itemsets)
  (hcover : ∀ s ∈ pool.itemsets, ∀ i ∈ s, ∃ d ∈ covering, i ∈ d)
  (hp : ∀ c ∈ pool.candidates, 0 ≤ onCost c.2)

include hdrawn in
/-- A covering that contains all of some items contains each of them at least once. -/
theorem size_le_sumIn_size_inter (fresh : SortedSet Item)
    (hfresh : ∀ i ∈ fresh, ∃ d ∈ covering, i ∈ d) :
    (fresh.size : ℝ) ≤ pool.sumIn covering fun c => ((fresh ∩ c.1).size : ℝ) := by
  have hsize : ∀ l : List Item, (l.length : ℝ) = (l.map fun _ => (1 : ℝ)).sum := by simp
  have hinter : ∀ c ∈ pool.candidates, c.1 ∈ covering → ((fresh ∩ c.1).size : ℝ) =
      ((fresh.toList.filter fun i => decide (i ∈ c.1)).map fun _ => (1 : ℝ)).sum := by
    intro c _ _
    rw [← hsize]
    rfl
  have hcount := Pool.sumIn_sum_filter hdrawn fresh.toList (fun i => i) fun _ => (1 : ℝ)
  rw [Pool.sumIn_congr hinter, hcount, SortedSet.size, hsize]
  refine List.sum_le_sum fun i hi => ?_
  obtain ⟨d, hd, hid⟩ := hfresh i hi
  rw [mul_one]
  exact_mod_cast timesCovered_pos hd hid

include hdrawn hcover hp in
/-- A step pays at most what the potential of a competing covering falls by. -/
theorem onCost_add_potential_le {found : Candidate ℝ × ℝ}
    (h : choose pool.candidates covered = some found) :
    onCost found.1.2 + potential pool covering (covered ∪ found.1.1) ≤
      potential pool covering covered := by
  obtain ⟨hmem, hfresh, hprice, hleast⟩ := choose_spec h
  set fresh := found.1.1 \ covered
  have hpos : (0 : ℝ) < fresh.size := by exact_mod_cast Nat.pos_of_ne_zero hfresh
  have hnonneg : 0 ≤ found.2 := hprice ▸ div_nonneg (hp _ hmem) hpos.le
  have hshare := size_le_sumIn_size_inter hdrawn fresh fun i hi =>
    hcover _ (List.mem_map_of_mem hmem) i (SortedSet.mem_sdiff.1 hi).1
  have hfall : potential pool covering (covered ∪ found.1.1) +
      pool.sumIn covering (fun c => found.2 * (fresh ∩ c.1).size) ≤
        potential pool covering covered := by
    rw [potential, ← Pool.sumIn_add]
    refine Pool.sumIn_le_sumIn fun c hc _ => ?_
    exact charge_add_price_mul_le (hp c hc) c.1 found.1.1 (hleast c hc)
  rw [Pool.sumIn_mul_left] at hfall
  calc onCost found.1.2 + potential pool covering (covered ∪ found.1.1)
      = found.2 * fresh.size + potential pool covering (covered ∪ found.1.1) := by
        rw [hprice, div_mul_cancel₀ _ hpos.ne']
    _ ≤ found.2 * pool.sumIn covering (fun c => ((fresh ∩ c.1).size : ℝ)) +
          potential pool covering (covered ∪ found.1.1) := by gcongr
    _ ≤ potential pool covering covered := by linarith

include hdrawn hcover hp in
/-- All steps together pay at most what the potential is at the start. -/
theorem onTotal_le_potential (items covered : SortedSet Item) :
    pool.onTotal (selected (picksFrom pool.candidates items covered)) ≤
      potential pool covering covered := by
  have hdone : ∀ covered, pool.onTotal (selected ([] : List (Pick ℝ))) ≤
      potential pool covering covered := by
    intro covered
    rw [selected_nil, Pool.onTotal, Pool.sumIn_empty]
    exact Pool.sumIn_nonneg fun c hc => mul_nonneg (hp c hc) (harmonic_nonneg _)
  fun_induction picksFrom pool.candidates items covered with
  | case1 covered h => exact hdone covered
  | case2 covered h hnone => exact hdone covered
  | case3 covered h found hsome ih =>
    rw [selected_cons]
    have hstep := onCost_add_potential_le hdrawn hcover hp hsome
    refine (Pool.sumIn_insert_le (choose_spec hsome).1 hp).trans (le_trans ?_ hstep)
    exact add_le_add le_rfl ih

end Charge

section Selection

variable {pool : Pool ℝ} {t : Transaction} {covering : Covering}
  (hp : ∀ c ∈ (pool.within t).candidates, c.2 ≤ 1)

include hp

/-- The potential starts at the on-costs times the harmonic numbers of the sizes. -/
theorem onTotal_selection_le_sumIn (hdrawn : ∀ s ∈ covering, s ∈ (pool.within t).itemsets)
    (hcover : ∀ s ∈ (pool.within t).itemsets, ∀ i ∈ s, ∃ d ∈ covering, i ∈ d) :
    (pool.within t).onTotal (selection pool t) ≤
      (pool.within t).sumIn covering fun c => onCost c.2 * harmonic c.1.size := by
  have hfresh : ∀ s : Itemset, s \ ∅ = s := fun s => SortedSet.ext_mem fun i => by simp
  have hpotential :=
    onTotal_le_potential hdrawn hcover (Pool.onCost_within_nonneg hp) t.items ∅
  rw [← picks_eq, ← selection, potential] at hpotential
  simpa only [hfresh] using hpotential

theorem sumIn_harmonic_le {n : ℕ} (hsize : ∀ c ∈ (pool.within t).candidates, c.1.size ≤ n) :
    ((pool.within t).sumIn covering fun c => onCost c.2 * harmonic c.1.size) ≤
      harmonic n * (pool.within t).onTotal covering := by
  rw [Pool.onTotal, ← Pool.sumIn_mul_left]
  refine Pool.sumIn_le_sumIn fun c hc _ => ?_
  rw [mul_comm]
  exact mul_le_mul_of_nonneg_right (harmonic_le_harmonic (hsize c hc))
    (Pool.onCost_within_nonneg hp c hc)

/-- When no candidate has more than `n` items, greedy covering pays at most the harmonic number of
`n` times what a complete covering pays. -/
theorem onTotal_selection_le_of_size_le (hcomplete : isComplete covering pool t = true) {n : ℕ}
    (hsize : ∀ c ∈ (pool.within t).candidates, c.1.size ≤ n) :
    (pool.within t).onTotal (selection pool t) ≤
      harmonic n * (pool.within t).onTotal covering := by
  -- a complete covering contains the items of all candidates
  obtain ⟨hdrawn, hcover⟩ := isComplete_iff.1 hcomplete
  refine (onTotal_selection_le_sumIn hp hdrawn fun s hs i hi => ?_).trans
    (sumIn_harmonic_le hp hsize)
  obtain ⟨c, hc, rfl⟩ := List.mem_map.1 hs
  exact hcover i ((Pool.mem_within.1 hc).2.2 i hi)

end Selection

/-- Greedy covering selects candidates only, and they cover all the items in candidates.  It pays
for them at most what any covering of these items pays with each candidate's on-cost multiplied by
the harmonic number of its size; so at most the harmonic number of the largest size times what that
covering pays. -/
theorem onTotal_selection_le (pool : Pool ℝ) (t : Transaction)
    (hp : ∀ c ∈ (pool.within t).candidates, c.2 ≤ 1) :
    (∀ s ∈ selection pool t, s ∈ (pool.within t).itemsets) ∧
      (∀ s ∈ (pool.within t).itemsets, ∀ i ∈ s, ∃ d ∈ selection pool t, i ∈ d) ∧
      ∀ covering : Covering, (∀ s ∈ covering, s ∈ (pool.within t).itemsets) →
        (∀ s ∈ (pool.within t).itemsets, ∀ i ∈ s, ∃ d ∈ covering, i ∈ d) →
        (pool.within t).onTotal (selection pool t) ≤
            (pool.within t).sumIn covering (fun c => onCost c.2 * harmonic c.1.size) ∧
          (pool.within t).onTotal (selection pool t) ≤
            harmonic (pool.within t).largestSize * (pool.within t).onTotal covering := by
  refine ⟨fun s hs => mem_itemsets_of_mem_selection hs,
    fun s hs i hi => (exists_mem_selection exactRounding hp).2 ⟨s, hs, hi⟩,
    fun covering hdrawn hcover => ?_⟩
  have hcharged := onTotal_selection_le_sumIn hp hdrawn hcover
  exact ⟨hcharged, hcharged.trans (sumIn_harmonic_le hp fun c hc => Pool.size_le_largestSize hc)⟩

theorem onTotal_selection_overlapping_le :
    (∀ i ∈ [1, 2, 3, 4], ∃ d ∈ selection overlapping [1, 2, 3, 4], i ∈ d) ∧
      overlapping.onTotal (selection overlapping [1, 2, 3, 4]) ≤
        harmonic 4 * overlapping.onTotal halves := by
  obtain ⟨-, hcovers, hcost⟩ := onTotal_selection_le overlapping [1, 2, 3, 4]
    fun c hc => (overlapping_lt_one c hc).le
  rw [overlapping_within] at hcovers hcost
  have hcoverable : ∀ i ∈ [1, 2, 3, 4], ∃ s ∈ overlapping.itemsets, i ∈ s := by decide
  refine ⟨fun i hi => ?_, (hcost halves (by decide) (by decide)).2⟩
  obtain ⟨s, hs, his⟩ := hcoverable i hi
  exact hcovers s hs i his

end NoisyCover.Greedy
