import Mathlib
import NoisyCover.Cost

/-!
# Costs in exact numbers

Over the real numbers the cost of a pool under a covering is a sum of two sums, one over the
candidates in the covering and one over those left out (`cost_eq`).  What a covering is charged for
switching candidates on is `sumIn` of `onCost`, and `offCost` is what it is charged for the rest.

A sum over candidates of sums over the elements that each of them is related to counts every element
as often as there are candidates related to it (`sum_map_sum_filter`).
-/

namespace NoisyCover

/-- The nearest integer, a tie to the even one. -/
noncomputable def nearestEven (x : ℝ) : ℤ :=
  if Int.fract x = 1 - Int.fract x ∧ Even ⌊x⌋ then ⌊x⌋ else round x

theorem nearestEven_intCast (n : ℤ) : nearestEven n = n := by
  unfold nearestEven
  rw [if_neg (by simp), round_intCast]

noncomputable instance exactArithmetic : Arithmetic ℝ where
  decidableLT := inferInstance
  decidableLE := inferInstance
  log := Real.log
  bounded _ := true
  nearestInt x := .ok (nearestEven x)

/-- The cost of switching on a candidate of probability `p`. -/
noncomputable def onCost (p : ℝ) : ℝ := -Real.log p

/-- The cost of leaving off a candidate of probability `p`. -/
noncomputable def offCost (p : ℝ) : ℝ := -Real.log (1 - p)

section Costs

variable {p : ℝ}

theorem onCost_nonneg (h0 : 0 < p) (h1 : p ≤ 1) : 0 ≤ onCost p :=
  neg_nonneg.2 (Real.log_nonpos h0.le h1)

theorem checkedLog_of_pos (h : 0 < p) : Arithmetic.checkedLog p = .ok (Real.log p) :=
  if_neg (not_le.2 h)

theorem costOn_eq (h : 0 < p) : costOn p = .ok (onCost p) := by
  rw [costOn, checkedLog_of_pos h]
  rfl

theorem costOff_eq (h : p < 1) : costOff p = .ok (offCost p) := by
  rw [costOff, checkedLog_of_pos (sub_pos.2 h)]
  rfl

theorem logOddsAgainst_eq (h0 : 0 < p) (h1 : p < 1) :
    logOddsAgainst p = .ok (onCost p - offCost p) := by
  have hz : Arithmetic.isZero p = false := by
    have : ¬ p ≤ 0 := not_le.2 h0
    simp only [Arithmetic.isZero, Bool.and_eq_false_iff, decide_eq_false_iff_not]
    exact .inl this
  have hlog : Real.log ((1 - p) / p) = onCost p - offCost p := by
    rw [Real.log_div (sub_pos.2 h1).ne' h0.ne', onCost, offCost]
    ring
  rw [logOddsAgainst, hz, ← hlog]
  exact checkedLog_of_pos (div_pos (sub_pos.2 h1) h0)

end Costs

section Sums

variable {α : Type*} {β : Type*}

theorem sum_map_nonneg {l : List α} {w : α → ℝ} (h : ∀ a ∈ l, 0 ≤ w a) : 0 ≤ (l.map w).sum := by
  refine List.sum_nonneg fun x hx => ?_
  obtain ⟨a, ha, rfl⟩ := List.mem_map.1 hx
  exact h a ha

theorem sum_map_filter_eq (l : List α) (p : α → Bool) (w : α → ℝ) :
    ((l.filter p).map w).sum = (l.map fun a => if p a then w a else 0).sum := by
  induction l with
  | nil => rfl
  | cons a l ih => by_cases h : p a <;> simp [h, ih]

theorem sum_map_ite_eq_countP (l : List α) (p : α → Bool) :
    (l.map fun a => if p a then (1 : ℝ) else 0).sum = l.countP p := by
  rw [← sum_map_filter_eq _ _ fun _ => (1 : ℝ), List.map_const', List.sum_replicate,
    nsmul_eq_mul, mul_one, List.countP_eq_length_filter]

/-- Every element is counted as often as there are others related to it. -/
theorem sum_map_sum_filter (l : List α) (m : List β) (related : α → β → Bool) (w : β → ℝ) :
    (l.map fun a => ((m.filter (related a)).map w).sum).sum =
      (m.map fun b => (l.countP (related · b) : ℝ) * w b).sum := by
  induction l with
  | nil => simp
  | cons a l ih =>
    rw [List.map_cons, List.sum_cons, ih, sum_map_filter_eq, ← List.sum_map_add]
    congr 1
    refine List.map_congr_left fun b _ => ?_
    rw [List.countP_cons]
    by_cases h : related a b
    · rw [if_pos h, if_pos h]
      push_cast
      ring
    · rw [if_neg h, if_neg h, zero_add, add_zero]

theorem mapM_ok {l : List α} {f : α → Except Fault β} {g : α → β}
    (h : ∀ a ∈ l, f a = .ok (g a)) : l.mapM f = .ok (l.map g) := by
  induction l with
  | nil => rfl
  | cons a l ih =>
    obtain ⟨ha, hl⟩ := List.forall_mem_cons.1 h
    rw [List.mapM_cons, ha, ih hl]
    rfl

theorem foldlM_add_ok {l : List α} {f : α → Except Fault ℝ} {w : α → ℝ}
    (h : ∀ a ∈ l, f a = .ok (w a)) (start : ℝ) :
    l.foldlM (fun total a => (f a).map (total + ·)) start = .ok (start + (l.map w).sum) := by
  induction l generalizing start with
  | nil => exact congrArg Except.ok (add_zero start).symm
  | cons a l ih =>
    rw [List.foldlM_cons, h a List.mem_cons_self]
    refine (ih (fun b hb => h b (List.mem_cons_of_mem _ hb)) (start + w a)).trans ?_
    rw [List.map_cons, List.sum_cons, add_assoc]

end Sums

namespace Pool

/-- The sum of a weight over the candidates in a covering. -/
noncomputable def sumIn (pool : Pool ℝ) (covering : Covering) (w : Candidate ℝ → ℝ) : ℝ :=
  ((pool.candidates.filter fun c => decide (c.1 ∈ covering)).map w).sum

/-- The sum of a weight over the candidates that a covering leaves out. -/
noncomputable def sumOut (pool : Pool ℝ) (covering : Covering) (w : Candidate ℝ → ℝ) : ℝ :=
  ((pool.candidates.filter fun c => !decide (c.1 ∈ covering)).map w).sum

/-- What a covering is charged for switching its candidates on. -/
noncomputable def onTotal (pool : Pool ℝ) (covering : Covering) : ℝ :=
  pool.sumIn covering fun c => onCost c.2

/-- What a covering is charged for leaving the other candidates off. -/
noncomputable def offTotal (pool : Pool ℝ) (covering : Covering) : ℝ :=
  pool.sumOut covering fun c => offCost c.2

variable {pool : Pool ℝ} {covering : Covering} {w w' : Candidate ℝ → ℝ}

theorem sumIn_le_sumIn (h : ∀ c ∈ pool.candidates, c.1 ∈ covering → w c ≤ w' c) :
    pool.sumIn covering w ≤ pool.sumIn covering w' := by
  refine List.sum_le_sum fun c hc => ?_
  obtain ⟨hm, hin⟩ := List.mem_filter.1 hc
  exact h c hm (of_decide_eq_true hin)

theorem sumIn_congr (h : ∀ c ∈ pool.candidates, c.1 ∈ covering → w c = w' c) :
    pool.sumIn covering w = pool.sumIn covering w' :=
  le_antisymm (sumIn_le_sumIn fun c hc hin => (h c hc hin).le)
    (sumIn_le_sumIn fun c hc hin => (h c hc hin).ge)

theorem sumIn_nonneg (h : ∀ c ∈ pool.candidates, 0 ≤ w c) : 0 ≤ pool.sumIn covering w :=
  sum_map_nonneg fun c hc => h c (List.mem_filter.1 hc).1

theorem sumIn_empty : pool.sumIn ∅ w = 0 := by
  simp [sumIn]

theorem sumIn_add :
    pool.sumIn covering (fun c => w c + w' c) = pool.sumIn covering w + pool.sumIn covering w' :=
  List.sum_map_add ..

theorem sumIn_mul_left (r : ℝ) :
    pool.sumIn covering (fun c => r * w c) = r * pool.sumIn covering w :=
  List.sum_map_mul_left ..

theorem sumIn_sub :
    pool.sumIn covering (fun c => w c - w' c) = pool.sumIn covering w - pool.sumIn covering w' := by
  have h : pool.sumIn covering (fun c => w c - w' c + w' c) = pool.sumIn covering w :=
    sumIn_congr fun c _ _ => sub_add_cancel _ _
  rw [sumIn_add] at h
  exact eq_sub_of_add_eq h

theorem sumIn_add_sumOut (pool : Pool ℝ) (covering : Covering) (w : Candidate ℝ → ℝ) :
    pool.sumIn covering w + pool.sumOut covering w = (pool.candidates.map w).sum := by
  rw [sumIn, sumOut, sum_map_filter_eq, sum_map_filter_eq, ← List.sum_map_add]
  refine congrArg List.sum (List.map_congr_left fun c _ => ?_)
  by_cases h : c.1 ∈ covering <;> simp [h]

/-- One more itemset adds the weight of its candidate. -/
theorem sumIn_insert {c : Candidate ℝ} (hc : c ∈ pool.candidates) (hnew : c.1 ∉ covering) :
    pool.sumIn (covering.insert c.1) w = w c + pool.sumIn covering w := by
  have hnodup := pool.nodup
  unfold sumIn
  rw [sum_map_filter_eq, sum_map_filter_eq]
  generalize pool.candidates = l at hc hnodup
  induction l with
  | nil => cases hc
  | cons d l ih =>
    obtain ⟨hd, hl⟩ := List.nodup_cons.1 hnodup
    simp only [List.map_cons, List.sum_cons, decide_eq_true_eq, SortedSet.mem_insert] at ih ⊢
    rcases List.mem_cons.1 hc with rfl | hc
    · have hrest : (l.map fun e => if e.1 = c.1 ∨ e.1 ∈ covering then w e else 0) =
          l.map fun e => if e.1 ∈ covering then w e else 0 := by
        refine List.map_congr_left fun e he => ?_
        have hne : e.1 ≠ c.1 := fun h => hd (h ▸ List.mem_map_of_mem he)
        simp only [hne, false_or]
      rw [hrest, if_pos (.inl rfl), if_neg hnew, zero_add]
    · have hne : d.1 ≠ c.1 := fun h => hd (h ▸ List.mem_map_of_mem hc)
      rw [ih hc hl]
      simp only [hne, false_or]
      exact add_left_comm _ _ _

theorem sumIn_insert_le {c : Candidate ℝ} (hc : c ∈ pool.candidates)
    (hw : ∀ d ∈ pool.candidates, 0 ≤ w d) :
    pool.sumIn (covering.insert c.1) w ≤ w c + pool.sumIn covering w := by
  by_cases hin : c.1 ∈ covering
  · have hsame : covering.insert c.1 = covering := by
      refine SortedSet.ext_mem fun s => ?_
      rw [SortedSet.mem_insert, or_iff_right_of_imp fun h => h ▸ hin]
    rw [hsame]
    exact le_add_of_nonneg_left (hw c hc)
  · exact (sumIn_insert hc hin).le

theorem onCost_within_nonneg {t : Transaction} (hp : ∀ c ∈ (pool.within t).candidates, c.2 ≤ 1) :
    ∀ c ∈ (pool.within t).candidates, 0 ≤ onCost c.2 :=
  fun c hc => onCost_nonneg (mem_within.1 hc).2.1 (hp c hc)

theorem within_open {t : Transaction} (hp : ∀ c ∈ (pool.within t).candidates, c.2 < 1) :
    ∀ c ∈ (pool.within t).candidates, 0 < c.2 ∧ c.2 < 1 :=
  fun c hc => ⟨(mem_within.1 hc).2.1, hp c hc⟩

/-- The cost of a pool is what a covering is charged for both kinds of candidates. -/
theorem cost_eq (h : ∀ c ∈ pool.candidates, 0 < c.2 ∧ c.2 < 1) (covering : Covering) :
    pool.cost covering = .ok (pool.onTotal covering + pool.offTotal covering) := by
  have hcost : ∀ c ∈ pool.candidates, candidateCost covering c =
      .ok (if c.1 ∈ covering then onCost c.2 else offCost c.2) := by
    intro c hc
    unfold candidateCost
    split_ifs
    · exact costOn_eq (h c hc).1
    · exact costOff_eq (h c hc).2
  have hsum := List.sum_map_ite (fun c : Candidate ℝ => c.1 ∈ covering)
    (fun c => onCost c.2) (fun c => offCost c.2) pool.candidates
  rw [Pool.cost, foldlM_add_ok hcost, hsum, zero_add]
  simp only [onTotal, offTotal, sumIn, sumOut, decide_not]

end Pool

end NoisyCover
