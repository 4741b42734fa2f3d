import Mathlib
import NoisyCover.Proofs.Decoding
import NoisyCover.Proofs.Minimisers
import NoisyCover.Proofs.Optimality

/-!
# How inexact the values of a solver may be

Rounding a value that is within `eps` of zero or one moves it by at most `eps`, when that is less
than one half.  So the value of a row moves by at most `eps` times the sum of its coefficients
(`abs_dot_sub_le`), and in the row of an item that sum is the number of candidates that contain the
item.  The rounded values give a row a whole number, so a row that they move by less than what it
already has reaches one (`one_le_dot_of_near`).  The objective moves by at most `eps` times the sum
of the absolute values of its coefficients, and with it the cost (`infer_tolerates`).
-/

namespace NoisyCover

open BinaryProgram Std.Do

/-- Values within `eps` of zero or one under which every row lacks at most `tau` to reach one. -/
structure BinaryProgram.IsNearlyFeasible (p : BinaryProgram ℝ) (eps tau : ℝ)
    (values : List ℝ) : Prop where
  length_eq : values.length = p.variableCount
  near : ∀ x ∈ values, |x| ≤ eps ∨ |x - 1| ≤ eps
  nearly_reaches : ∀ row ∈ p.rows, 1 - tau ≤ dot row values

/-- What exact inference leaves behind for values that are off by `eps`.  It adds the covering that
it decodes from them, which is complete, and its cost is the value of the objective and the cost of
leaving every candidate off, up to `eps` times the sum of the absolute coefficients. -/
def Inference.Tolerates (inference : Inference ℝ) (p : BinaryProgram ℝ) (eps : ℝ)
    (values : List ℝ) (covering : Covering) (pool : Pool ℝ) (t : Transaction) : Prop :=
  ∃ (added : Covering) (cost : ℝ),
    Exact.selection (pool.within t).candidates (some values) = .ok (some added) ∧
    inference.covering = covering ∪ added ∧ isComplete added pool t = true ∧
    inference.cost = .ok (.value cost) ∧
    |cost - (dot p.objective values + ((pool.within t).candidates.map fun c => offCost c.2).sum)| ≤
      eps * ((pool.within t).candidates.map fun c => |onCost c.2 - offCost c.2|).sum

/-- The values, each rounded to the nearest integer. -/
noncomputable def rounded (values : List ℝ) : List ℝ := values.map fun x => (nearestEven x : ℝ)

section Rounded

variable {eps x : ℝ} {values : List ℝ}

theorem nearestEven_of_near (heps : eps < 1 / 2) (h : |x| ≤ eps ∨ |x - 1| ≤ eps) :
    (nearestEven x = 0 ∨ nearestEven x = 1) ∧ |x - nearestEven x| ≤ eps := by
  rcases h with h | h
  · have hzero : nearestEven x = 0 :=
      nearestEven_eq (by rw [Int.cast_zero, sub_zero]; exact h.trans_lt heps)
    rw [hzero, Int.cast_zero, sub_zero]
    exact ⟨.inl rfl, h⟩
  · have hone : nearestEven x = 1 := nearestEven_eq (by rw [Int.cast_one]; exact h.trans_lt heps)
    rw [hone, Int.cast_one]
    exact ⟨.inr rfl, h⟩

theorem isAssignment_rounded (heps : eps < 1 / 2)
    (hnear : ∀ x ∈ values, |x| ≤ eps ∨ |x - 1| ≤ eps) :
    IsAssignment values.length (rounded values) where
  length_eq := List.length_map _
  zero_or_one := by
    refine List.forall_mem_map.2 fun x hx => ?_
    exact (nearestEven_of_near heps (hnear x hx)).1.imp (by simp [·]) (by simp [·])

/-- Decoding rounds the values itself. -/
theorem decode_rounded : ∀ (candidates : List (Candidate ℝ)) (values : List ℝ),
    Exact.decode candidates (rounded values) = Exact.decode candidates values
  | [], _ => by simp [Exact.decode]
  | _ :: _, [] => rfl
  | c :: candidates, x :: values => by
    have hnearest : Arithmetic.nearestInt (nearestEven x : ℝ) = Arithmetic.nearestInt x :=
      congrArg Except.ok (nearestEven_intCast (nearestEven x))
    rw [rounded, List.map_cons, Exact.decode, Exact.decode, hnearest, ← rounded,
      decode_rounded candidates values]

/-- Moving every value by at most `eps` moves the value of a row by at most `eps` times the sum of
its absolute coefficients. -/
theorem abs_dot_sub_le {f : ℝ → ℝ} (heps : 0 ≤ eps) : ∀ (row : List ℝ) {values : List ℝ},
    (∀ x ∈ values, |x - f x| ≤ eps) →
      |dot row values - dot row (values.map f)| ≤ eps * (row.map fun a => |a|).sum
  | [], values, _ => by simp [dot_nil]
  | a :: row, [], _ => by
    have hsum : 0 ≤ ((a :: row).map fun a => |a|).sum := sum_map_nonneg fun a _ => abs_nonneg a
    simpa [dot] using mul_nonneg heps hsum
  | a :: row, x :: values, h => by
    obtain ⟨hx, hvalues⟩ := List.forall_mem_cons.1 h
    have ih := abs_dot_sub_le heps row hvalues
    rw [List.map_cons, List.map_cons, dot_cons, dot_cons, List.sum_cons]
    calc |a * x + dot row values - (a * f x + dot row (values.map f))|
        = |a * (x - f x) + (dot row values - dot row (values.map f))| := by ring_nf
      _ ≤ |a * (x - f x)| + |dot row values - dot row (values.map f)| := abs_add_le _ _
      _ ≤ |a| * eps + eps * (row.map fun a => |a|).sum := by
        rw [abs_mul]
        gcongr
      _ = eps * (|a| + (row.map fun a => |a|).sum) := by ring

end Rounded

section Rows

variable {pool : Pool ℝ} {t : Transaction} {eps tau : ℝ} {values : List ℝ} {i : Item}

/-- The coefficients of the row of an item add up to the number of candidates that contain it. -/
theorem sum_abs_rowOf (pool : Pool ℝ) (i : Item) :
    ((rowOf pool.candidates i).map fun a => |a|).sum =
      pool.candidates.countP fun c => decide (i ∈ c.1) := by
  rw [← sum_map_ite_eq_countP, rowOf, List.map_map]
  refine congrArg List.sum (List.map_congr_left fun c _ => ?_)
  by_cases hi : i ∈ c.1 <;> simp [hi]

/-- Under an assignment a row has a whole number, so one that has more than zero reaches one. -/
theorem one_le_dot_rowOf (h : IsAssignment pool.candidates.length values)
    (hpos : 0 < dot (rowOf pool.candidates i) values) :
    1 ≤ dot (rowOf pool.candidates i) values := by
  rw [← indicator_switchedOn h, dot_rowOf_indicator] at hpos ⊢
  exact_mod_cast hpos

theorem one_le_dot_of_near (heps : 0 ≤ eps) (heps' : eps < 1 / 2)
    (htau : tau + eps * largestItemDegree pool t < 1) (hi : i ∈ t)
    (hlength : values.length = pool.candidates.length)
    (hnear : ∀ x ∈ values, |x| ≤ eps ∨ |x - 1| ≤ eps)
    (hreach : 1 - tau ≤ dot (rowOf pool.candidates i) values) :
    1 ≤ dot (rowOf pool.candidates i) (rounded values) := by
  have hmoved := abs_dot_sub_le heps (rowOf pool.candidates i)
    fun x hx => (nearestEven_of_near heps' (hnear x hx)).2
  rw [sum_abs_rowOf] at hmoved
  have hdegree : eps * (pool.candidates.countP fun c => decide (i ∈ c.1)) ≤
      eps * largestItemDegree pool t := by
    gcongr
    exact countP_le_largestItemDegree pool hi
  -- rounding takes less from the row than it has, and what is left is a whole number
  have hlost := (abs_le.1 hmoved).2
  rw [← rounded] at hlost
  refine one_le_dot_rowOf (hlength ▸ isAssignment_rounded heps' hnear) ?_
  linarith

end Rows

section Inference

variable {pool : Pool ℝ} {t : Transaction} {eps tau : ℝ} {values : List ℝ}

theorem isComplete_rounded (heps : 0 ≤ eps) (heps' : eps < 1 / 2)
    (htau : tau + eps * largestItemDegree (pool.within t) t < 1)
    (h : (coveringProgram (pool.within t) t).IsNearlyFeasible eps tau values) :
    isComplete (switchedOn (pool.within t).candidates (rounded values)) pool t = true := by
  have hlength : values.length = (pool.within t).candidates.length :=
    h.length_eq.trans (coveringProgram_variableCount _ t)
  refine (reaches_iff_isComplete (hlength ▸ isAssignment_rounded heps' h.near)).1 ?_
  refine List.forall_mem_map.2 fun i hi => ?_
  exact one_le_dot_of_near heps heps' htau hi hlength h.near
    (h.nearly_reaches _ (List.mem_map_of_mem hi))

theorem abs_cost_sub_le (heps : 0 ≤ eps) (heps' : eps < 1 / 2)
    (hnear : ∀ x ∈ values, |x| ≤ eps ∨ |x - 1| ≤ eps) (pool : Pool ℝ) (t : Transaction) :
    |dot (coveringProgram pool t).objective (rounded values) -
        dot (coveringProgram pool t).objective values| ≤
      eps * (pool.candidates.map fun c => |onCost c.2 - offCost c.2|).sum := by
  have hmoved := abs_dot_sub_le heps (coveringProgram pool t).objective
    fun x hx => (nearestEven_of_near heps' (hnear x hx)).2
  rw [abs_sub_comm, coveringProgram, List.map_map] at hmoved
  exact hmoved

end Inference

/-- The values of a solver may be off by `eps` from zeros and ones, and every row may lack `tau` to
reach one, as long as `tau` and `eps` times the largest degree of an item add up to less than
one. -/
theorem infer_tolerates {pool : Pool ℝ} {t : Transaction}
    (hp : ∀ c ∈ (pool.within t).candidates, c.2 < 1) {eps tau : ℝ} (heps : 0 ≤ eps)
    (heps' : eps < 1 / 2) (htau : tau + eps * largestItemDegree (pool.within t) t < 1)
    {m : Type → Type v} {ps : PostShape} [Monad m] [WPMonad m ps] (solve : Solver m ℝ) :
    ∃ p, BinaryProgram.build (pool.within t) t = .ok p ∧
      ∀ values, p.IsNearlyFeasible eps tau values →
        ⦃⌜True⌝⦄ solve p ⦃⇓ answer => ⌜answer.values = .ok (some values)⌝⦄ →
        ∀ covering, ⦃⌜True⌝⦄ Exact.infer solve covering pool t
          ⦃⇓ inference => ⌜inference.Tolerates p eps values covering pool t⌝⦄ := by
  have hopen := Pool.within_open hp
  refine ⟨_, build_eq hopen t, fun values h hsolve covering => ?_⟩
  have hlength : values.length = (pool.within t).candidates.length :=
    h.length_eq.trans (coveringProgram_variableCount _ t)
  have hassign := hlength ▸ isAssignment_rounded heps' h.near
  have hdecode : Exact.decode (pool.within t).candidates values =
      .ok (chosen (pool.within t).candidates (rounded values)) :=
    (decode_rounded _ values).symm.trans (decode_eq hassign.zero_or_one)
  rw [Exact.infer_of_build (build_eq hopen t)]
  refine Triple.bind _ _ hsolve fun answer => Triple.pure _ (SPred.pure_mono fun hvalues => ?_)
  obtain ⟨hadded, hcost⟩ := conclude_of_decode covering hvalues hdecode
  rw [← switchedOn, cost_switchedOn (t := t) hopen hassign] at hcost
  refine ⟨_, _, ?_, hadded, isComplete_rounded heps heps' htau h, hcost, ?_⟩
  · rw [Exact.selection, hdecode]
    rfl
  · rw [add_sub_add_right_eq_sub]
    exact abs_cost_sub_le heps heps' h.near _ t

section Overlapping

/-- Nearly the two halves of four items. -/
noncomputable def nearHalves : List ℝ := [-1 / 20, 19 / 20, 1]

theorem nearHalves_isNearlyFeasible :
    (coveringProgram overlapping [1, 2, 3, 4]).IsNearlyFeasible (1 / 20) (1 / 10) nearHalves where
  length_eq := rfl
  near := by
    simp only [nearHalves, List.forall_mem_cons, abs_le]
    norm_num
  nearly_reaches := by
    have hrows : (coveringProgram overlapping [1, 2, 3, 4]).rows =
        [[1, 1, 0], [1, 1, 0], [1, 0, 1], [1, 0, 1]] := rfl
    rw [hrows]
    simp only [nearHalves, List.forall_mem_cons, dot_cons, dot_nil]
    norm_num

/-- Values that nearly select the two halves select a complete covering. -/
theorem infer_nearHalves :
    let inference : Inference ℝ :=
      (Exact.infer (fixedSolver (some nearHalves)) ∅ overlapping [1, 2, 3, 4] : Id _).run
    isComplete inference.covering overlapping [1, 2, 3, 4] = true ∧
      ∃ cost, inference.cost = .ok (.value cost) ∧
        |cost - (dot (coveringProgram overlapping [1, 2, 3, 4]).objective nearHalves +
            (overlapping.candidates.map fun c => offCost c.2).sum)| ≤
          1 / 20 * (overlapping.candidates.map fun c => |onCost c.2 - offCost c.2|).sum := by
  intro inference
  have hdegree : largestItemDegree (overlapping.within [1, 2, 3, 4]) [1, 2, 3, 4] = 2 := by
    rw [overlapping_within]
    decide
  have htau : (1 / 10 : ℝ) +
      1 / 20 * largestItemDegree (overlapping.within [1, 2, 3, 4]) [1, 2, 3, 4] < 1 := by
    rw [hdegree]
    norm_num
  obtain ⟨p, hp, h⟩ := infer_tolerates overlapping_lt_one (by norm_num) (by norm_num) htau
    (fixedSolver (m := Id) (some nearHalves))
  rw [build_eq (Pool.within_open overlapping_lt_one)] at hp
  obtain rfl := Except.ok.inj hp
  rw [overlapping_within] at h
  have hsolve : ⦃⌜True⌝⦄ (fixedSolver (m := Id) (some nearHalves) : Solver Id ℝ)
      (coveringProgram overlapping [1, 2, 3, 4])
      ⦃⇓ answer => ⌜answer.values = .ok (some nearHalves)⌝⦄ :=
    Triple.pure _ (SPred.pure_intro rfl)
  obtain ⟨added, cost, -, hadded, hcomplete, hcost, hbound⟩ :=
    run_of_triple (h nearHalves nearHalves_isNearlyFeasible hsolve ∅)
  rw [overlapping_within] at hbound
  refine ⟨?_, cost, hcost, hbound⟩
  rw [hadded, SortedSet.empty_union]
  exact hcomplete

end Overlapping

end NoisyCover
