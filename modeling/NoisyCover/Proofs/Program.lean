import Mathlib
import NoisyCover.Inference
import NoisyCover.Proofs.Covering

/-!
# The covering program is the covering problem

An assignment of zeros and ones to the candidates of a pool stands for the candidates it switches
on.  Every such assignment is the `indicator` of the covering it decodes to (`indicator_chosen`),
and a covering drawn from the pool is decoded from its indicator (`mem_chosen_indicator`).  Under an
indicator the row of an item counts the candidates of the covering that contain it, and the
objective adds up what switching them on costs more than leaving them off.  So the assignments under
which every row reaches one are the complete coverings (`isFeasible_indicator_iff`), and up to a
constant the objective is the cost of a covering (`onTotal_add_offTotal`).
-/

namespace NoisyCover

namespace BinaryProgram

/-- The value of a row of coefficients under an assignment. -/
noncomputable def dot (row values : List ℝ) : ℝ := (List.zipWith (· * ·) row values).sum

theorem dot_nil (values : List ℝ) : dot [] values = 0 := rfl

theorem dot_cons (a : ℝ) (row : List ℝ) (x : ℝ) (values : List ℝ) :
    dot (a :: row) (x :: values) = a * x + dot row values := rfl

/-- A zero or a one for each of `n` variables. -/
structure IsAssignment (n : ℕ) (values : List ℝ) : Prop where
  length_eq : values.length = n
  zero_or_one : ∀ x ∈ values, x = 0 ∨ x = 1

/-- An assignment under which every row reaches one. -/
structure IsFeasible (p : BinaryProgram ℝ) (values : List ℝ) : Prop where
  assignment : IsAssignment p.variableCount values
  reaches : ∀ row ∈ p.rows, 1 ≤ dot row values

/-- A feasible assignment of least objective. -/
structure IsOptimal (p : BinaryProgram ℝ) (values : List ℝ) : Prop extends
    IsFeasible p values where
  least : ∀ other, p.IsFeasible other → dot p.objective values ≤ dot p.objective other

end BinaryProgram

open BinaryProgram

section Decoding

variable {candidates : List (Candidate ℝ)} {values : List ℝ}

/-- The itemsets of the candidates with value one. -/
noncomputable def chosen (candidates : List (Candidate ℝ)) (values : List ℝ) : List Itemset :=
  ((candidates.zip values).filter fun cv => decide (cv.2 = 1)).map fun cv => cv.1.1

/-- The value of each candidate when those in a covering are switched on. -/
noncomputable def indicator (candidates : List (Candidate ℝ)) (covering : Covering) : List ℝ :=
  candidates.map fun c => if c.1 ∈ covering then 1 else 0

theorem indicator_isAssignment (candidates : List (Candidate ℝ)) (covering : Covering) :
    IsAssignment candidates.length (indicator candidates covering) where
  length_eq := List.length_map _
  zero_or_one x hx := by
    obtain ⟨c, -, rfl⟩ := List.mem_map.1 hx
    split_ifs
    · exact .inr rfl
    · exact .inl rfl

theorem nearestInt_zero_or_one {x : ℝ} (hx : x = 0 ∨ x = 1) :
    Arithmetic.nearestInt x = .ok (if x = 1 then 1 else 0) := by
  rcases hx with rfl | rfl
  · rw [if_neg zero_ne_one]
    exact congrArg Except.ok (by exact_mod_cast nearestEven_intCast 0)
  · rw [if_pos rfl]
    exact congrArg Except.ok (by exact_mod_cast nearestEven_intCast 1)

theorem decode_eq : ∀ {candidates : List (Candidate ℝ)} {values : List ℝ},
    (∀ x ∈ values, x = 0 ∨ x = 1) → Exact.decode candidates values = .ok (chosen candidates values)
  | [], _, _ => by simp [Exact.decode, chosen]
  | _ :: _, [], _ => by simp [Exact.decode, chosen]
  | c :: candidates, x :: values, h => by
    obtain ⟨hx, hvalues⟩ := List.forall_mem_cons.1 h
    rw [Exact.decode, nearestInt_zero_or_one hx, decode_eq hvalues]
    by_cases hone : x = 1
    · simp [chosen, hone, bind, Except.bind, pure, Except.pure]
    · simp [chosen, hone, bind, Except.bind, pure, Except.pure]

theorem chosen_cons (c : Candidate ℝ) (candidates : List (Candidate ℝ)) (x : ℝ) (values : List ℝ) :
    chosen (c :: candidates) (x :: values) =
      if x = 1 then c.1 :: chosen candidates values else chosen candidates values := by
  unfold chosen
  by_cases h : x = 1 <;> simp [h]

theorem chosen_subset : ∀ {candidates : List (Candidate ℝ)} {values : List ℝ} {s : Itemset},
    s ∈ chosen candidates values → s ∈ candidates.map Prod.fst
  | [], _, _, h => by simp [chosen] at h
  | _ :: _, [], _, h => by simp [chosen] at h
  | c :: candidates, x :: values, s, h => by
    rw [chosen_cons] at h
    split_ifs at h
    · rcases List.mem_cons.1 h with rfl | h
      · exact List.mem_cons_self
      · exact List.mem_cons_of_mem _ (chosen_subset h)
    · exact List.mem_cons_of_mem _ (chosen_subset h)

theorem map_mem_chosen : ∀ {candidates : List (Candidate ℝ)} {values : List ℝ},
    (candidates.map Prod.fst).Nodup → IsAssignment candidates.length values →
      (candidates.map fun c => if c.1 ∈ chosen candidates values then (1 : ℝ) else 0) = values
  | [], values, _, h => (List.length_eq_zero_iff.1 h.length_eq).symm
  | _ :: _, [], _, h => by cases h.length_eq
  | c :: candidates, x :: values, hnodup, h => by
    obtain ⟨hc, hrest⟩ := List.nodup_cons.1 hnodup
    obtain ⟨hx, hvalues⟩ := List.forall_mem_cons.1 h.zero_or_one
    have ih := map_mem_chosen hrest ⟨Nat.succ.inj h.length_eq, hvalues⟩
    have htail : (candidates.map fun d =>
        if d.1 ∈ chosen (c :: candidates) (x :: values) then (1 : ℝ) else 0) = values := by
      refine Eq.trans (List.map_congr_left fun d hd => ?_) ih
      have hne : d.1 ≠ c.1 := fun heq => hc (heq ▸ List.mem_map_of_mem hd)
      rw [chosen_cons]
      split_ifs <;> simp_all
    have hhead : (if c.1 ∈ chosen (c :: candidates) (x :: values) then (1 : ℝ) else 0) = x := by
      rw [chosen_cons]
      rcases hx with rfl | rfl
      · rw [if_neg zero_ne_one, if_neg fun hmem => hc (chosen_subset hmem)]
      · rw [if_pos rfl, if_pos List.mem_cons_self]
    rw [List.map_cons, hhead, htail]

theorem indicator_chosen (hnodup : (candidates.map Prod.fst).Nodup)
    (h : IsAssignment candidates.length values) :
    indicator candidates (SortedSet.ofList (chosen candidates values)) = values := by
  refine Eq.trans (List.map_congr_left fun c _ => ?_) (map_mem_chosen hnodup h)
  simp only [SortedSet.mem_ofList]

theorem mem_chosen_indicator {covering : Covering} {s : Itemset} :
    s ∈ chosen candidates (indicator candidates covering) ↔
      s ∈ candidates.map Prod.fst ∧ s ∈ covering := by
  induction candidates with
  | nil => simp [chosen]
  | cons c candidates ih =>
    rw [indicator, List.map_cons, chosen_cons, ← indicator]
    by_cases hc : c.1 ∈ covering
    · rw [if_pos hc, if_pos rfl, List.mem_cons, ih, List.map_cons, List.mem_cons]
      constructor
      · rintro (rfl | ⟨hs, hin⟩)
        · exact ⟨.inl rfl, hc⟩
        · exact ⟨.inr hs, hin⟩
      · rintro ⟨rfl | hs, hin⟩
        · exact .inl rfl
        · exact .inr ⟨hs, hin⟩
    · rw [if_neg hc, if_neg zero_ne_one, ih, List.map_cons, List.mem_cons]
      constructor
      · rintro ⟨hs, hin⟩
        exact ⟨.inr hs, hin⟩
      · rintro ⟨rfl | hs, hin⟩
        · exact absurd hin hc
        · exact ⟨hs, hin⟩

/-- Under an indicator a row adds up the coefficients of the candidates in the covering. -/
theorem dot_indicator (w : Candidate ℝ → ℝ) (candidates : List (Candidate ℝ))
    (covering : Covering) :
    dot (candidates.map w) (indicator candidates covering) =
      ((candidates.filter fun c => decide (c.1 ∈ covering)).map w).sum := by
  rw [sum_map_filter_eq, dot, indicator, List.zipWith_map, List.zipWith_self]
  simp only [mul_ite, mul_one, mul_zero, decide_eq_true_eq]

end Decoding

/-- When the program can be built, exact inference asks the solver for it. -/
theorem Exact.infer_of_build {K : Type u} [Arithmetic K] {m : Type u → Type v} [Monad m]
    {solve : Solver m K} {pool : Pool K} {t : Transaction} {p : BinaryProgram K}
    (h : BinaryProgram.build (pool.within t) t = .ok p) (covering : Covering) :
    infer solve covering pool t =
      solve p >>= fun answer => pure (conclude covering pool t answer) := by
  rw [infer, answer, h]

section Building

variable {pool : Pool ℝ} {t : Transaction} {covering : Covering}

/-- The covering program of a pool, with its objective in terms of both costs. -/
noncomputable def coveringProgram (pool : Pool ℝ) (t : Transaction) : BinaryProgram ℝ where
  objective := pool.candidates.map fun c => onCost c.2 - offCost c.2
  rows := t.map (rowOf pool.candidates)
  integrality := List.replicate pool.size 1
  items := t

theorem build_eq (hopen : ∀ c ∈ pool.candidates, 0 < c.2 ∧ c.2 < 1) (t : Transaction) :
    BinaryProgram.build pool t = .ok (coveringProgram pool t) := by
  rw [BinaryProgram.build, mapM_ok fun c hc => logOddsAgainst_eq (hopen c hc).1 (hopen c hc).2]
  rfl

theorem coveringProgram_variableCount (pool : Pool ℝ) (t : Transaction) :
    (coveringProgram pool t).variableCount = pool.candidates.length :=
  List.length_map _

theorem isAssignment_of_isFeasible {values : List ℝ}
    (h : (coveringProgram pool t).IsFeasible values) :
    IsAssignment pool.candidates.length values := by
  rw [← coveringProgram_variableCount pool t]
  exact h.assignment

theorem dot_objective_indicator (pool : Pool ℝ) (t : Transaction) (covering : Covering) :
    dot (coveringProgram pool t).objective (indicator pool.candidates covering) =
      pool.sumIn covering fun c => onCost c.2 - offCost c.2 :=
  dot_indicator _ _ _

theorem dot_rowOf_indicator (pool : Pool ℝ) (i : Item) (covering : Covering) :
    dot (rowOf pool.candidates i) (indicator pool.candidates covering) =
      (pool.candidates.filter fun c => decide (c.1 ∈ covering)).countP
        fun c => decide (i ∈ c.1) := by
  have hrow : rowOf pool.candidates i =
      pool.candidates.map fun c => if decide (i ∈ c.1) then (1 : ℝ) else 0 := by
    simp only [decide_eq_true_eq]
    rfl
  rw [hrow, dot_indicator, sum_map_ite_eq_countP]

theorem isFeasible_indicator_iff :
    (coveringProgram pool t).IsFeasible (indicator pool.candidates covering) ↔
      ∀ i ∈ t, ∃ c ∈ pool.candidates, c.1 ∈ covering ∧ i ∈ c.1 := by
  have hrow : ∀ i, 1 ≤ dot (rowOf pool.candidates i) (indicator pool.candidates covering) ↔
      ∃ c ∈ pool.candidates, c.1 ∈ covering ∧ i ∈ c.1 := by
    intro i
    rw [dot_rowOf_indicator, Nat.one_le_cast, Nat.one_le_iff_ne_zero, ← Nat.pos_iff_ne_zero,
      List.countP_pos_iff]
    simp only [List.mem_filter, decide_eq_true_eq, and_assoc]
  constructor
  · intro h i hi
    exact (hrow i).1 (h.reaches _ (List.mem_map_of_mem hi))
  · intro h
    refine ⟨?_, fun row hmem => ?_⟩
    · rw [coveringProgram_variableCount]
      exact indicator_isAssignment _ _
    · obtain ⟨i, hi, rfl⟩ := List.mem_map.1 hmem
      exact (hrow i).2 (h i hi)

/-- The feasible indicators of coverings drawn from the pool are those of complete coverings. -/
theorem isFeasible_indicator_iff_isComplete
    (hdrawn : ∀ s ∈ covering, s ∈ (pool.within t).itemsets) :
    (coveringProgram (pool.within t) t).IsFeasible
        (indicator (pool.within t).candidates covering) ↔ isComplete covering pool t = true := by
  rw [isFeasible_indicator_iff, isComplete_iff, and_iff_right hdrawn]
  refine forall₂_congr fun i _ => ?_
  constructor
  · rintro ⟨c, -, hc, hi⟩
    exact ⟨c.1, hc, hi⟩
  · rintro ⟨s, hs, hi⟩
    obtain ⟨c, hc, rfl⟩ := List.mem_map.1 (hdrawn s hs)
    exact ⟨c, hc, hs, hi⟩

/-- The cost of a covering is its objective value and the cost of leaving every candidate off. -/
theorem onTotal_add_offTotal (pool : Pool ℝ) (covering : Covering) :
    pool.onTotal covering + pool.offTotal covering =
      pool.sumIn covering (fun c => onCost c.2 - offCost c.2) +
        (pool.candidates.map fun c => offCost c.2).sum := by
  rw [Pool.sumIn_sub, ← Pool.sumIn_add_sumOut pool covering, Pool.onTotal,
    Pool.offTotal]
  ring

end Building

end NoisyCover
