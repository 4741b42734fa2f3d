import Mathlib
import NoisyCover.Proofs.Charges
import NoisyCover.Proofs.Optimiser

/-!
# The incidence graph and the covering program

The rows of the covering program list the edges of the incidence graph.  A row has a one exactly at
the positions of the candidates that its item has an edge to (`getElem?_rowOf`), so its sum is the
degree of the item (`rowSum_rowOf`), and the isolated items are those of the rows of zeros
(`isolatedItems_eq_zeroRows`).  The other way round, a candidate has an edge to each of its items,
and candidates within the transaction add no items to the graph.
-/

namespace NoisyCover

open BinaryProgram

section Rows

variable {K : Type} [Arithmetic K] {pool : Pool K} {t : Transaction} {i : Item}

theorem getElem?_rowOf {k : ℕ} (hk : k < pool.size) (t : Transaction) (i : Item) :
    (rowOf pool.candidates i)[k]? =
      some (if (k, i) ∈ (IncidenceGraph.build pool t).edges then 1 else 0) := by
  have hget : pool.candidates[k]? = some pool.candidates[k] := List.getElem?_eq_getElem hk
  have hedge : (k, i) ∈ (IncidenceGraph.build pool t).edges ↔ i ∈ pool.candidates[k].1 := by
    rw [IncidenceGraph.mem_edges_build, hget]
    exact ⟨fun ⟨c, hc, hi⟩ => Option.some.inj hc ▸ hi, fun hi => ⟨_, rfl, hi⟩⟩
  rw [rowOf, List.getElem?_map, hget, Option.map_some]
  simp only [hedge]

/-- A covering program can be built exactly when every candidate has odds to take the logarithm of;
its rows do not depend on them. -/
theorem exists_build_iff (pool : Pool K) (t : Transaction) :
    (∃ p, BinaryProgram.build pool t = .ok p) ↔
      ∀ c ∈ pool.candidates, ∃ x, logOddsAgainst c.2 = .ok x := by
  rw [BinaryProgram.build, exists_map_ok_iff, exists_mapM_ok_iff]

theorem rows_of_build {p : BinaryProgram K} (h : BinaryProgram.build pool t = .ok p) :
    p.rows = t.map (rowOf pool.candidates) ∧ p.items = t := by
  rw [BinaryProgram.build] at h
  rcases hobjective : pool.candidates.mapM fun c => logOddsAgainst c.2 with fault | objective
  · rw [hobjective] at h
    cases h
  · rw [hobjective] at h
    obtain rfl := Except.ok.inj h
    exact ⟨rfl, rfl⟩

end Rows

namespace Rounding

variable {K : Type} [Arithmetic K] (R : Rounding K) {pool : Pool K} {t : Transaction} {i : Item}

/-- The exact sum of a row. -/
noncomputable def rowSum (row : List K) : ℝ := (row.map (realOf R.value)).sum

theorem rowSum_rowOf (pool : Pool K) (t : Transaction) (i : Item) :
    R.rowSum (rowOf pool.candidates i) = (IncidenceGraph.build pool t).itemDegree i := by
  have hentry : ∀ c : Candidate K, realOf R.value (if i ∈ c.1 then 1 else 0) =
      if decide (i ∈ c.1) then (1 : ℝ) else 0 := by
    intro c
    by_cases hi : i ∈ c.1
    · simp [hi, realOf_eq R.value R.value_one]
    · simp [hi, realOf_eq R.value R.value_zero]
  rw [rowSum, rowOf, List.map_map, IncidenceGraph.itemDegree_build]
  simp only [Function.comp_def, hentry]
  exact sum_map_ite_eq_countP _ _

/-- The sum that the program itself takes of a row is exact, as long as all counts of candidates are
numbers. -/
theorem value_pairwiseSum_rowOf (hexact : ∀ n : ℕ, n ≤ pool.size → R.round n = (n : ℝ))
    (t : Transaction) (i : Item) :
    R.value (Arithmetic.pairwiseSum (rowOf pool.candidates i)) =
      some (((IncidenceGraph.build pool t).itemDegree i : ℝ) : EReal) := by
  have hentry : ∀ c ∈ pool.candidates, (if decide (i ∈ c.1) then 1 else 0) < pool.size + 1 →
      R.value (if i ∈ c.1 then (1 : K) else 0) =
        some (((if decide (i ∈ c.1) then 1 else 0 : ℕ) : ℝ) : EReal) := by
    intro c _ _
    by_cases hi : i ∈ c.1
    · simp [hi, R.value_one]
    · simp [hi, R.value_zero]
  have hadd : Additive fun (x : K) n =>
      n < pool.size + 1 → R.value x = some ((n : ℝ) : EReal) :=
    R.additive_exact fun n hn => hexact n (by omega)
  have hsum := Tally.pairwiseSum hadd _ (Tally.map hentry)
  rw [sum_map_ite_one] at hsum
  rw [IncidenceGraph.itemDegree_build]
  exact hsum (Nat.lt_succ_of_le List.countP_le_length)

section Zeros

include R

theorem isZero_zero : Arithmetic.isZero (0 : K) = true :=
  (R.isZero_iff R.additive_counts.zero).2 rfl

theorem not_isZero_one : ¬ Arithmetic.isZero (1 : K) = true := by
  rw [R.isZero_iff (n := 1) ⟨1, R.value_one, by simp, fun _ => le_rfl⟩]
  exact one_ne_zero

/-- The isolated items are those of the rows of zeros, in order of the rows. -/
theorem isolatedItems_eq_zeroRows (pool : Pool K) (t : Transaction) :
    isolatedItems pool t = ((t.zip (t.map (rowOf pool.candidates))).filter fun ir =>
      ir.2.all Arithmetic.isZero).map Prod.fst := by
  rw [← List.map_prod_left_eq_zip, List.filter_map, List.map_map, isolatedItems_eq_filter]
  refine Eq.trans (List.filter_congr fun i _ => ?_) (List.map_id _).symm
  have hzero : ∀ c : Candidate K, Arithmetic.isZero (if i ∈ c.1 then (1 : K) else 0) = true ↔
      i ∉ c.1 := by
    intro c
    by_cases hi : i ∈ c.1
    · simp [hi, R.not_isZero_one]
    · simp [hi, R.isZero_zero]
  rw [Bool.eq_iff_iff, Bool.not_eq_true', decide_eq_false_iff_not, mem_unionOf,
    Function.comp_apply, List.all_eq_true, rowOf, List.forall_mem_map]
  simp only [hzero]
  constructor
  · intro hnone c hc hi
    exact hnone ⟨c.1, List.mem_map_of_mem hc, hi⟩
  · rintro hnone ⟨s, hs, hi⟩
    obtain ⟨c, hc, rfl⟩ := List.mem_map.1 hs
    exact hnone c hc hi

end Zeros

theorem largestItemDegree_eq (pool : Pool K) (t : Transaction) :
    (largestItemDegree pool t : ℝ) =
      ((t.map (rowOf pool.candidates)).map R.rowSum).foldl max 0 := by
  have hdegree : (t.map (rowOf pool.candidates)).map R.rowSum =
      (t.map (IncidenceGraph.build pool t).itemDegree).map Nat.cast := by
    rw [List.map_map, List.map_map]
    exact List.map_congr_left fun i _ => R.rowSum_rowOf pool t i
  rw [hdegree, List.foldl_map, ← Nat.cast_zero, List.foldl_hom (Nat.cast : ℕ → ℝ)]
  · rfl
  · intro m n
    exact (Nat.cast_max m n).symm

end Rounding

/-- The incidence graph of a pool and its covering program describe the same relation.  The program
can be built when every candidate has odds, and then it has a row for each item of the transaction,
with a one for each edge of the item and zeros elsewhere.  The sum of the row is the degree of the
item, the number of candidates that contain it, and the program finds that sum exactly as long as
all counts of candidates are numbers.  So the largest degree is the largest sum of a row, the
isolated items are those of the rows of zeros, and there is an empty row exactly when there are any.
A candidate has as many edges as items, and within the transaction the graph has no other nodes than
the items of the transaction and the candidates.  Whatever was inserted more than once is in the
graph once: its edges are different from each other, and there is one exactly from a candidate to
each of its items. -/
theorem build_describes_incidence {K : Type} [Arithmetic K] (R : Rounding K) (pool : Pool K)
    (t : Transaction) :
    let g := IncidenceGraph.build pool t
    ((∃ p, BinaryProgram.build pool t = .ok p) ↔
        ∀ c ∈ pool.candidates, ∃ x, logOddsAgainst c.2 = .ok x) ∧
      ((∀ c ∈ pool.candidates, 0 < c.2 ∧ c.2 < 1) → ∃ p, BinaryProgram.build pool t = .ok p) ∧
      (∀ p, BinaryProgram.build pool t = .ok p →
        p.rows.length = t.length ∧
        (∀ (r : ℕ) (i : Item), t[r]? = some i → ∃ row, p.rows[r]? = some row ∧
          row.length = pool.size ∧
          (∀ k < pool.size, row[k]? = some (if (k, i) ∈ g.edges then 1 else 0)) ∧
          R.rowSum row = g.itemDegree i ∧
          g.itemDegree i = pool.candidates.countP (fun c => decide (i ∈ c.1)) ∧
          ((∀ n : ℕ, n ≤ pool.size → R.round n = (n : ℝ)) →
            R.value (Arithmetic.pairwiseSum row) = some ((g.itemDegree i : ℝ) : EReal))) ∧
        (largestItemDegree pool t : ℝ) = (p.rows.map R.rowSum).foldl max 0 ∧
        isolatedItems pool t =
          ((p.items.zip p.rows).filter fun ir => ir.2.all Arithmetic.isZero).map Prod.fst ∧
        (p.hasEmptyRow = true ↔ isolatedItems pool t ≠ [])) ∧
      (∀ (k : ℕ) (c : Candidate K), pool.candidates[k]? = some c → g.setDegree k = c.1.size) ∧
      (IncidenceGraph.build (pool.within t) t).itemNodes =
        (IncidenceGraph.build (pool.within t) t).transactionItems ∧
      (IncidenceGraph.build (pool.within t) t).nodeCount =
        t.items.size + (pool.within t).size ∧
      g.transactionItems = t.items ∧ g.setNodes = pool.candidates ∧
      (∀ i, i ∈ g.itemNodes ↔ i ∈ t ∨ ∃ c ∈ pool.candidates, i ∈ c.1) ∧
      g.edges.Nodup ∧
      ∀ (k : ℕ) (i : Item), (k, i) ∈ g.edges ↔ ∃ c, pool.candidates[k]? = some c ∧ i ∈ c.1 := by
  intro g
  have hnodes : (IncidenceGraph.build (pool.within t) t).itemNodes = t.items :=
    IncidenceGraph.itemNodes_build fun c hc => (Pool.mem_within.1 hc).2.2
  refine ⟨exists_build_iff pool t, fun hopen => ⟨_, R.build_eq hopen t⟩, fun p hp => ?_,
    fun k c hk => IncidenceGraph.setDegree_build hk t,
    hnodes.trans (IncidenceGraph.transactionItems_build _ t).symm, ?_,
    IncidenceGraph.transactionItems_build pool t, IncidenceGraph.setNodes_build pool t,
    fun i => IncidenceGraph.mem_itemNodes_build, g.nodup,
    fun k i => IncidenceGraph.mem_edges_build⟩
  · obtain ⟨hrows, hitems⟩ := rows_of_build hp
    refine ⟨by rw [hrows, List.length_map], fun r i hi => ?_, ?_, ?_,
      R.hasEmptyRow_iff hrows hitems⟩
    · refine ⟨rowOf pool.candidates i, by rw [hrows, List.getElem?_map, hi]; rfl,
        List.length_map _, fun k hk => getElem?_rowOf hk t i, R.rowSum_rowOf pool t i,
        IncidenceGraph.itemDegree_build pool t i,
        fun hexact => R.value_pairwiseSum_rowOf hexact t i⟩
    · rw [hrows]
      exact R.largestItemDegree_eq pool t
    · rw [hrows, hitems]
      exact R.isolatedItems_eq_zeroRows pool t
  · rw [IncidenceGraph.nodeCount, hnodes, IncidenceGraph.setNodes_build]
    rfl

section Scattered

/-- An itemset with an item from elsewhere, the empty itemset, and one of two items. -/
noncomputable def scattered : Pool ℝ where
  candidates := [(SortedSet.ofList [1, 9], 1 / (2 : ℕ)), (∅, 1 / (3 : ℕ)),
    (SortedSet.ofList [1, 2], 1 / (4 : ℕ))]
  nodup := by decide

/-- A transaction with a repeated item and an item that no candidate contains. -/
theorem build_scattered :
    ∃ p, BinaryProgram.build scattered [1, 3, 1] = .ok p ∧ p.hasEmptyRow = true ∧
      (p.rows.map exactRounding.rowSum).foldl max 0 = 2 := by
  have hopen : ∀ c ∈ scattered.candidates, 0 < c.2 ∧ c.2 < 1 := by
    intro c hc
    simp only [scattered, List.mem_cons, List.not_mem_nil, or_false] at hc
    rcases hc with rfl | rfl | rfl <;> norm_num
  obtain ⟨-, hbuild, hp, -⟩ := build_describes_incidence exactRounding scattered [1, 3, 1]
  obtain ⟨p, hpool⟩ := hbuild hopen
  obtain ⟨-, -, hlargest, -, hempty⟩ := hp p hpool
  refine ⟨p, hpool, hempty.2 (by decide), ?_⟩
  rw [← hlargest, show largestItemDegree scattered [1, 3, 1] = 2 by decide]
  norm_num

end Scattered

end NoisyCover
