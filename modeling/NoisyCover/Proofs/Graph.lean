import Mathlib
import NoisyCover.Incidence

/-!
# What the incidence graph is made of

The graph grows by insertion, and what is inserted again is merged.  A candidate comes in a position
that no edge has yet, so joining it to its items adds all these edges (`edges_link`), and the graph
ends up with an edge for each candidate and each of its items (`edges_build`).  So the degree of an
item is the number of candidates that contain it (`itemDegree_build`), and that of a candidate the
number of its items (`setDegree_build`).
-/

namespace NoisyCover

namespace IncidenceGraph

variable {K : Type u} {g : IncidenceGraph K}

section Insertion

theorem foldl_addItem : ∀ (t : Transaction) (g : IncidenceGraph K),
    (t.foldl addItem g).transactionItems = g.transactionItems.insertMany t ∧
      (t.foldl addItem g).itemNodes = g.itemNodes.insertMany t ∧
      (t.foldl addItem g).setNodes = g.setNodes ∧ (t.foldl addItem g).edges = g.edges
  | [], _ => ⟨rfl, rfl, rfl, rfl⟩
  | i :: t, g => foldl_addItem t (g.addItem i)

/-- Joining a candidate to items only adds items and edges. -/
theorem foldl_addEdge (k : ℕ) : ∀ (l : List Item) (g : IncidenceGraph K),
    (l.foldl (fun joined i => joined.addEdge k i) g).transactionItems = g.transactionItems ∧
      (l.foldl (fun joined i => joined.addEdge k i) g).itemNodes = g.itemNodes.insertMany l ∧
      (l.foldl (fun joined i => joined.addEdge k i) g).setNodes = g.setNodes
  | [], _ => ⟨rfl, rfl, rfl⟩
  | i :: l, g => foldl_addEdge k l (g.addEdge k i)

theorem edges_foldl_addEdge (k : ℕ) : ∀ (l : List Item) (g : IncidenceGraph K), l.Nodup →
    (∀ i ∈ l, (k, i) ∉ g.edges) →
      (l.foldl (fun joined i => joined.addEdge k i) g).edges = g.edges ++ l.map fun i => (k, i)
  | [], g, _, _ => (List.append_nil _).symm
  | i :: l, g, hnodup, hnew => by
    obtain ⟨hi, hl⟩ := List.nodup_cons.1 hnodup
    have hadd : (g.addEdge k i).edges = g.edges ++ [(k, i)] := if_neg (hnew i List.mem_cons_self)
    have hrest : ∀ j ∈ l, (k, j) ∉ (g.addEdge k i).edges := by
      intro j hj hedge
      rcases mem_insertEdge.1 hedge with heq | hedge
      · obtain ⟨-, rfl⟩ := Prod.mk.inj heq
        exact hi hj
      · exact hnew j (List.mem_cons_of_mem _ hj) hedge
    rw [List.foldl_cons, edges_foldl_addEdge k l _ hl hrest, hadd, List.append_assoc]
    rfl

theorem setNodes_link (g : IncidenceGraph K) (c : Candidate K) :
    (g.link c).setNodes = g.setNodes ++ [c] :=
  (foldl_addEdge g.setNodes.length c.1.toList (g.addSet c)).2.2

theorem mem_itemNodes_link {c : Candidate K} {i : Item} :
    i ∈ (g.link c).itemNodes ↔ i ∈ g.itemNodes ∨ i ∈ c.1 := by
  rw [link, (foldl_addEdge _ _ _).2.1, SortedSet.mem_insertMany, or_comm]
  rfl

/-- All edges of a candidate are new, since its position is. -/
theorem edges_link (h : ∀ e ∈ g.edges, e.1 < g.setNodes.length) (c : Candidate K) :
    (g.link c).edges = g.edges ++ c.1.toList.map fun i => (g.setNodes.length, i) := by
  refine edges_foldl_addEdge _ _ (g.addSet c) c.1.nodup fun i _ hedge => ?_
  exact lt_irrefl _ (h _ hedge)

end Insertion

section Edges

/-- The edges of candidates whose positions start at `k`. -/
def edgesFrom : (k : ℕ) → List (Candidate K) → List (ℕ × Item)
  | _, [] => []
  | k, c :: rest => c.1.toList.map (fun i => (k, i)) ++ edgesFrom (k + 1) rest

theorem mem_edgesFrom : ∀ (k : ℕ) (candidates : List (Candidate K)) {j : ℕ} {i : Item},
    (j, i) ∈ edgesFrom k candidates ↔
      ∃ n c, candidates[n]? = some c ∧ j = k + n ∧ i ∈ c.1
  | k, [], j, i => by simp [edgesFrom]
  | k, c :: candidates, j, i => by
    rw [edgesFrom, List.mem_append, mem_edgesFrom (k + 1) candidates]
    constructor
    · rintro (h | ⟨n, d, hd, rfl, hi⟩)
      · simp only [List.mem_map, Prod.mk.injEq] at h
        obtain ⟨a, ha, rfl, rfl⟩ := h
        exact ⟨0, c, rfl, rfl, ha⟩
      · exact ⟨n + 1, d, hd, by omega, hi⟩
    · rintro ⟨n, d, hd, rfl, hi⟩
      rcases n with _ | n
      · obtain rfl := Option.some.inj hd
        exact .inl (List.mem_map.2 ⟨i, hi, rfl⟩)
      · exact .inr ⟨n, d, hd, by omega, hi⟩

theorem countP_edgesFrom_fst : ∀ (k n : ℕ) (candidates : List (Candidate K)),
    (edgesFrom k candidates).countP (fun e => e.1 == k + n) =
      candidates[n]?.elim 0 fun c => c.1.size
  | k, n, [] => by simp [edgesFrom]
  | k, 0, c :: candidates => by
    have hrest : (edgesFrom (k + 1) candidates).countP (fun e => e.1 == k + 0) =
        0 := by
      rw [List.countP_eq_zero]
      rintro ⟨j, i⟩ he
      obtain ⟨n, d, -, rfl, -⟩ := (mem_edgesFrom _ _).1 he
      simp
      omega
    rw [edgesFrom, List.countP_append, hrest, List.countP_map]
    simp [Function.comp_def, SortedSet.size]
  | k, n + 1, c :: candidates => by
    have hfirst : (c.1.toList.map fun i => (k, i)).countP (fun e => e.1 == k + (n + 1)) = 0 := by
      rw [List.countP_eq_zero]
      simp
    have ih := countP_edgesFrom_fst (k + 1) n candidates
    rw [edgesFrom, List.countP_append, hfirst, zero_add, List.getElem?_cons_succ,
      ← ih, Nat.add_right_comm, Nat.add_assoc]

theorem countP_edgesFrom (i : Item) : ∀ (k : ℕ) (candidates : List (Candidate K)),
    (edgesFrom k candidates).countP (fun e => e.2 == i) =
      candidates.countP fun c => decide (i ∈ c.1)
  | _, [] => rfl
  | k, c :: candidates => by
    have hc : (c.1.toList.map fun j => (k, j)).countP (fun e => e.2 == i) =
        if i ∈ c.1 then 1 else 0 := by
      rw [List.countP_map]
      exact c.1.nodup.count
    rw [edgesFrom, List.countP_append, countP_edgesFrom i (k + 1) candidates, hc,
      List.countP_cons, add_comm]
    simp only [decide_eq_true_eq]

theorem edges_foldl_link : ∀ (candidates : List (Candidate K)) (g : IncidenceGraph K),
    (∀ e ∈ g.edges, e.1 < g.setNodes.length) →
      (candidates.foldl link g).edges = g.edges ++ edgesFrom g.setNodes.length candidates
  | [], g, _ => (List.append_nil _).symm
  | c :: candidates, g, h => by
    have hlength : (g.link c).setNodes.length = g.setNodes.length + 1 := by
      rw [setNodes_link, List.length_append, List.length_singleton]
    have hlink : ∀ e ∈ (g.link c).edges, e.1 < (g.link c).setNodes.length := by
      intro e he
      rw [edges_link h, List.mem_append] at he
      rw [hlength]
      rcases he with he | he
      · exact (h e he).trans (Nat.lt_succ_self _)
      · obtain ⟨i, -, rfl⟩ := List.mem_map.1 he
        exact Nat.lt_succ_self _
    rw [List.foldl_cons, edges_foldl_link candidates _ hlink, edges_link h, hlength,
      List.append_assoc]
    rfl

theorem transactionItems_foldl_link : ∀ (candidates : List (Candidate K)) (g : IncidenceGraph K),
    (candidates.foldl link g).transactionItems = g.transactionItems
  | [], _ => rfl
  | c :: candidates, g =>
    (transactionItems_foldl_link candidates _).trans (foldl_addEdge _ _ (g.addSet c)).1

theorem setNodes_foldl_link : ∀ (candidates : List (Candidate K)) (g : IncidenceGraph K),
    (candidates.foldl link g).setNodes = g.setNodes ++ candidates
  | [], _ => (List.append_nil _).symm
  | c :: candidates, g => by
    rw [List.foldl_cons, setNodes_foldl_link candidates, setNodes_link, List.append_assoc]
    rfl

theorem mem_itemNodes_foldl_link {i : Item} : ∀ {candidates : List (Candidate K)}
    {g : IncidenceGraph K},
    i ∈ (candidates.foldl link g).itemNodes ↔ i ∈ g.itemNodes ∨ ∃ c ∈ candidates, i ∈ c.1
  | [], _ => by simp
  | c :: candidates, g => by
    rw [List.foldl_cons, mem_itemNodes_foldl_link, mem_itemNodes_link, or_assoc,
      List.exists_mem_cons_iff]

end Edges

section Build

variable {pool : Pool K} {t : Transaction} {k : ℕ} {i : Item}

theorem transactionItems_build (pool : Pool K) (t : Transaction) :
    (build pool t).transactionItems = t.items :=
  (transactionItems_foldl_link _ _).trans (foldl_addItem t empty).1

theorem setNodes_build (pool : Pool K) (t : Transaction) :
    (build pool t).setNodes = pool.candidates := by
  rw [build, setNodes_foldl_link, (foldl_addItem t empty).2.2.1]
  rfl

theorem mem_itemNodes_build :
    i ∈ (build pool t).itemNodes ↔ i ∈ t ∨ ∃ c ∈ pool.candidates, i ∈ c.1 := by
  rw [build, mem_itemNodes_foldl_link, (foldl_addItem t empty).2.1]
  exact or_congr_left Transaction.mem_items

theorem edges_build (pool : Pool K) (t : Transaction) :
    (build pool t).edges = edgesFrom 0 pool.candidates := by
  obtain ⟨-, -, hsets, hedges⟩ := foldl_addItem t (empty (K := K))
  have hfold := edges_foldl_link pool.candidates (t.foldl addItem empty)
  rw [hsets, hedges] at hfold
  exact hfold (by simp [empty])

/-- An edge joins a candidate to one of its items. -/
theorem mem_edges_build :
    (k, i) ∈ (build pool t).edges ↔ ∃ c, pool.candidates[k]? = some c ∧ i ∈ c.1 := by
  rw [edges_build, mem_edgesFrom]
  constructor
  · rintro ⟨n, c, hc, rfl, hi⟩
    rw [Nat.zero_add]
    exact ⟨c, hc, hi⟩
  · rintro ⟨c, hc, hi⟩
    exact ⟨k, c, hc, (Nat.zero_add k).symm, hi⟩

/-- The degree of an item is the number of candidates that contain it. -/
theorem itemDegree_build (pool : Pool K) (t : Transaction) (i : Item) :
    (build pool t).itemDegree i = pool.candidates.countP fun c => decide (i ∈ c.1) := by
  rw [itemDegree, edges_build, countP_edgesFrom]

/-- A candidate has as many edges as items. -/
theorem setDegree_build {c : Candidate K} (h : pool.candidates[k]? = some c) (t : Transaction) :
    (build pool t).setDegree k = c.1.size := by
  have hcount := countP_edgesFrom_fst 0 k pool.candidates
  rw [Nat.zero_add, h] at hcount
  rw [setDegree, edges_build, hcount]
  rfl

/-- Candidates within the transaction bring no new items. -/
theorem itemNodes_build (h : ∀ c ∈ pool.candidates, ∀ i ∈ c.1, i ∈ t) :
    (build pool t).itemNodes = t.items := by
  refine SortedSet.ext_mem fun i => ?_
  rw [mem_itemNodes_build, Transaction.mem_items]
  exact or_iff_left_of_imp fun ⟨c, hc, hi⟩ => h c hc i hi

end Build

end IncidenceGraph

end NoisyCover
