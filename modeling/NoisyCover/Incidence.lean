import NoisyCover.Pool

/-!
# The incidence graph of items and candidates

One side of the graph holds the items of the transaction, the other the candidates, known by their
position in the pool.  An edge joins a candidate to each of its items.  Items that only candidates
mention are nodes too, but belong to neither side.

The graph is built by inserting nodes and edges.  What is there already is not inserted again, so no
item and no edge is there twice.
-/

namespace NoisyCover

structure IncidenceGraph (K : Type u) where
  /-- The items of the transaction, one side of the graph. -/
  transactionItems : SortedSet Item
  itemNodes : SortedSet Item
  /-- The candidates, the other side of the graph, in pool order. -/
  setNodes : List (Candidate K)
  /-- The edges, each a candidate's position and one of its items, in order of insertion. -/
  edges : List (Nat × Item)
  nodup : edges.Nodup

namespace IncidenceGraph

variable {K : Type u}

def empty : IncidenceGraph K := ⟨∅, ∅, [], [], .nil⟩

/-- Adds an item of the transaction. -/
def addItem (g : IncidenceGraph K) (i : Item) : IncidenceGraph K :=
  { g with
    transactionItems := g.transactionItems.insert i
    itemNodes := g.itemNodes.insert i }

/-- Adds a candidate, in the next position. -/
def addSet (g : IncidenceGraph K) (c : Candidate K) : IncidenceGraph K :=
  { g with setNodes := g.setNodes ++ [c] }

/-- Puts an edge at the end, unless it is there already. -/
def insertEdge (edges : List (Nat × Item)) (e : Nat × Item) : List (Nat × Item) :=
  if e ∈ edges then edges else edges ++ [e]

theorem mem_insertEdge {edges : List (Nat × Item)} {e e' : Nat × Item} :
    e' ∈ insertEdge edges e ↔ e' = e ∨ e' ∈ edges := by
  unfold insertEdge
  split
  · rename_i h
    exact ⟨.inr, fun h' => h'.elim (fun heq => heq ▸ h) id⟩
  · rw [List.mem_append, List.mem_singleton, or_comm]

theorem nodup_insertEdge {edges : List (Nat × Item)} (h : edges.Nodup) (e : Nat × Item) :
    (insertEdge edges e).Nodup := by
  unfold insertEdge
  split
  · exact h
  · rename_i hnew
    refine List.nodup_append.2 ⟨h, by simp, fun a ha b hb => ?_⟩
    rw [List.mem_singleton.1 hb]
    rintro rfl
    exact hnew ha

/-- Joins the candidate in position `k` to an item, which becomes a node if it is not one. -/
def addEdge (g : IncidenceGraph K) (k : Nat) (i : Item) : IncidenceGraph K :=
  { g with
    itemNodes := g.itemNodes.insert i
    edges := insertEdge g.edges (k, i)
    nodup := nodup_insertEdge g.nodup (k, i) }

/-- Adds a candidate and joins it to each of its items. -/
def link (g : IncidenceGraph K) (c : Candidate K) : IncidenceGraph K :=
  c.1.toList.foldl (fun joined i => joined.addEdge g.setNodes.length i) (g.addSet c)

def build (pool : Pool K) (transaction : Transaction) : IncidenceGraph K :=
  pool.candidates.foldl link (transaction.foldl addItem empty)

/-- The number of edges at an item. -/
def itemDegree (g : IncidenceGraph K) (i : Item) : Nat := g.edges.countP (fun e => e.2 == i)

/-- The number of edges at the candidate in position `k`. -/
def setDegree (g : IncidenceGraph K) (k : Nat) : Nat := g.edges.countP (fun e => e.1 == k)

def nodeCount (g : IncidenceGraph K) : Nat := g.itemNodes.size + g.setNodes.length

end IncidenceGraph

variable {K : Type u}

/-- The largest number of candidates that contain one item of the transaction. -/
def largestItemDegree (pool : Pool K) (transaction : Transaction) : Nat :=
  let g := IncidenceGraph.build pool transaction
  (transaction.map g.itemDegree).foldl max 0

/-- The items of the transaction that no candidate contains, in transaction order with repeats. -/
def isolatedItems (pool : Pool K) (transaction : Transaction) : List Item :=
  let g := IncidenceGraph.build pool transaction
  transaction.filter (fun i => g.itemDegree i == 0)

end NoisyCover
