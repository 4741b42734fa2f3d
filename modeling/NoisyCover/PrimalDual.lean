import NoisyCover.Cost
import NoisyCover.FirstLeast
import NoisyCover.Random.Source

/-!
# Primal-dual covering

The items of the transaction are visited in random order.  A visit raises the item's dual until the
cheapest candidate that contains it becomes tight, selects that candidate, and takes the raise off
the residual cost of every candidate that contains the item.  Items of selected itemsets are not
visited again.  A visited item that no candidate contains ends the run.

The random source is a state machine that draws an index below a bound, so that what holds for every
state machine holds for every order of visits.
-/

namespace NoisyCover

namespace PrimalDual

variable {K : Type u}

/-- One visit: the item, the itemset that became tight, and the raise of the item's dual. -/
structure Visit (K : Type u) where
  item : Item
  itemset : Itemset
  dual : K

/-- What a sequence of visits leaves behind. -/
structure Run (K : Type u) (σ : Type) where
  visits : List (Visit K)
  /-- The residual costs before the first visit and after every visit. -/
  residuals : List (List (Candidate K))
  /-- The visited item that no candidate contains, and how many items were uncovered then. -/
  stuck : Option (Item × Nat)
  source : σ

/-- The run that makes a visit first, with the residual costs before it. -/
def Run.after {σ : Type} (visit : Visit K) (residuals : List (Candidate K)) (rest : Run K σ) :
    Run K σ :=
  { rest with visits := visit :: rest.visits, residuals := residuals :: rest.residuals }

section Visits
variable [Arithmetic K] {σ : Type}

/-- The residual cost of a candidate, if it contains the item. -/
def residualFor (item : Item) (c : Candidate K) : Option K :=
  if item ∈ c.1 then some c.2 else none

/-- The candidate that becomes tight when an item is visited, and the raise that makes it so. -/
def tightest (item : Item) (residuals : List (Candidate K)) : Option (Candidate K × K) :=
  firstLeast (residualFor item) residuals

/-- Takes a raise off the residual cost of every candidate that contains the item. -/
def lower (item : Item) (dual : K) (residuals : List (Candidate K)) : List (Candidate K) :=
  residuals.map (fun c => if item ∈ c.1 then (c.1, c.2 - dual) else c)

/-- The uncovered items without those of a selected itemset. -/
def dropCovered (s : Itemset) (uncovered : List Item) : List Item :=
  uncovered.filter (fun i => !decide (i ∈ s))

/-- A visited item is among those its visit covers. -/
theorem length_dropCovered_lt {uncovered : List Item} {item : Item}
    {residuals : List (Candidate K)} {found : Candidate K × K} (hmem : item ∈ uncovered)
    (h : tightest item residuals = some found) :
    (dropCovered found.1.1 uncovered).length < uncovered.length := by
  have hin : item ∈ found.1.1 := by
    obtain ⟨_, hk⟩ := firstLeast_mem h
    unfold residualFor at hk
    split at hk
    · assumption
    · simp at hk
  refine List.length_filter_lt_length_iff_exists.2 ⟨item, hmem, ?_⟩
  simp [hin]

/-- The visits from a list of uncovered items on. -/
def visitFrom (source : RandomSource σ) :
    (uncovered : List Item) → (residuals : List (Candidate K)) → σ → Run K σ
  | [], residuals, state => ⟨[], [residuals], none, state⟩
  | first :: others, residuals, state =>
    let drawn := source.index others.length state
    let item := (first :: others)[drawn.1]
    match _h : tightest item residuals with
    | none => ⟨[], [residuals], some (item, others.length + 1), drawn.2⟩
    | some found =>
      (visitFrom source (dropCovered found.1.1 (first :: others))
        (lower item found.2 residuals) drawn.2).after ⟨item, found.1.1, found.2⟩ residuals
termination_by uncovered => uncovered.length
decreasing_by exact length_dropCovered_lt (List.getElem_mem _) _h

/-- Every candidate with the cost of switching it on. -/
def initialResiduals (candidates : List (Candidate K)) : List (Candidate K) :=
  candidates.map (fun c => (c.1, selectionCost c.2))

def run (source : RandomSource σ) (pool : Pool K) (transaction : Transaction) (state : σ) :
    Run K σ :=
  visitFrom source transaction (initialResiduals (pool.within transaction).candidates) state

def Run.selection (r : Run K σ) : Covering := SortedSet.ofList (r.visits.map Visit.itemset)

/-- The sum of the raises, in order of the visits. -/
def Run.dualTotal (r : Run K σ) : K := r.visits.foldl (fun total v => total + v.dual) 0

/-- The reported cost: the raises, then the cost of leaving off every candidate that was not
selected, in pool order. -/
def Run.cost (r : Run K σ) (candidates : List (Candidate K)) : Except Fault K :=
  let selection := r.selection
  candidates.foldlM
    (fun total c => if c.1 ∈ selection then .ok total else (costOff c.2).map (total + ·))
    r.dualTotal

end Visits

inductive Note (K : Type u) where
  | selected (visit : Visit K)
  /-- The run stopped at an item no candidate contains, with so many items uncovered. -/
  | incomplete (item : Item) (uncovered : Nat)

/-- The notes of a run: its visits, then where it got stuck, if it did. -/
def Run.notes {σ : Type} (r : Run K σ) : List (Note K) :=
  r.visits.map .selected ++ r.stuck.toList.map (fun s => .incomplete s.1 s.2)

end PrimalDual

end NoisyCover
