import NoisyCover.Instance.Basic

/-!
# Reference instances

Small instances with names, and for most of them the cost of their best complete covering.
-/

namespace NoisyCover

structure ReferenceInstance where
  name : String
  content : Instance Float
  /-- The cost of the best complete covering, if there is one. -/
  optimum : Option Float

namespace ReferenceInstance

def ofLists (transaction : Transaction) (candidates : List (List Item × Float)) :
    Instance Float where
  transaction := transaction
  pool := Pool.ofList (candidates.map fun c => (SortedSet.ofList c.1, c.2))

/-- Two itemsets that together beat the one with the same items. -/
def splitPair : ReferenceInstance where
  name := "scenario_split"
  content := ofLists [1, 2, 3] [([1, 2], 0.9), ([3], 0.8), ([1, 2, 3], 0.4)]
  optimum := some (-Float.log 0.9 - Float.log 0.8 - Float.log 0.6)

/-- Some candidates mention an item that is not in the transaction. -/
def outsider : ReferenceInstance where
  name := "foreign_itemset"
  content := ofLists [1, 2, 3]
    [([4], 0.7), ([1], 0.6), ([2], 0.6), ([3], 0.6), ([1, 2, 4], 0.9)]
  optimum := some (-3 * Float.log 0.6)

def nothingToExplain : ReferenceInstance where
  name := "empty_transaction"
  content := ofLists [] [([1], 0.5), ([2, 3], 0.3)]
  optimum := some 0

/-- One item is in no candidate. -/
def unreachable : ReferenceInstance where
  name := "uncoverable_item"
  content := ofLists [1, 2, 3] [([1, 2], 0.7), ([2], 0.4)]
  optimum := none

/-- One candidate for each item. -/
def oneEach : ReferenceInstance where
  name := "singletons"
  content := ofLists [1, 2, 3, 4] [([1], 0.9), ([2], 0.8), ([3], 0.7), ([4], 0.6)]
  optimum := some (-Float.log 0.9 - Float.log 0.8 - Float.log 0.7 - Float.log 0.6)

/-- The candidate that is cheapest per item is not part of the best covering. -/
def trap : ReferenceInstance where
  name := "greedy_trap"
  content := ofLists [1, 2, 3, 4] [([1, 2, 3, 4], 0.3), ([1, 2], 0.5), ([3, 4], 0.5)]
  optimum := some (-2 * Float.log 0.5 - Float.log 0.7)

/-- All reference instances, in the order in which they are run. -/
def all : List ReferenceInstance :=
  [splitPair, outsider, nothingToExplain, unreachable, oneEach, trap]

def named? (name : String) : Option ReferenceInstance := all.find? (fun r => r.name == name)

end ReferenceInstance

end NoisyCover
