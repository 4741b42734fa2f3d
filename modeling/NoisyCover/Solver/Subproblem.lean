import NoisyCover.Binary64

/-!
# Covering programs after some decisions

A subproblem holds the variables that are still free and what every row still lacks, all in whole
numbers, so that nothing is lost to rounding.  Deciding a variable moves it out of the free ones.
`settle` makes all decisions that need no choice: a variable that some row cannot do without, one
that some row cannot bear, one that is of no use, and one that pays for itself and does no harm.
Rows that are satisfied whatever is decided later are dropped.
-/

namespace NoisyCover.BranchAndBound

/-- A variable: its place among the variables, its cost, and its coefficients other than zero, each
with its row. -/
structure Column where
  place : Nat
  cost : Int
  entries : List (Nat × Int)

/-- What is left of a program after some decisions. -/
structure Subproblem where
  /-- The variables that are not decided. -/
  free : List Column
  /-- What every row still lacks. -/
  lacks : Array Int
  /-- The cost of the variables decided to be one. -/
  cost : Int
  /-- The places of these variables. -/
  ones : List Nat

/-- Whether a row is satisfied that still lacks so much. -/
def satisfied (lack : Int) : Bool := decide (lack ≤ 0)

namespace Column

/-- What the rows lack once the variable is one. -/
def cover (c : Column) (lacks : Array Int) : Array Int :=
  c.entries.foldl (fun lacks (row, a) => lacks.modify row (· - a)) lacks

/-- What the rows lack once the variable is zero again. -/
def uncover (c : Column) (lacks : Array Int) : Array Int :=
  c.entries.foldl (fun lacks (row, a) => lacks.modify row (· + a)) lacks

/-- What the coefficients add up to when every row has a weight. -/
def weigh (c : Column) (weights : Array Int) : Int :=
  c.entries.foldl (fun sum (row, a) => sum + weights.getD row 0 * a) 0

end Column

/-- The most and the least that the free variables can add to every row. -/
structure Outlook where
  reach : Array Int
  drag : Array Int

namespace Subproblem

def outlook (p : Subproblem) : Outlook :=
  let nothing := Array.replicate p.lacks.size 0
  let sums (part : Int → Int) : Array Int :=
    p.free.foldl
      (fun sums c => c.entries.foldl (fun sums (row, a) => sums.modify row (· + part a)) sums)
      nothing
  ⟨sums (max 0), sums (min 0)⟩

/-- Whether every row can still be satisfied. -/
def feasible (p : Subproblem) (o : Outlook) : Bool :=
  (p.lacks.zipWith (fun lack reach => satisfied (lack - reach)) o.reach).all id

def assign (p : Subproblem) (c : Column) (one : Bool) : Subproblem :=
  let free := p.free.filter (fun d => d.place != c.place)
  if one then
    { free, lacks := c.cover p.lacks, cost := p.cost + c.cost, ones := c.place :: p.ones }
  else { p with free }

/-- The rows that some decision can leave unsatisfied. -/
def unsettled (p : Subproblem) (o : Outlook) : Array Bool :=
  p.lacks.zipWith (fun lack drag => !satisfied (lack - drag)) o.drag

/-- Keeps some of the rows only: the others lack nothing, and no variable counts there. -/
def trim (p : Subproblem) (kept : Array Bool) : Subproblem :=
  let isKept (row : Nat) : Bool := kept.getD row false
  { p with
    free := p.free.map fun c => { c with entries := c.entries.filter fun e => isKept e.1 }
    lacks := p.lacks.zipWith (fun lack kept => if kept then lack else 0) kept }

/-- The value of a free variable that needs no choice. -/
def verdict (p : Subproblem) (o : Outlook) (c : Column) : Option Bool :=
  let without (e : Nat × Int) : Bool :=
    satisfied (p.lacks.getD e.1 0 - (o.reach.getD e.1 0 - e.2.natAbs))
  if c.entries.any (fun e => decide (0 < e.2) && !without e) then some true
  else if c.entries.any (fun e => decide (e.2 < 0) && !without e) then some false
  else if c.cost < 0 then
    if c.entries.any (fun e => decide (e.2 < 0)) then none else some true
  else if c.entries.any (fun e => decide (0 < e.2)) then none
  else some false

/-- Decides every free variable that a rule decides. -/
def decideAll (p : Subproblem) (rule : Column → Option Bool) : Subproblem :=
  let judged := p.free.map fun c => (c, rule c)
  let taken := judged.filterMap fun (c, value) => if value = some true then some c else none
  { free := judged.filterMap fun (c, value) => if value = none then some c else none
    lacks := taken.foldl (fun lacks c => c.cover lacks) p.lacks
    cost := taken.foldl (fun cost c => cost + c.cost) p.cost
    ones := taken.foldl (fun ones c => c.place :: ones) p.ones }

/-- Makes the decisions that need no choice, in at most so many rounds; nothing if some row cannot
be satisfied any more. -/
def settle : (rounds : Nat) → Subproblem → Option Subproblem
  | 0, p => some p
  | rounds + 1, p =>
    let o := p.outlook
    if p.feasible o then
      let trimmed := p.trim (p.unsettled o)
      let decided := trimmed.decideAll (trimmed.verdict o)
      if decided.free.length = p.free.length then some decided else settle rounds decided
    else none

end Subproblem

end NoisyCover.BranchAndBound
