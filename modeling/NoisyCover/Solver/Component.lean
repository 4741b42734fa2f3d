import NoisyCover.Solver.Subproblem

/-!
# Independent parts of a subproblem

Free variables that share no row, not even through others, have nothing to do with each other, and
each group of them can be decided on its own.
-/

namespace NoisyCover.BranchAndBound

/-- The rows below `essential` in which a variable counts, as a set of bits. -/
def Column.span (essential : Nat) (c : Column) : Nat :=
  c.entries.foldl (fun span e => if e.1 < essential then span ||| 1 <<< e.1 else span) 0

/-- Variables and the rows in which they count. -/
structure Group where
  span : Nat
  members : List Column

/-- Puts a variable, and all groups with which it shares a row, into one group. -/
def join (essential : Nat) (groups : List Group) (c : Column) : List Group :=
  let span := c.span essential
  let (touched, apart) := groups.partition fun g => g.span &&& span != 0
  { span := touched.foldl (fun span g => span ||| g.span) span
    members := c :: touched.flatMap Group.members } :: apart

namespace Subproblem

/-- In how many of some variables every row counts. -/
def uses (p : Subproblem) (columns : List Column) : Array Nat :=
  columns.foldl (fun uses c => c.entries.foldl (fun uses e => uses.modify e.1 (· + 1)) uses)
    (Array.replicate p.lacks.size 0)

/-- The subproblem of some of the free variables, with the rows in which no other variable counts;
`all` says in how many variables every row counts. -/
def part (p : Subproblem) (all : Array Nat) (members : List Column) : Subproblem :=
  let own := p.uses members
  ({ free := members, lacks := p.lacks, cost := 0, ones := [] } : Subproblem).trim
    (own.zipWith (fun own all => own != 0 && own == all) all)

/-- The independent parts.  Rows from `essential` on follow from the others, so that they need not
hold parts together. -/
def parts (p : Subproblem) (essential : Nat) : List Subproblem :=
  let all := p.uses p.free
  (p.free.foldl (join essential) []).map fun g => p.part all g.members

end Subproblem

end NoisyCover.BranchAndBound
