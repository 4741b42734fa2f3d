import NoisyCover.Cost

/-!
# Binary covering programs

One binary variable per candidate, one row per item of the transaction: minimise the objective over
all assignments under which every row reaches one.  A program may also be written out by hand, with
any numbers in its rows.
-/

namespace NoisyCover

structure BinaryProgram (K : Type u) where
  /-- One coefficient per variable. -/
  objective : List K
  /-- One row of coefficients per item; each row has to reach one. -/
  rows : List (List K)
  /-- A one for every variable that has to be integral. -/
  integrality : List Nat
  /-- The item behind each row. -/
  items : List Item

namespace BinaryProgram

variable {K : Type u}

def variableCount (p : BinaryProgram K) : Nat := p.objective.length

/-- A program has as many constraints as items. -/
def constraintCount (p : BinaryProgram K) : Nat := p.items.length

section
variable [Arithmetic K]

/-- Whether the coefficients of some row add up to zero; for rows of zeros and ones, whether some
item is in no itemset.  A program without items has no such row. -/
def hasEmptyRow (p : BinaryProgram K) : Bool :=
  p.constraintCount != 0 &&
    p.rows.any (fun row => Arithmetic.isZero (Arithmetic.pairwiseSum row))

/-- The row of an item: a one for every candidate that contains it. -/
def rowOf (candidates : List (Candidate K)) (i : Item) : List K :=
  candidates.map (fun c => if i ∈ c.1 then 1 else 0)

/-- The program that explains a transaction with the candidates of a pool at least cost. -/
def build (pool : Pool K) (transaction : Transaction) : Except Fault (BinaryProgram K) :=
  (pool.candidates.mapM (fun c => logOddsAgainst c.2)).map fun objective =>
    { objective
      rows := transaction.map (rowOf pool.candidates)
      integrality := List.replicate pool.size 1
      items := transaction }

end

end BinaryProgram

end NoisyCover
