import NoisyCover.Inference

/-!
# The log as text

Every entry of the log has a logger, a severity and a message.
-/

namespace NoisyCover

def version : String := "0.1.0"

/-- The name under which the whole library logs. -/
def rootLogger : String := "itemset_inference"

def loggerName : Option String → String
  | none => rootLogger
  | some name => rootLogger ++ "." ++ name

inductive Severity where
  | debug
  | info
  deriving DecidableEq, Repr

def SolverNote.message : SolverNote → String
  | .emptyRow => "Covering program has an item no itemset contains"
  | .rejected => "HiGHS rejected covering program"
  | .noSolution => "HiGHS found no solution"
  | .unproven => "HiGHS returned a feasible, unproven solution"

namespace LogEntry

def logger {K : Type u} : LogEntry K → String
  | .greedy _ => "greedy"
  | .primalDual _ => "primal_dual"
  | .solver _ => "covering_program"
  | .exact _ => "exact"
  | .randomInstance .. => "cli"

/-- Only the announcement of a random instance is more than a detail. -/
def severity {K : Type u} : LogEntry K → Severity
  | .randomInstance .. => .info
  | _ => .debug

/-- The wording of an entry; costs are written with four places. -/
def message : LogEntry Float → String
  | .greedy (.selected pick) =>
    "Selected " ++ itemsetText pick.itemset ++ " (cost per item " ++
      Decimal.fixed 4 pick.price ++ ")"
  | .greedy (.incomplete left) =>
    "Incomplete covering: items " ++ itemsetText left ++ " left uncovered"
  | .primalDual (.selected visit) =>
    s!"Item {visit.item}: selected " ++ itemsetText visit.itemset ++ " (dual " ++
      Decimal.fixed 4 visit.dual ++ ")"
  | .primalDual (.incomplete item uncovered) =>
    s!"Incomplete covering: no itemset contains {item}, {uncovered} items uncovered"
  | .solver note => note.message
  | .exact (.noCovering uncoverable) =>
    "No covering found; uncoverable items: " ++ itemsText uncoverable
  | .randomInstance items itemsets admissible frequency =>
    s!"Random instance: {items} items, {itemsets} itemsets ({admissible} after filtering), " ++
      s!"f={frequency}"

end LogEntry

end NoisyCover
