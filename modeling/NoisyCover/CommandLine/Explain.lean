import NoisyCover.CommandLine.Options
import NoisyCover.CommandLine.Result
import NoisyCover.Instance.Random
import NoisyCover.Instance.Reference
import NoisyCover.Session
import NoisyCover.Text.Column
import NoisyCover.Text.Numeral
import NoisyCover.Audit

/-!
# The command that explains instances

It runs one algorithm on a random instance and shows the covering, or on all reference instances and
shows how the cost compares with the best one.
-/

namespace NoisyCover.CommandLine.Explain

structure Settings where
  algorithm : String := "greedy"
  reference : Bool := false
  verbose : Bool := false
  items : Int := 12
  itemsets : Int := 30
  seed : Int := 42
  timeLimit : Option Float := none
  json : Bool := false
  /-- The options that were given without their argument. -/
  missing : List String := []

def options : List CommandOption :=
  [⟨["--algorithm"], .one⟩, ⟨["--test"], .none⟩, ⟨["--verbose", "-v"], .none⟩, ⟨["--items"], .one⟩,
    ⟨["--itemsets"], .one⟩, ⟨["--seed"], .one⟩, ⟨["--time-limit"], .one⟩, ⟨["--json"], .none⟩]

def applyGiven (name argument : String) (s : Settings) : Option Settings :=
  match name with
  | "--algorithm" =>
    if Algorithm.names.contains argument then some { s with algorithm := argument } else none
  | "--items" => (Text.integer? argument).map fun n => { s with items := n }
  | "--itemsets" => (Text.integer? argument).map fun n => { s with itemsets := n }
  | "--seed" => (Text.integer? argument).map fun n => { s with seed := n }
  | "--time-limit" => (Text.float? argument).map fun x => { s with timeLimit := some x }
  | _ => none

/-- Takes one option.  A missing algorithm is named by an empty list. -/
def apply (name : String) (arguments : List String) (s : Settings) : Option Settings :=
  match name, arguments with
  | "--test", [] => some { s with reference := true }
  | "--verbose", [] => some { s with verbose := true }
  | "--json", [] => some { s with json := true }
  | "--algorithm", [] => some { s with algorithm := "[]" }
  | _, [] => some { s with missing := name :: s.missing }
  | _, [a] =>
    (applyGiven name a s).map fun s => { s with missing := s.missing.filter (· != name) }
  | _, _ => none

/-- The algorithm of the settings; exact inference is timed. -/
def algorithm (s : Settings) : Except Fault Algorithm :=
  if s.algorithm = "primal_dual" then do
    need s.missing ["--seed"]
    Algorithm.named s.algorithm [.seed s.seed]
  else if s.algorithm = "exact" then
    Algorithm.named s.algorithm
      [.solver (.milp { timeLimit := s.timeLimit.map .real } true)]
  else Algorithm.named s.algorithm []

def costValue : Cost Float → Float
  | .value x => x
  | .infinite => Binary64.infinity false

/-- Whether two numbers agree up to a relative or an absolute tolerance. -/
def isClose (x y relative absolute : Float) : Bool :=
  if x == y then true
  else if x.isInf || y.isInf then false
  else
    let gap := (y - x).abs
    decide (gap ≤ (relative * y).abs) || decide (gap ≤ (relative * x).abs) ||
      decide (gap ≤ absolute)

/-- Whether the reported cost fits the covering: exactly, or, for an algorithm that charges duals,
from below. -/
def isConsistent (name : String) (cost : Float) (check : Audit Float) : Bool :=
  if cost.isInf then true
  else if name = "primal_dual" then decide (cost ≤ check.expectedCost + 1e-9)
  else isClose cost check.expectedCost 1e-9 0

/-- Whether exact inference found the best cost, or found that there is none. -/
def isOptimal (cost : Float) (check : Audit Float) : Option Float → Bool
  | none => cost.isInf
  | some best => check.valid && isClose cost best 1e-9 1e-9

/-- The line about a reference instance, and whether all is well with it. -/
def referenceLine (name : String) (r : ReferenceInstance) (cost : Float) (covering : Covering)
    (check : Audit Float) : String × Bool :=
  let pass := isConsistent name cost check && check.foreign.size == 0 &&
    (name != "exact" || isOptimal cost check r.optimum)
  let optimum := match r.optimum with
    | some best => Decimal.fixed 4 best
    | none => "inf"
  let status := if pass then "PASS" else "FAIL"
  ("  " ++ Text.toLeft 18 r.name ++ " cost=" ++ Decimal.fixed 4 cost ++ "  optimum=" ++ optimum ++
    "  complete=" ++ Text.truth check.valid ++ s!"  sets={covering.size}  [{status}]", pass)

def rule : String := String.ofList (List.replicate 60 '=')

def shown (s : Settings) (log : List (LogEntry Float)) : List (LogEntry Float) :=
  if s.verbose then log else log.filter (fun e => e.severity == .info)

section Runs
variable {m : Type → Type} [Monad m]

structure Explained where
  cost : Float
  covering : Covering
  check : Audit Float
  log : List (LogEntry Float)
  solves : SolveLog Float

/-- Explains an instance into an empty covering with a fresh algorithm, and checks the result. -/
def explain (now : m Float) (s : Settings) (problem : Instance Float)
    (solves : SolveLog Float) : ExceptT Fault m Explained := do
  let session : Session := { algorithm := ← algorithm s, solves }
  if s.algorithm = "exact" &&
      asksSolver (problem.pool.within problem.transaction) problem.transaction then
    need s.missing ["--time-limit"]
  let (found, session) ← ExceptT.lift (session.infer now ∅ problem)
  let cost ← found.cost
  let check ← audit found.covering problem.pool problem.transaction
  return { cost := costValue cost, covering := found.covering, check, log := found.log,
           solves := session.solves }

/-- Refuses pools with a probability that is not strictly between zero and one. -/
def checkProbabilities (pool : Pool Float) : Except Fault Unit :=
  match improbable? pool with
  | some c => .error (.improbable c.1 c.2)
  | none => .ok ()

def runReferences (now : m Float) (s : Settings) :
    List ReferenceInstance → SolveLog Float →
      ExceptT Fault m (List String × Bool × List (LogEntry Float) × SolveLog Float)
  | [], solves => return ([], true, [], solves)
  | r :: rest, solves => do
    checkProbabilities r.content.pool
    let found ← explain now s r.content solves
    let (line, pass) := referenceLine s.algorithm r found.cost found.covering found.check
    let (lines, allPass, log, solves) ← runReferences now s rest found.solves
    return (line :: lines, pass && allPass, found.log ++ log, solves)

def runReference (now : m Float) (s : Settings) : ExceptT Fault m Result := do
  let (lines, allPass, log, solves) ← runReferences now s ReferenceInstance.all .empty
  let head := [rule, s.algorithm ++ " inference on predefined test instances", rule]
  let foot ← if s.algorithm = "exact" then (do return ["Solver: " ++ (← solves.text)]) else pure []
  return { exit := if allPass then 0 else 1, log := shown s log,
           output := .plain (head ++ lines ++ [rule] ++ foot) }

/-- The covering, one numbered line an itemset. -/
def coveringLines (covering : Covering) : List String :=
  covering.toList.zipIdx.map fun (itemset, k) => s!"  Itemset {k + 1}: " ++ itemsetText itemset

/-- A result as a document; an infinite cost is left out. -/
def explainedDocument (s : Settings) (found : Explained) (summary : SolveSummary) : Text.Document :=
  let cost : Text.Document :=
    if Binary64.isFinite found.cost then .number (.real found.cost) else .null
  .object
    [("algorithm", .text s.algorithm), ("cost", cost),
      ("covering", .list (found.covering.toList.map fun t => itemsDocument t.toList)),
      ("complete", .truth found.check.valid), ("missing_items", itemsDocument found.check.missing),
      ("solver", summaryDocument summary)]

def runRandom (now : m Float) (s : Settings) : ExceptT Fault m Result := do
  need s.missing ["--items", "--itemsets", "--seed"]
  let problem ← Instance.ofSeed s.items s.itemsets s.seed
  checkProbabilities problem.pool
  let admissible := problem.pool.within problem.transaction
  let announcement : LogEntry Float := .randomInstance problem.transaction.length
    problem.pool.size admissible.size (largestItemDegree admissible problem.transaction)
  let found ← explain now s problem .empty
  let log := shown s (announcement :: found.log)
  if s.json then
    return { exit := 0, log,
             output := .document (explainedDocument s found (← found.solves.summary)) }
  else
    let headline := "Result: cost=" ++ Decimal.fixed 4 found.cost ++
      s!", {found.covering.size} itemsets, complete=" ++ Text.truth found.check.valid
    return { exit := 0, log, output := .plain (headline :: coveringLines found.covering) }

def run (now : m Float) (line : List String) : m (Except Fault Result) :=
  match read options apply {} line with
  | .error stop => pure (.ok (Result.ofStop stop))
  | .ok s => (if s.reference then runReference now s else runRandom now s).run

end Runs

end NoisyCover.CommandLine.Explain
