import NoisyCover.Random.Twister
import NoisyCover.Solver.Milp

/-!
# Choosing an algorithm

An algorithm is chosen by name and takes the settings that it knows.  An unknown name is reported
before settings that do not belong to it.
-/

namespace NoisyCover

inductive Draws where
  | twister (state : Twister)
  | first
  | last
  | cycling (answers : List Int) (count : Nat)

namespace Draws

def ofSeed (seed : Int) : Draws := .twister (Twister.ofSeed seed)

/-- All kinds of draws as one random source. -/
def source : RandomSource Draws where
  index n
    | .twister state => (Twister.source.index n state).map id .twister
    | .first => (RandomSource.first.index n ()).map id fun _ => .first
    | .last => (RandomSource.last.index n ()).map id fun _ => .last
    | .cycling answers count =>
      ((RandomSource.cycling answers).index n count).map id (.cycling answers)

end Draws

inductive SolverChoice where
  /-- A mixed-integer optimiser; a timed one records its calls. -/
  | milp (settings : MilpSolver) (timed : Bool)
  | fixed (values : Option (List Float))

/-- An inference algorithm, ready to run. -/
inductive Algorithm where
  | greedy
  | primalDual (draws : Draws)
  | exact (solver : SolverChoice)

inductive SolverSetting where
  | timeLimit (seconds : Option Quantity)
  | gap (ratio : Quantity)
  | timed (on : Bool)
  | other (name : String)

/-- The solver with a name; there is one. -/
def SolverChoice.named (name : String) (settings : List SolverSetting) :
    Except Fault SolverChoice :=
  if name = "highs" then
    settings.foldlM
      (fun choice setting =>
        match choice, setting with
        | .milp s timed, .timeLimit seconds => .ok (.milp { s with timeLimit := seconds } timed)
        | .milp s timed, .gap ratio => .ok (.milp { s with gap := ratio } timed)
        | .milp s _, .timed on => .ok (.milp s on)
        | _, .other option => .error (.unexpectedOption option)
        | choice, _ => .ok choice)
      (.milp {} false)
  else .error (.unknownSolver name)

inductive AlgorithmSetting where
  | seed (seed : Int)
  | draws (draws : Draws)
  | solver (choice : SolverChoice)
  | solverName (name : String)
  | timeLimit (seconds : Option Quantity)
  | other (name : String)

namespace AlgorithmSetting

def name : AlgorithmSetting → String
  | .seed _ => "seed"
  | .draws _ => "rng"
  | .solver _ | .solverName _ => "solver"
  | .timeLimit _ => "time_limit"
  | .other name => name

/-- Refuses settings that are not among those with the given names. -/
def require (known : List String) (settings : List AlgorithmSetting) : Except Fault Unit :=
  match settings.find? (fun s => !known.contains s.name) with
  | some s => .error (.unexpectedOption s.name)
  | none => .ok ()

end AlgorithmSetting

namespace Algorithm

def names : List String := ["greedy", "primal_dual", "exact"]

/-- The draws among the settings: a random source goes before a seed, and the seed zero stands for a
missing one. -/
def drawsOf (settings : List AlgorithmSetting) : Draws :=
  let given := settings.findSome? fun
    | .draws d => some d
    | _ => none
  let seed := settings.findSome? fun
    | .seed n => some n
    | _ => none
  given.getD (.ofSeed (seed.getD 0))

/-- The solver among the settings.  A time limit goes to a solver chosen by name only. -/
def solverOf (settings : List AlgorithmSetting) : Except Fault SolverChoice :=
  let given := settings.findSome? fun
    | .solver choice => some choice
    | _ => none
  let name := settings.findSome? fun
    | .solverName name => some name
    | _ => none
  let limit := settings.findSome? fun
    | .timeLimit seconds => some seconds
    | _ => none
  match given with
  | some choice => .ok choice
  | none => SolverChoice.named (name.getD "highs") [.timeLimit (limit.getD none)]

def named (name : String) (settings : List AlgorithmSetting) : Except Fault Algorithm :=
  if name = "greedy" then do
    AlgorithmSetting.require [] settings
    return .greedy
  else if name = "primal_dual" then do
    AlgorithmSetting.require ["seed", "rng"] settings
    return .primalDual (drawsOf settings)
  else if name = "exact" then do
    AlgorithmSetting.require ["solver", "time_limit"] settings
    return .exact (← solverOf settings)
  else .error (.unknownAlgorithm name)

end Algorithm

end NoisyCover
