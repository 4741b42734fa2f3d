import NoisyCover.Trial
import NoisyCover.CommandLine.Options
import NoisyCover.CommandLine.Result
import NoisyCover.Text.Column
import NoisyCover.Text.Numeral

/-!
# The command that compares the algorithms

It runs trials on random instances of several sizes and shows, for each, the costs of greedy and
primal-dual coverings relative to the best one.
-/

namespace NoisyCover.CommandLine.Compare

structure Settings where
  sizes : List Int := [10, 20, 40, 80]
  /-- Random itemsets per item. -/
  density : Float := 3
  trials : Int := 3
  timeLimit : Float := 60
  output : Option String := none
  /-- The options that were given without their argument. -/
  missing : List String := []

def options : List CommandOption :=
  [⟨["--sizes"], .many⟩, ⟨["--density"], .one⟩, ⟨["--trials"], .one⟩, ⟨["--time-limit"], .one⟩,
    ⟨["--output"], .one⟩]

def applyGiven (name argument : String) (s : Settings) : Option Settings :=
  match name with
  | "--density" => (Text.float? argument).map fun x => { s with density := x }
  | "--trials" => (Text.integer? argument).map fun n => { s with trials := n }
  | "--time-limit" => (Text.float? argument).map fun x => { s with timeLimit := x }
  | "--output" => some { s with output := some argument }
  | _ => none

def apply (name : String) (arguments : List String) (s : Settings) : Option Settings :=
  match name, arguments with
  | "--sizes", sizes => (sizes.mapM Text.integer?).map fun sizes => { s with sizes }
  | _, [] => some { s with missing := name :: s.missing }
  | _, [a] =>
    (applyGiven name a s).map fun s => { s with missing := s.missing.filter (· != name) }
  | _, _ => none

def integerPart (x : Float) : Except Fault Int :=
  match Binary64.ofFloat x with
  | .finite negative mantissa exponent =>
    let r := Binary64.ratio mantissa exponent
    let n : Int := (r.1 / r.2 : Nat)
    .ok (if negative then -n else n)
  | .infinite _ => .error .infinityToInteger
  | .nan => .error .nanToInteger

def setCount (s : Settings) (itemCount : Int) : Except Fault Int :=
  match Binary64.ofIntQuotient? itemCount 1 with
  | some n => integerPart (n * s.density)
  | none => .error .integerTooLarge

/-- A cost relative to the best one, with three places. -/
def ratioText (cost : Option Float) (best : Option Float) : String :=
  match cost, best with
  | some x, some y => if y == 0 then "-" else Decimal.fixed 3 (x / y)
  | _, _ => "-"

def header : String :=
  " ".intercalate
    [Text.toRight 6 "items", Text.toRight 6 "sets", Text.toRight 4 "f",
      Text.toRight 11 "greedy/opt", Text.toRight 8 "pd/opt", Text.toRight 9 "t_greedy",
      Text.toRight 7 "t_pd", Text.toRight 8 "t_exact"]

def trialLine (t : Trial) : String :=
  " ".intercalate
    [Text.toRight 6 (toString t.itemCount), Text.toRight 6 (toString t.candidateCount),
      Text.toRight 4 (toString t.frequency),
      Text.toRight 11 (ratioText t.greedy.reported t.exact.reported),
      Text.toRight 8 (ratioText t.primalDual.actual t.exact.reported),
      Text.toRight 9 (Decimal.fixed 4 t.greedy.seconds),
      Text.toRight 7 (Decimal.fixed 4 t.primalDual.seconds),
      Text.toRight 8 (Decimal.fixed 4 t.exact.seconds)]

/-- A cost, if there is one. -/
def costDocument : Option Float → Text.Document
  | some x => .number (.real x)
  | none => .null

def performanceDocument (p : Performance) : Text.Document :=
  .object
    [("cost", costDocument p.reported), ("covering_cost", costDocument p.actual),
      ("num_itemsets", .number (.whole p.itemsetCount)), ("complete", .truth p.complete),
      ("time", .number (.real p.seconds))]

def trialDocument (t : Trial) : Text.Document :=
  .object
    [("items", .number (.whole t.itemCount)), ("itemsets", .number (.whole t.candidateCount)),
      ("seed", .number (.whole t.seed)), ("f", .number (.whole t.frequency)),
      ("greedy", performanceDocument t.greedy), ("primal_dual", performanceDocument t.primalDual),
      ("exact", performanceDocument t.exact)]

/-- The call of the solver that a trial amounts to. -/
def callOf (t : Trial) : SolveCall Float where
  seconds := t.exact.seconds
  variableCount := t.candidateCount
  selectedCount := t.exact.itemsetCount
  feasible := t.exact.reported.isSome

section Runs
variable {m : Type → Type} [Monad m]

/-- So many trials of one size, with the seeds from `seed` on. -/
def trialsFrom (now : m Float) (s : Settings) (itemCount : Int) :
    (seed : Int) → (count : Nat) → ExceptT Fault m (List Trial)
  | _, 0 => return []
  | seed, count + 1 => do
    need s.missing ["--density"]
    let sets ← setCount s itemCount
    let trial ← Trial.run now itemCount sets seed (.real s.timeLimit)
    if trial.candidateCount != 0 then need s.missing ["--time-limit"]
    return trial :: (← trialsFrom now s itemCount (seed + 1) count)

def trialsOf (now : m Float) (s : Settings) (itemCount : Int) : ExceptT Fault m (List Trial) := do
  need s.missing ["--trials"]
  trialsFrom now s itemCount 0 s.trials.toNat

/-- A way to write a file, which may fail. -/
abbrev Save (m : Type → Type) := String → Text.Document → ExceptT Fault m Unit

def runTrials (now : m Float) (save : Save m) (s : Settings) : ExceptT Fault m Result := do
  let trials := (← s.sizes.mapM (trialsOf now s)).flatten
  let solves : SolveLog Float := ⟨trials.map callOf⟩
  let lines := header :: trials.map trialLine ++ ["", "Exact: " ++ (← solves.text)]
  need s.missing ["--output"]
  match s.output with
  | none => return { exit := 0, output := .plain lines }
  | some path =>
    let path := normalPath path
    let document : Text.Document :=
      .object
        [("trials", .list (trials.map trialDocument)),
          ("exact", summaryDocument (← solves.summary))]
    save path document
    return { exit := 0, output := .plain (lines ++ ["Saved: " ++ path]) }

def run (now : m Float) (save : Save m) (line : List String) : m (Except Fault Result) :=
  match read options apply {} line with
  | .error stop => pure (.ok (Result.ofStop stop))
  | .ok s => (runTrials now save s).run

end Runs

end NoisyCover.CommandLine.Compare
