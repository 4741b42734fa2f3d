import NoisyCover.CommandLine.Options
import NoisyCover.Log
import NoisyCover.Text.Document
import NoisyCover.SolveLog

/-!
# What a command leaves behind
-/

namespace NoisyCover.CommandLine

inductive Output where
  | plain (lines : List String)
  | document (document : Text.Document)

structure Result where
  exit : UInt32
  /-- The entries of the log that matter enough to be shown. -/
  log : List (LogEntry Float) := []
  output : Output := .plain []

def Output.toLines : Output → List String
  | .plain lines => lines.flatMap fun line => line.splitOn "\n"
  | .document d => (d.render 0).splitOn "\n"

/-- What a command line that is not carried out leaves behind. -/
def Result.ofStop : Stop → Result
  | .usage => { exit := 2 }
  | .help => { exit := 0 }

/-- Refuses to go on when the argument of one of some options is missing. -/
def need (missing : List String) (options : List String) : Except Fault Unit :=
  match options.find? missing.contains with
  | some option => .error (.missingArgument option)
  | none => .ok ()

/-- Whether exact inference asks a solver about an instance: there is something to choose from, and
every item is in some candidate. -/
def asksSolver (admissible : Pool Float) (transaction : Transaction) : Bool :=
  admissible.size != 0 && (isolatedItems admissible transaction).isEmpty

/-- A path without empty parts and parts that stay in place. -/
def normalPath (path : String) : String :=
  let parts := (path.splitOn "/").filter (fun part => part != "" && part != ".")
  let root := if path.startsWith "//" && !path.startsWith "///" then "//"
    else if path.startsWith "/" then "/" else ""
  let joined := root ++ "/".intercalate parts
  if joined == "" then "." else joined

def summaryDocument (s : SolveSummary) : Text.Document :=
  .object (s.fields.map fun (name, q) => (name, .number q))

def itemsDocument (items : List Item) : Text.Document :=
  .list (items.map fun i => .number (.whole i))

end NoisyCover.CommandLine
