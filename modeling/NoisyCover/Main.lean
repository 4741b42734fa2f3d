import NoisyCover.CommandLine.Compare
import NoisyCover.CommandLine.Explain

/-!
# The program

The first argument says which command to carry out, `explain` or `compare`; the others are its
options.  The log goes to standard error.
-/

namespace NoisyCover.CommandLine

/-- Seconds on a clock that never goes back. -/
def monotonicSeconds : IO Float := do
  return Float.ofNat (← IO.monoNanosNow) / 1e9

def saveDocument : Compare.Save IO := fun path document =>
  ExceptT.lift (IO.FS.writeFile path (document.render 0))

def present (result : Result) : IO UInt32 := do
  for entry in result.log do
    IO.eprintln (loggerName (some entry.logger) ++ " - " ++ entry.message)
  for line in result.output.toLines do
    IO.println line
  return result.exit

end NoisyCover.CommandLine

open NoisyCover CommandLine in
def main (line : List String) : IO UInt32 := do
  let outcome ← match line with
    | "explain" :: rest => Explain.run monotonicSeconds rest
    | "compare" :: rest => Compare.run monotonicSeconds saveDocument rest
    | _ => pure (.ok (Result.ofStop .usage))
  match outcome with
  | .ok result => present result
  | .error fault =>
    IO.eprintln fault.message
    return 1
