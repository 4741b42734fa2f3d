import NoisyCover.Itemset
import NoisyCover.Decimal.Shortest
import NoisyCover.FileTree

/-!
# Faults

Everything that can go wrong, by cause, and the wording of each cause.
-/

namespace NoisyCover

inductive Fault where
  /-- A logarithm was taken of a number that is not positive. -/
  | logOfNonpositive
  | divisionByZero
  /-- A value that is not a number has no nearest integer. -/
  | nanToInteger
  | infinityToInteger
  /-- The quotient of two integers lies outside the range of doubles. -/
  | quotientTooLarge
  /-- An integer lies outside the range of doubles. -/
  | integerTooLarge
  /-- A random integer was asked for with `low ≤ n < high`, but there is none. -/
  | emptyRange (low high : Int)
  /-- A candidate's probability is not strictly between zero and one. -/
  | improbable (itemset : Itemset) (probability : Float)
  | unknownAlgorithm (name : String)
  | unknownSolver (name : String)
  /-- An option was given that the chosen algorithm or solver does not have. -/
  | unexpectedOption (name : String)
  /-- A command needs the argument of an option that was given without one. -/
  | missingArgument (option : String)
  | unwritable (fault : WriteFault)
  /-- The optimiser behind a solver broke down. -/
  | optimiserFailed
  deriving DecidableEq

def WriteFault.message : WriteFault → String
  | missing => "no such file or directory"
  | notADirectory => "not a directory"
  | isADirectory => "is a directory"
  | nameTooLong => "file name too long"
  | nullCharacter => "embedded null byte"

namespace Fault

def message : Fault → String
  | logOfNonpositive => "math domain error"
  | divisionByZero => "float division by zero"
  | nanToInteger => "cannot convert float NaN to integer"
  | infinityToInteger => "cannot convert float infinity to integer"
  | quotientTooLarge => "integer division result too large for a float"
  | integerTooLarge => "int too large to convert to float"
  | emptyRange low high =>
    s!"empty range for randrange() ({low}, {high}, {high - low})"
  | improbable itemset probability =>
    "Itemset " ++ itemsetText itemset ++ " has probability " ++ Decimal.text probability ++
      ", expected 0 < p < 1"
  | unknownAlgorithm name => "Unknown inference algorithm: " ++ name
  | unknownSolver name => "Unknown ILP solver: " ++ name ++ ". Use 'highs'."
  | unexpectedOption name => "unexpected option: " ++ name
  | missingArgument option => "missing argument: " ++ option
  | unwritable fault => fault.message
  | optimiserFailed => "the optimiser failed"

end Fault

end NoisyCover
