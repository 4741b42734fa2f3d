import NoisyCover.Binary64
import NoisyCover.Text.Digit

/-!
# Reading numbers

Numbers are read with blanks around them, with a sign, and with single underscores between digits.
A decimal number may leave out the digits on one side of its point, may have an exponent, and may be
infinite or not a number.
-/

namespace NoisyCover.Text

/-- The digits at the start of a text, after which at least one was read, and the rest.  An
underscore is skipped between two digits. -/
def moreDigits : List Char → List Nat × List Char
  | [] => ([], [])
  | [c] =>
    match digit? c with
    | some d => ([d], [])
    | none => ([], [c])
  | c :: e :: rest =>
    match digit? c with
    | some d => let (ds, rest) := moreDigits (e :: rest); (d :: ds, rest)
    | none =>
      if c = '_' then
        match digit? e with
        | some d => let (ds, rest) := moreDigits rest; (d :: ds, rest)
        | none => ([], c :: e :: rest)
      else ([], c :: e :: rest)

/-- The digits at the start of a text, and the rest; an underscore cannot come first. -/
def digits (cs : List Char) : List Nat × List Char :=
  match cs with
  | [] => ([], [])
  | c :: _ => if (digit? c).isSome then moreDigits cs else ([], cs)

def valueOf (ds : List Nat) : Nat := ds.foldl (fun n d => 10 * n + d) 0

/-- A leading sign, and the rest. -/
def sign : List Char → Bool × List Char
  | '-' :: rest => (true, rest)
  | '+' :: rest => (false, rest)
  | cs => (false, cs)

/-- Whole numbers with more digits than this are not read. -/
def digitLimit : Nat := 4300

def integer? (s : String) : Option Int :=
  let (negative, cs) := sign (trimmed s.toList)
  match digits cs with
  | ([], _) => none
  | (ds, []) =>
    if ds.length ≤ digitLimit then
      some (if negative then -(valueOf ds : Int) else (valueOf ds : Int))
    else none
  | (_, _ :: _) => none

/-- An exponent part, if it starts here, or the exponent zero. -/
def exponent (cs : List Char) : Int × List Char :=
  match cs with
  | c :: rest =>
    if c = 'e' ∨ c = 'E' then
      let (negative, rest') := sign rest
      match digits rest' with
      | ([], _) => (0, cs)
      | (ds, rest'') => (if negative then -(valueOf ds : Int) else (valueOf ds : Int), rest'')
    else (0, cs)
  | [] => (0, [])

/-- The double nearest to a decimal with an exponent.  Far outside the range of doubles the
exponent alone decides. -/
def decimal (negative : Bool) (ds : List Nat) (exponent : Int) : Float :=
  let significant := ds.dropWhile (· == 0)
  let size := exponent + (significant.length : Int)
  if significant.isEmpty ∨ size < -400 then Binary64.nearest negative 0 1
  else if 400 < size then Binary64.infinity negative
  else
    Binary64.nearest negative (valueOf significant * pow10 exponent.toNat)
      (pow10 (-exponent).toNat)

/-- Reads a finite decimal number without its sign. -/
def finite? (negative : Bool) (cs : List Char) : Option Float :=
  let (whole, rest) := digits cs
  let (fraction, rest) := match rest with
    | '.' :: rest => digits rest
    | rest => ([], rest)
  if whole.isEmpty ∧ fraction.isEmpty then none
  else
    match exponent rest with
    | (e, []) => some (decimal negative (whole ++ fraction) (e - (fraction.length : Int)))
    | (_, _ :: _) => none

def float? (s : String) : Option Float :=
  let (negative, cs) := sign (trimmed s.toList)
  let name := String.ofList (cs.map Char.toLower)
  if name = "inf" ∨ name = "infinity" then some (Binary64.infinity negative)
  else if name = "nan" then some (0 / 0)
  else finite? negative cs

end NoisyCover.Text
