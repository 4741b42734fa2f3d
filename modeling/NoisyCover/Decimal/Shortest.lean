import NoisyCover.Decimal.Scientific

/-!
# The fewest digits that read back

A double stands for every real that rounds to it.  `shortest` takes the coarsest decimal grid with
a point among those reals, and of the points of that grid the one nearest to the double.  `text`
lays the digits out: positionally for decimal exponents from -4 to 15, with an exponent otherwise.
-/

namespace NoisyCover.Decimal

/-- The reals that round to a positive double, in quarters of its last binary place: the two ends,
and whether they belong to it. -/
structure Neighbourhood where
  /-- The double itself, in quarters of its last place. -/
  centre : Nat
  low : Nat
  high : Nat
  closed : Bool
  /-- The exponent of a quarter of the last place. -/
  exponent : Int

/-- The neighbourhood of `mantissa * 2 ^ exponent`.  The gap below a power of two is half the gap
above it. -/
def neighbourhood (mantissa : Nat) (exponent : Int) : Neighbourhood where
  centre := 4 * mantissa
  low :=
    if mantissa = Binary64.leastMantissa ∧ Binary64.leastExponent < exponent then 4 * mantissa - 1
    else 4 * mantissa - 2
  high := 4 * mantissa + 2
  closed := mantissa % 2 == 0
  exponent := exponent - 2

/-- Whether `count * 10 ^ grid` lies in the neighbourhood. -/
def Neighbourhood.has (n : Neighbourhood) (count : Nat) (grid : Int) : Bool :=
  let point := count * pow10 grid.toNat * pow2 (-n.exponent).toNat
  let unit := pow10 (-grid).toNat * pow2 n.exponent.toNat
  if n.closed then decide (n.low * unit ≤ point) && decide (point ≤ n.high * unit)
  else decide (n.low * unit < point) && decide (point < n.high * unit)

/-- The point of the grid `10 ^ grid` nearest to the double among the two beside it, if one of them
lies in the neighbourhood. -/
def Neighbourhood.pointOn (n : Neighbourhood) (grid : Int) : Option Nat :=
  let r := Binary64.ratio n.centre n.exponent
  let scaled := decimalScale r.1 r.2 grid
  let below := scaled.1 / scaled.2
  let closest := roundDiv scaled.1 scaled.2
  if n.has closest grid then some closest
  else if n.has below grid then some below
  else if n.has (below + 1) grid then some (below + 1)
  else none

/-- Tries grids from coarse to fine; the count of digits left bounds the search. -/
def Neighbourhood.coarsest (n : Neighbourhood) (grid : Int) : Nat → Nat × Int
  | 0 => (n.centre, n.exponent)
  | digits + 1 =>
    match n.pointOn grid with
    | some point => (point, grid)
    | none => n.coarsest (grid - 1) digits

/-- The digits of the shortest decimal that reads back as a positive double, and the decimal
exponent of the first of them. -/
def shortest (mantissa : Nat) (exponent : Int) : List Char × Int :=
  let r := Binary64.ratio mantissa exponent
  let lead := leadingExponent r.1 r.2
  let found := (neighbourhood mantissa exponent).coarsest lead 17
  let digits := Nat.toDigits 10 found.1
  let significant := (digits.reverse.dropWhile (· == '0')).reverse
  (significant, found.2 + (digits.length : Int) - 1)

/-- Lays out digits whose first one has the given decimal exponent. -/
def layout (digits : List Char) (lead : Int) : String :=
  if -4 ≤ lead ∧ lead < 16 then
    if lead < 0 then
      String.ofList ('0' :: '.' :: List.replicate ((-lead).toNat - 1) '0' ++ digits)
    else
      let whole := lead.toNat + 1
      let padded := digits ++ List.replicate (whole - digits.length) '0'
      let fraction := padded.drop whole
      String.ofList (padded.take whole ++ '.' :: (if fraction.isEmpty then ['0'] else fraction))
  else pointAfterFirst digits ++ exponentText lead

/-- Writes a double with the fewest digits that read back as it. -/
def text (x : Float) : String :=
  match Binary64.ofFloat x with
  | .finite negative mantissa exponent =>
    let sign := if negative then "-" else ""
    if mantissa = 0 then sign ++ "0.0"
    else
      let (digits, lead) := shortest mantissa exponent
      sign ++ layout digits lead
  | other => other.specialText

end NoisyCover.Decimal
