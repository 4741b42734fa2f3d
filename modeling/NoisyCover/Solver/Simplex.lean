/-!
# The dual simplex method

A linear program asks for values between zero and one, of least cost, under which every row reaches
a given amount.  What a row has beyond that amount is its surplus, a variable of its own without an
upper bound.  A tableau expresses as many variables as there are rows, the basic ones, by the
others, which all rest at one of their bounds.

At the start the surpluses are basic and every other variable rests where it costs least.  As long
as a basic variable is outside its bounds it changes places with a resting one, chosen so that
still every resting variable rests where it costs least; once there is none left the values are
optimal.  All this is in doubles, so the outcome is a suggestion, and nothing relies on it.
-/

namespace NoisyCover.Simplex

/-- The index of the greatest score above `best` among `left` indices from `i` on, or else
`found`. -/
@[specialize] def peakFrom (score : Nat → Float) :
    (left i : Nat) → (best : Float) → (found : Option Nat) → Option Nat
  | 0, _, _, found => found
  | left + 1, i, best, found =>
    let s := score i
    if best < s then peakFrom score left (i + 1) s (some i)
    else peakFrom score left (i + 1) best found

/-- The first index below `n` of the greatest score, if that is above `least`. -/
@[inline] def peak (score : Nat → Float) (n : Nat) (least : Float) : Option Nat :=
  peakFrom score n 0 least none

/-- The numbers `f i` for the `left` indices from `i` on, behind others. -/
@[specialize] def tabulateFrom (f : Nat → Float) : (left i : Nat) → FloatArray → FloatArray
  | 0, _, numbers => numbers
  | left + 1, i, numbers => tabulateFrom f left (i + 1) (numbers.push (f i))

/-- The numbers `f 0`, `f 1` and so on, `n` of them. -/
@[inline] def tabulate (n : Nat) (f : Nat → Float) : FloatArray :=
  tabulateFrom f n 0 (FloatArray.emptyWithCapacity n)

/-- Variables below `width` lie between zero and one; the variable `width + r` is the surplus of
row `r`. -/
structure Tableau where
  width : Nat
  /-- For every basic variable, the coefficients of the resting ones. -/
  body : Array FloatArray
  /-- The values of the basic variables. -/
  level : FloatArray
  /-- What one unit of every resting variable adds to the cost. -/
  rate : FloatArray
  basic : Array Nat
  resting : Array Nat
  /-- Whether a resting variable rests at one rather than at zero. -/
  full : Array Bool

namespace Tableau

/-- The tableau with the surpluses as basic variables. -/
def start (costs : FloatArray) (rows : Array FloatArray) (amounts : FloatArray) : Tableau :=
  let width := costs.size
  let full := (Array.range width).map fun k => decide (costs.get! k < 0)
  let reached (row : FloatArray) : Float :=
    Nat.fold width (fun k _ sum => if full.getD k false then sum + row.get! k else sum) 0
  { width
    body := rows.map fun row => tabulate width fun k => -row.get! k
    level := tabulate rows.size fun r => reached (rows.getD r .empty) - amounts.get! r
    rate := costs
    basic := (Array.range rows.size).map (width + ·)
    resting := Array.range width
    full }

/-- How far a basic variable is outside its bounds. -/
def excess (t : Tableau) (r : Nat) : Float :=
  let value := t.level.get! r
  if value < 0 then -value else if t.basic.getD r 0 < t.width then value - 1 else 0

/-- Numbers below this count as zero. -/
def tiny : Float := 1e-9

/-- The basic variable that is farthest outside its bounds. -/
def leaving (t : Tableau) : Option Nat := peak t.excess t.body.size 1e-7

def row (t : Tableau) (r : Nat) : FloatArray := t.body.getD r .empty

/-- The resting variable to become basic when the basic variable `r` comes to rest: one that moves
it towards its bounds, with the least rate for the effect. -/
def entering (t : Tableau) (r : Nat) : Option Nat :=
  let row := t.row r
  let below := decide (t.level.get! r < 0)
  peak
    (fun k =>
      let a := row.get! k
      let raises := t.full.getD k false == decide (0 < a)
      if raises == below && tiny < a.abs then a.abs / ((t.rate.get! k).abs + tiny) else 0)
    t.width 0

/-- Subtracts a multiple of some numbers, where they are not zero. -/
def subtract (f : Float) (numbers : FloatArray) (support : Array Nat) (row : FloatArray) :
    FloatArray :=
  support.foldl (fun row k => row.set! k (row.get! k - f * numbers.get! k)) row

/-- Makes the resting variable at `q` basic in row `r`, where the basic one comes to rest at its
upper or its lower bound. -/
def pivot (t : Tableau) (r q : Nat) (upper : Bool) : Tableau :=
  let pivotRow := t.row r
  let a := pivotRow.get! q
  let step := (t.level.get! r - if upper then 1 else 0) / a
  let numbers := (tabulate t.width fun k => pivotRow.get! k / a).set! q (1 / a)
  let support := (Array.range t.width).filter fun k => numbers.get! k != 0
  let eliminate (row : FloatArray) : FloatArray :=
    let f := row.get! q
    if f == 0 then row else subtract f numbers support (row.set! q 0)
  let level := tabulate t.body.size fun i => t.level.get! i - (t.row i).get! q * step
  { width := t.width
    body := (t.body.map eliminate).set! r numbers
    level := level.set! r ((if t.full.getD q false then 1 else 0) + step)
    rate := eliminate t.rate
    basic := t.basic.set! r (t.resting.getD q 0)
    resting := t.resting.set! q (t.basic.getD r 0)
    full := t.full.set! q upper }

/-- Exchanges variables, at most so often. -/
def solve : (steps : Nat) → Tableau → Tableau
  | 0, t => t
  | steps + 1, t =>
    match t.leaving with
    | none => t
    | some r =>
      match t.entering r with
      | none => t
      | some q => solve steps (t.pivot r q (0 ≤ t.level.get! r))

/-- What a unit more in every row costs.  If no values satisfy the rows this proves it, in that it
costs much more than can be paid. -/
def prices (t : Tableau) : FloatArray :=
  let weights (sign : Float) (row : FloatArray) (prices : FloatArray) : FloatArray :=
    Nat.fold t.width
      (fun k _ prices =>
        let v := t.resting.getD k 0
        if v < t.width then prices
        else prices.set! (v - t.width) (prices.get! (v - t.width) + sign * row.get! k))
      prices
  let prices := weights 1 t.rate (tabulate t.body.size fun _ => 0)
  match t.leaving with
  | none => prices
  | some r =>
    let much := 2 * (t.width + 1).toFloat / t.excess r
    let below := decide (t.level.get! r < 0)
    let prices := weights (if below then much else -much) (t.row r) prices
    let v := t.basic.getD r 0
    if v < t.width then prices else prices.set! (v - t.width) (prices.get! (v - t.width) + much)

/-- The values of the variables that are not surpluses. -/
def values (t : Tableau) : FloatArray :=
  let resting :=
    Nat.fold t.width
      (fun k _ values =>
        let v := t.resting.getD k 0
        if v < t.width && t.full.getD k false then values.set! v 1 else values)
      (tabulate t.width fun _ => 0)
  Nat.fold t.body.size
    (fun r _ values =>
      let v := t.basic.getD r 0
      if v < t.width then values.set! v (t.level.get! r) else values)
    resting

/-- How often every row goes into the expression of a basic variable. -/
def multipliers (t : Tableau) (r : Nat) : FloatArray :=
  let row := t.row r
  let resting :=
    Nat.fold t.width
      (fun k _ multipliers =>
        let v := t.resting.getD k 0
        if v < t.width then multipliers else multipliers.set! (v - t.width) (row.get! k))
      (tabulate t.body.size fun _ => 0)
  let v := t.basic.getD r 0
  if v < t.width then resting else resting.set! (v - t.width) 1

end Tableau

end NoisyCover.Simplex
