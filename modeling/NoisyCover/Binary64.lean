/-!
# Doubles as exact numbers

A finite double is `mantissa * 2 ^ exponent` with a sign.  This module takes a double apart into
those integers and finds the double nearest to a quotient of two naturals.  Everything that rounds
or prints a double does so in exact integer arithmetic on these parts.
-/

namespace NoisyCover

abbrev pow2 (n : Nat) : Nat := Nat.pow 2 n

abbrev pow10 (n : Nat) : Nat := Nat.pow 10 n

/-- The quotient of two naturals to the nearest whole number; a tie goes to the even one. -/
def roundDiv (num den : Nat) : Nat :=
  let quotient := num / den
  let rest := num % den
  if 2 * rest < den then quotient
  else if den < 2 * rest then quotient + 1
  else quotient + quotient % 2

inductive Binary64 where
  /-- The number `mantissa * 2 ^ exponent`, or its negative; zero has a sign too. -/
  | finite (negative : Bool) (mantissa : Nat) (exponent : Int)
  | infinite (negative : Bool)
  | nan
  deriving DecidableEq, Repr

namespace Binary64

def leastExponent : Int := -1074

/-- The least mantissa of a double that is not among the smallest ones. -/
def leastMantissa : Nat := pow2 52

/-- The bit that says that a double is negative. -/
def signBit : Nat := pow2 63

def infinityBits : Nat := 2047 * leastMantissa

def ofFloat (x : Float) : Binary64 :=
  let bits : Nat := x.toBits.toNat
  let negative := decide (signBit ≤ bits)
  let field : Nat := bits / leastMantissa % 2048
  let fraction : Nat := bits % leastMantissa
  if field = 2047 then
    if fraction = 0 then .infinite negative else .nan
  else if field = 0 then .finite negative fraction leastExponent
  else .finite negative (leastMantissa + fraction) ((field : Int) - 1075)

/-- The magnitude `mantissa * 2 ^ exponent` as a numerator over a denominator. -/
def ratio (mantissa : Nat) (exponent : Int) : Nat × Nat :=
  (mantissa * pow2 exponent.toNat, pow2 (-exponent).toNat)

/-- The quotient `num / den` divided by `2 ^ exponent`, as a numerator over a denominator. -/
def scaleDown (num den : Nat) (exponent : Int) : Nat × Nat :=
  (num * pow2 (-exponent).toNat, den * pow2 exponent.toNat)

/-- The exponent at which `num / den` has a 53-bit mantissa, or the least one a double has. -/
def quotientExponent (num den : Nat) : Int :=
  let low : Int := (num.log2 : Int) - den.log2 - 53
  let scaled := scaleDown num den low
  max (if 2 * leastMantissa ≤ scaled.1 / scaled.2 then low + 1 else low) leastExponent

/-- The bits of the double nearest to `num / den`, a tie to the even mantissa; too large a quotient
gives infinity. -/
def nearestBits (num den : Nat) : Nat :=
  if num = 0 then 0
  else
    let exponent := quotientExponent num den
    let scaled := scaleDown num den exponent
    let mantissa := roundDiv scaled.1 scaled.2
    min ((exponent - leastExponent).toNat * leastMantissa + mantissa) infinityBits

/-- The double nearest to `num / den` or to its negative. -/
def nearest (negative : Bool) (num den : Nat) : Float :=
  Float.ofBits ((if negative then signBit else 0) + nearestBits num den).toUInt64

def infinity (negative : Bool) : Float :=
  Float.ofBits ((if negative then signBit else 0) + infinityBits).toUInt64

def ofInt (n : Int) : Float := nearest (decide (n < 0)) n.natAbs 1

/-- The double nearest to the quotient of an integer by a natural, or nothing when it is too large
for a double. -/
def ofIntQuotient? (num : Int) (den : Nat) : Option Float :=
  if nearestBits num.natAbs den = infinityBits then none
  else some (nearest (decide (num < 0)) num.natAbs den)

def isFinite (x : Float) : Bool :=
  match ofFloat x with
  | .finite .. => true
  | _ => false

/-- The number of binary places that a finite double takes after the point. -/
def places (x : Float) : Nat :=
  match ofFloat x with
  | .finite _ mantissa exponent =>
    let below := (-exponent).toNat
    if mantissa = 0 then 0 else below - (Nat.gcd mantissa (pow2 below)).log2
  | _ => 0

/-- A finite double in units of `2 ^ -places`, cut off if it takes more places. -/
def inUnits (places : Nat) (x : Float) : Int :=
  match ofFloat x with
  | .finite negative mantissa exponent =>
    let r := ratio mantissa (exponent + places)
    let n : Int := (r.1 / r.2 : Nat)
    if negative then -n else n
  | _ => 0

def specialText : Binary64 → String
  | .infinite false => "inf"
  | .infinite true => "-inf"
  | _ => "nan"

end Binary64

end NoisyCover
