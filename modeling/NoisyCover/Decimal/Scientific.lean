import NoisyCover.Decimal.Fixed

/-!
# Decimals in scientific form

`leadingExponent` finds the decimal exponent of a positive quotient, and `scientific` writes a
double with one digit before the point and a set number after it.
-/

namespace NoisyCover.Decimal

def digitCount (n : Nat) : Nat := (Nat.toDigits 10 n).length

/-- The quotient `num / den` divided by `10 ^ exponent`, as a numerator over a denominator. -/
def decimalScale (num den : Nat) (exponent : Int) : Nat × Nat :=
  (num * pow10 (-exponent).toNat, den * pow10 exponent.toNat)

/-- The exponent of the leading decimal digit of a positive quotient. -/
def leadingExponent (num den : Nat) : Int :=
  let guess : Int := (digitCount num : Int) - digitCount den
  let scaled := decimalScale num den guess
  if scaled.2 ≤ scaled.1 then guess else guess - 1

/-- The exponent part: a sign and at least two digits. -/
def exponentText (e : Int) : String :=
  "e" ++ (if e < 0 then "-" else "+") ++ String.ofList (zeroPadded 2 e.natAbs)

/-- Digits with a point after the first one, when more follow. -/
def pointAfterFirst : List Char → String
  | [] => ""
  | [d] => String.ofList [d]
  | d :: rest => String.ofList (d :: '.' :: rest)

/-- Writes a double with one digit before the point and `places` after it. -/
def scientific (places : Nat) (x : Float) : String :=
  match Binary64.ofFloat x with
  | .finite negative mantissa exponent =>
    let sign := if negative then "-" else ""
    if mantissa = 0 then
      sign ++ pointAfterFirst (List.replicate (places + 1) '0') ++ exponentText 0
    else
      let r := Binary64.ratio mantissa exponent
      let lead := leadingExponent r.1 r.2
      let scaled := decimalScale r.1 r.2 (lead - places)
      let units := roundDiv scaled.1 scaled.2
      if units = pow10 (places + 1) then
        sign ++ pointAfterFirst (zeroPadded (places + 1) (pow10 places)) ++ exponentText (lead + 1)
      else
        sign ++ pointAfterFirst (zeroPadded (places + 1) units) ++ exponentText lead
  | other => other.specialText

end NoisyCover.Decimal
