import NoisyCover.Binary64

/-!
# Decimals with a set number of places

Both functions round the exact value of a double to a number of decimal places, a tie to the even
neighbour.  `fixed` writes the result, `roundPlaces` gives it back as the nearest double.
-/

namespace NoisyCover.Decimal

/-- The magnitude `mantissa * 2 ^ exponent` in whole units of the last decimal place. -/
def unitsAt (places : Nat) (mantissa : Nat) (exponent : Int) : Nat :=
  let r := Binary64.ratio mantissa exponent
  roundDiv (r.1 * pow10 places) r.2

/-- Zeros before the digits of a number until it has the given length. -/
def zeroPadded (length : Nat) (n : Nat) : List Char :=
  let digits := Nat.toDigits 10 n
  List.replicate (length - digits.length) '0' ++ digits

/-- Writes a whole number of units of the last place with its point. -/
def placesText (places : Nat) (units : Nat) : String :=
  let digits := zeroPadded (places + 1) units
  let whole := digits.take (digits.length - places)
  let rest := digits.drop (digits.length - places)
  String.ofList (if places = 0 then whole else whole ++ '.' :: rest)

/-- Writes a double with the given number of places; a negative value keeps its sign, also when it
rounds to zero. -/
def fixed (places : Nat) (x : Float) : String :=
  match Binary64.ofFloat x with
  | .finite negative mantissa exponent =>
    (if negative then "-" else "") ++ placesText places (unitsAt places mantissa exponent)
  | other => other.specialText

/-- The double nearest to the value rounded to the given number of places. -/
def roundPlaces (places : Nat) (x : Float) : Float :=
  match Binary64.ofFloat x with
  | .finite negative mantissa exponent =>
    Binary64.nearest negative (unitsAt places mantissa exponent) (pow10 places)
  | _ => x

end NoisyCover.Decimal
