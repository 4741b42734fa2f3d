import NoisyCover.Arithmetic

/-!
# Doubles as an arithmetic

The four operations and the order are those of doubles.  The logarithm is a parameter of
`doublesWith`, because nothing about the machine's logarithm can be derived; `doubles` is the
instance that runs.
-/

namespace NoisyCover.Arithmetic

/-- The integer nearest to a double, a tie to the even one. -/
def nearestIntOfFloat (x : Float) : Except Fault Int :=
  match Binary64.ofFloat x with
  | .finite negative mantissa exponent =>
    let r := Binary64.ratio mantissa exponent
    let n : Int := roundDiv r.1 r.2
    .ok (if negative then -n else n)
  | .infinite _ => .error .infinityToInteger
  | .nan => .error .nanToInteger

@[reducible] def doublesWith (log : Float → Float) : Arithmetic Float where
  natCast := Float.ofNat
  intCast := Binary64.ofInt
  decidableLT := inferInstance
  decidableLE := inferInstance
  log := log
  bounded x := decide (x < Binary64.infinity false)
  nearestInt := nearestIntOfFloat

/-- Doubles with the machine's logarithm. -/
instance doubles : Arithmetic Float := doublesWith Float.log

end NoisyCover.Arithmetic
