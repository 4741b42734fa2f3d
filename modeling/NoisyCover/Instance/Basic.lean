import NoisyCover.Pool

/-!
# Instances

An instance is a transaction together with a pool of candidates to explain it with.
-/

namespace NoisyCover

structure Instance (K : Type u) where
  transaction : Transaction
  pool : Pool K

end NoisyCover
