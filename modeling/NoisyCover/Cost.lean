import NoisyCover.Pool

/-!
# What a configuration costs

Each candidate is an independent latent indicator that is on with its probability.  Switching it on
costs minus the logarithm of that probability, leaving it off costs minus the logarithm of the rest.
The cost of a covering is the sum over the pool, the negative log-likelihood of that configuration.
-/

namespace NoisyCover

variable {K : Type u} [Arithmetic K]

/-- The cost of switching on a candidate that is known to be possible. -/
def selectionCost (p : K) : K := -Arithmetic.log p

/-- The cost of switching a candidate on. -/
def costOn (p : K) : Except Fault K := (Arithmetic.checkedLog p).map (- ·)

/-- The cost of leaving a candidate off. -/
def costOff (p : K) : Except Fault K := (Arithmetic.checkedLog (1 - p)).map (- ·)

/-- What switching a candidate on adds to the cost of leaving it off, from the ratio of the two
probabilities. -/
def logOddsAgainst (p : K) : Except Fault K :=
  if Arithmetic.isZero p then .error .divisionByZero
  else Arithmetic.checkedLog ((1 - p) / p)

/-- The cost of one candidate under a covering. -/
def candidateCost (covering : Covering) (c : Candidate K) : Except Fault K :=
  if c.1 ∈ covering then costOn c.2 else costOff c.2

/-- The cost of the whole pool under a covering, added up in pool order. -/
def Pool.cost (pool : Pool K) (covering : Covering) : Except Fault K :=
  pool.candidates.foldlM (fun total c => (candidateCost covering c).map (total + ·)) 0

/-- A reported cost: a number, or infinite when the transaction has no explanation. -/
inductive Cost (K : Type u) where
  | value (x : K)
  | infinite

end NoisyCover
