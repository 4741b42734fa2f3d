import NoisyCover.Main
import NoisyCover.Proofs.ExactCost
import NoisyCover.Proofs.Scan
import NoisyCover.Proofs.Rounding
import NoisyCover.Proofs.OrderedCosts
import NoisyCover.Proofs.Charges
import NoisyCover.Proofs.Graph
import NoisyCover.Proofs.Covering
import NoisyCover.Proofs.Greedy.Steps
import NoisyCover.Proofs.Greedy.Coverage
import NoisyCover.Proofs.Greedy.Guarantee
import NoisyCover.Proofs.Greedy.Report
import NoisyCover.Proofs.Greedy.Prices
import NoisyCover.Proofs.FirstLeast
import NoisyCover.Proofs.PrimalDual.Course
import NoisyCover.Proofs.PrimalDual.Progress
import NoisyCover.Proofs.PrimalDual.Duality
import NoisyCover.Proofs.PrimalDual.Accounting
import NoisyCover.Proofs.PrimalDual.Residuals
import NoisyCover.Proofs.PrimalDual.Outcomes
import NoisyCover.Proofs.Atomicity
import NoisyCover.Proofs.Program
import NoisyCover.Proofs.Optimality
import NoisyCover.Proofs.Optimiser
import NoisyCover.Proofs.Verdict
import NoisyCover.Proofs.Tally
import NoisyCover.Proofs.Rows
import NoisyCover.Proofs.Double.Costs
import NoisyCover.Proofs.Incidence
import NoisyCover.Proofs.Failures
import NoisyCover.Proofs.Double.Failures
import NoisyCover.Proofs.Minimisers
import NoisyCover.Proofs.Opacity
import NoisyCover.Proofs.TimedSession
import NoisyCover.Proofs.Reordering
import NoisyCover.Proofs.Random.Sampling
import NoisyCover.Proofs.Random.Uniform
import NoisyCover.Proofs.Random.Draws
import NoisyCover.Proofs.Random.Instances
import NoisyCover.Proofs.Ratios
import NoisyCover.Proofs.Contract
import NoisyCover.Proofs.Tolerance
import NoisyCover.Proofs.Exchange
import NoisyCover.Proofs.Checks
import NoisyCover.Proofs.Likelihood
import NoisyCover.Proofs.Ties
import NoisyCover.Proofs.Timing
