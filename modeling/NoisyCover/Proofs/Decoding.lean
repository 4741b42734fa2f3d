import Mathlib
import NoisyCover.Inference
import NoisyCover.Proofs.Covering
import NoisyCover.Proofs.Double.Costs
import NoisyCover.Solver.Milp

/-!
# Reading the values of a solver

The values of a solver are read twice, each time rounded.  The candidates whose value rounds to one
are selected, and for the log the rounded values are added up and the sum is rounded again.  When
all values are near zero or one (`NearBit`) both readings count the same (`selectedCount_eq`,
`exists_decode`), as long as the count is a double.
-/

namespace NoisyCover

section Decoding

variable {K : Type u} [Arithmetic K]

/-- Decoding leaves candidates out and changes nothing else. -/
theorem decode_sublist : ∀ {candidates : List (Candidate K)} {values : List K}
    {sets : List Itemset}, Exact.decode candidates values = .ok sets →
      sets.Sublist (candidates.map Prod.fst)
  | [], _, _, h | _ :: _, [], _, h => by
    cases h
    exact List.nil_sublist _
  | c :: candidates, v :: values, sets, h => by
    rw [Exact.decode] at h
    rcases hn : Arithmetic.nearestInt v with _ | n <;> rw [hn] at h
    · cases h
    rcases hrest : Exact.decode candidates values with _ | rest <;> rw [hrest] at h
    · cases h
    obtain rfl := Except.ok.inj h
    have ih := decode_sublist hrest
    rw [List.map_cons]
    split_ifs
    · exact ih.cons_cons c.1
    · exact ih.cons c.1

theorem selection_subset {candidates : List (Candidate K)} {values : Option (List K)}
    {selected : Covering} (h : Exact.selection candidates values = .ok (some selected)) :
    ∀ s ∈ selected, s ∈ candidates.map Prod.fst := by
  rcases values with _ | values
  · cases h
  simp only [Exact.selection] at h
  rcases hsets : Exact.decode candidates values with _ | sets <;> rw [hsets] at h
  · cases h
  obtain rfl := Option.some.inj (Except.ok.inj h)
  exact fun s hs => (decode_sublist hsets).subset (SortedSet.mem_ofList.1 hs)

section Conclude

variable {pool : Pool K} {t : Transaction} {answer : SolverAnswer K} (covering : Covering)

theorem conclude_of_none (h : answer.values = .ok none) :
    (Exact.conclude covering pool t answer).covering = covering ∧
      (Exact.conclude covering pool t answer).cost = .ok .infinite := by
  simp only [Exact.conclude, h, Exact.selection, Except.bind, Exact.cost, and_self]

theorem conclude_of_decode {values : List K} {sets : List Itemset}
    (h : answer.values = .ok (some values))
    (hsets : Exact.decode (pool.within t).candidates values = .ok sets) :
    (Exact.conclude covering pool t answer).covering = covering ∪ SortedSet.ofList sets ∧
      (Exact.conclude covering pool t answer).cost =
        ((pool.within t).cost (SortedSet.ofList sets)).map .value := by
  simp only [Exact.conclude, h, Exact.selection, Except.bind, hsets, Except.map, Exact.cost,
    and_self]

end Conclude

/-- Whether a value rounds to one. -/
def roundsToOne (x : K) : Bool :=
  match Arithmetic.nearestInt x with
  | .ok n => n == 1
  | .error _ => false

end Decoding

theorem nearestEven_near_bit {a : ℝ} (hlow : -(1 / (2 : ℕ)) ≤ a) (hhigh : a < 1 + 1 / (2 : ℕ)) :
    nearestEven a = 0 ∨ nearestEven a = 1 := by
  push_cast at hlow hhigh
  obtain ⟨n, ⟨h, h', heq⟩ | ⟨h, heq⟩ | ⟨h, h', heq⟩⟩ := nearestEven_cases a
  · have hn : (-1 : ℝ) < n := by linarith
    have hn' : (n : ℝ) < 2 := by linarith
    norm_cast at hn hn'
    omega
  · have hn : (-2 : ℝ) < n := by linarith
    have hn' : (n : ℝ) < 1 := by linarith
    norm_cast at hn hn'
    omega
  · have hn : (-2 : ℝ) < n := by linarith
    have hn' : (n : ℝ) < 1 := by linarith
    norm_cast at hn hn'
    omega

section Counting

variable {K : Type} [Arithmetic K] (R : Double.RoundsToDoubles K) {x : K} {values : List K}

/-- A number from minus one half up to, but not including, one and a half. -/
def Double.RoundsToDoubles.NearBit (x : K) : Prop :=
  ∃ a : ℝ, R.value x = some (a : EReal) ∧ -(1 / (2 : ℕ)) ≤ a ∧ a < 1 + 1 / (2 : ℕ)

theorem nearestInt_of_nearBit (h : R.NearBit x) :
    Arithmetic.nearestInt x = .ok (if roundsToOne x then 1 else 0) := by
  obtain ⟨a, ha, hlow, hhigh⟩ := h
  have hnearest := R.nearestInt_eq ha
  rcases nearestEven_near_bit hlow hhigh with h | h <;> rw [h] at hnearest <;>
    simp [roundsToOne, hnearest]

theorem value_roundToInt (h : R.NearBit x) :
    R.value (Arithmetic.roundToInt x) =
      some (((if roundsToOne x then 1 else 0 : ℕ) : ℝ) : EReal) := by
  rw [Arithmetic.roundToInt, nearestInt_of_nearBit R h]
  split_ifs
  · rw [Nat.cast_one]
    exact R.value_intCast_one
  · rw [Nat.cast_zero]
    exact R.value_intCast_zero

/-- Counts are exact until they have too many digits for a double. -/
theorem round_natCast {n : ℕ} (h : n < 2 ^ 53) : R.round (n : ℝ) = (n : ℝ) := by
  rw [R.round_eq, roundDouble_natCast h]

/-- The rounded values add up to the number of those that round to one. -/
theorem selectedCount_eq (hnear : ∀ x ∈ values, R.NearBit x)
    (hcount : values.countP roundsToOne < 2 ^ 53) :
    MilpSolver.selectedCount (some values) = .ok (values.countP roundsToOne) := by
  have hsum := Tally.pairwiseSum (R.additive_exact fun _ => round_natCast R) _
    (Tally.map fun x hx _ => value_roundToInt R (hnear x hx))
  rw [sum_map_ite_one] at hsum
  rw [MilpSolver.selectedCount, R.nearestInt_eq (hsum hcount)]
  exact congrArg Except.ok (by exact_mod_cast nearestEven_intCast (values.countP roundsToOne))

/-- As many candidates are decoded as values round to one. -/
theorem exists_decode : ∀ {candidates : List (Candidate K)} {values : List K},
    values.length = candidates.length → (∀ x ∈ values, R.NearBit x) →
      ∃ sets, Exact.decode candidates values = .ok sets ∧
        sets.length = values.countP roundsToOne
  | [], [], _, _ => ⟨[], rfl, rfl⟩
  | c :: candidates, v :: values, hlength, hnear => by
    obtain ⟨hv, hnear⟩ := List.forall_mem_cons.1 hnear
    obtain ⟨sets, hsets, hcount⟩ := exists_decode (Nat.succ.inj hlength) hnear
    refine ⟨if roundsToOne v then c.1 :: sets else sets, ?_, ?_⟩
    · rw [Exact.decode, nearestInt_of_nearBit R hv, hsets]
      rcases roundsToOne v <;> rfl
    · rw [List.countP_cons, ← hcount]
      split_ifs <;> rfl

end Counting

end NoisyCover
