import Mathlib
import NoisyCover.Proofs.Contract
import NoisyCover.Proofs.TimedSession

/-!
# What timing a solver costs

A solver with a log does all that the same solver does without one, and then counts the variables
that its answer selects.  Failures and missing solutions need no count.  The count of a solution is
the sum of its rounded values, and a sum that is infinite or not a number has no nearest integer.
In that case the timed solver fails, where the untimed one gives an answer (`solve_timed`).

One value that is infinite or not a number is enough for that (`isFinite_of_isFinite_sum`).  The
values that an answer should have, zeros and ones up to small errors, do add up to a number
(`isFinite_sum_of_nearBits`).
-/

namespace NoisyCover

open Arithmetic

namespace Double

open Float.Model Float.Model.UnpackedFloat

/-- Neither infinite nor not a number. -/
def isNumber : UnpackedFloat → Bool
  | .zero _ | .finite .. => true
  | .infinity _ | .notANumber => false

variable {x y : Float} {u v : UnpackedFloat}

theorem isNumber_of_isNumber_add (h : isNumber (UnpackedFloat.add Format.binary64 u v) = true) :
    isNumber u = true ∧ isNumber v = true := by
  rcases u with (_ | _) | _ | _ | _ <;> rcases v with (_ | _) | _ | _ | _ <;>
    first | exact ⟨rfl, rfl⟩ | exact absurd h Bool.false_ne_true

theorem isNumber_of_isNumber_pack (h : isNumber (pack u).unpack = true) : isNumber u = true := by
  rcases u with s | _ | s | ⟨s, m, e, hm⟩
  · rwa [unpack_pack_of_canonical (show IsCanonical (.infinity s) from trivial)] at h
  · exact absurd h Bool.false_ne_true
  · rfl
  · rfl

theorem isFinite_eq (x : Float) : Binary64.isFinite x = isNumber x.toModel.unpack := by
  rw [Binary64.isFinite, ofFloat_eq]
  cases x.toModel.unpack <;> rfl

theorem isFinite_of_value {a : ℝ} (h : value x = some (a : EReal)) :
    Binary64.isFinite x = true := by
  rw [isFinite_eq]
  obtain ⟨s, hx, -⟩ | ⟨s, m, e, hm, hx, -⟩ := eq_of_valueOf_eq_coe h <;> rw [hx] <;> rfl

/-- A sum is infinite or not a number as soon as one summand is. -/
theorem isFinite_of_isFinite_add (h : Binary64.isFinite (x + y) = true) :
    Binary64.isFinite x = true ∧ Binary64.isFinite y = true := by
  rw [isFinite_eq] at h ⊢
  rw [isFinite_eq]
  exact isNumber_of_isNumber_add (isNumber_of_isNumber_pack h)

theorem exists_nearestInt_iff : (∃ n, nearestInt x = .ok n) ↔ Binary64.isFinite x = true := by
  show (∃ n, nearestIntOfFloat x = .ok n) ↔ _
  unfold nearestIntOfFloat Binary64.isFinite
  cases Binary64.ofFloat x <;> simp

theorem isFinite_of_isFinite_roundToInt (h : Binary64.isFinite (roundToInt x) = true) :
    Binary64.isFinite x = true := by
  rcases hnearest : nearestInt x with fault | n
  · rwa [Arithmetic.roundToInt, hnearest] at h
  · exact exists_nearestInt_iff.1 ⟨n, hnearest⟩

end Double

section Counting

variable {values : List Float}

/-- A sum of rounded values is infinite or not a number as soon as one of the values is. -/
theorem isFinite_of_isFinite_sum
    (h : Binary64.isFinite (pairwiseSum (values.map roundToInt)) = true) :
    ∀ v ∈ values, Binary64.isFinite v = true := by
  -- what is counted are the summands that are infinite or not a number
  have hadd : Additive fun (x : Float) n => Binary64.isFinite x = true → n = 0 := by
    refine ⟨fun _ => rfl, fun hx hy hsum => ?_⟩
    obtain ⟨hfx, hfy⟩ := Double.isFinite_of_isFinite_add hsum
    rw [hx hfx, hy hfy]
  have hvalue : ∀ v ∈ values, Binary64.isFinite (roundToInt v) = true →
      (if !Binary64.isFinite v then 1 else 0) = 0 := by
    intro v _ hround
    rw [Double.isFinite_of_isFinite_roundToInt hround]
    rfl
  have hcount := Tally.pairwiseSum hadd _ (Tally.map hvalue) h
  rw [sum_map_ite_one (fun v => !Binary64.isFinite v), List.countP_eq_zero] at hcount
  intro v hv
  simpa using hcount v hv

/-- Zeros and ones up to small errors, fewer of them than a double can count, add up to a number. -/
theorem isFinite_sum_of_nearBits
    (hnear : ∀ v ∈ values, ∃ a : ℝ, Double.value v = some (a : EReal) ∧
      -(1 / (2 : ℕ)) ≤ a ∧ a < 1 + 1 / (2 : ℕ))
    (hlength : values.length < 2 ^ 53) :
    Binary64.isFinite (pairwiseSum (values.map roundToInt)) = true := by
  have hadd : Additive fun (x : Float) n =>
      n < 2 ^ 53 → Double.value x = some ((n : ℝ) : EReal) := by
    refine ⟨fun _ => ?_, fun hx hy hlt => ?_⟩
    · rw [Nat.cast_zero]
      exact Double.value_zero
    · rw [Double.value_add (hx (by omega)) (hy (by omega)), ← Nat.cast_add,
        roundDouble_natCast hlt]
  have hround : ∀ v ∈ values, Double.value (roundToInt v) =
      some (((if roundsToOne v then 1 else 0 : ℕ) : ℝ) : EReal) := by
    intro v hv
    obtain ⟨a, ha, hlow, hhigh⟩ := hnear v hv
    have hnearest : nearestInt v = .ok (nearestEven a) := Double.nearestIntOfFloat_eq ha
    rcases nearestEven_near_bit hlow hhigh with h | h <;> rw [h] at hnearest <;>
      simp only [roundToInt, roundsToOne, hnearest]
    · show Double.value (Binary64.ofInt 0) = _
      simp [Double.value_ofInt_zero]
    · show Double.value (Binary64.ofInt 1) = _
      simp [Double.value_ofInt_one]
  have hsum := Tally.pairwiseSum hadd _ (Tally.map fun v hv _ => hround v hv)
  rw [sum_map_ite_one] at hsum
  exact Double.isFinite_of_value (hsum (List.countP_le_length.trans_lt hlength))

end Counting

section Solve

variable {K : Type} [Arithmetic K] {σ : Type} {s : MilpSolver} {now : StateM σ K}
  {optimise : Optimiser (StateM σ) K} {p : BinaryProgram K} {calls : SolveLog K} {st : σ}
  {fault : Fault}

theorem solve_untimed : s.solve now optimise p none st =
    (((s.attempt optimise p (now st).2).1, none), (s.attempt optimise p (now st).2).2) := by
  unfold MilpSolver.solve
  simp only [bind, StateT.bind]
  rcases now st with ⟨start, next⟩
  simp only
  rcases s.attempt optimise p next with ⟨⟨values, notes⟩, last⟩
  cases values <;> rfl

theorem solve_timed_of_error (h : (s.solve now optimise p none st).1.1.values = .error fault) :
    (s.solve now optimise p (some calls) st).1 =
      ((s.solve now optimise p none st).1.1, some calls) := by
  rw [solve_untimed] at h ⊢
  rw [solve_run]
  simp only at h ⊢
  rw [h]

theorem solve_timed_of_counted {values : Option (List K)} {n : ℤ}
    (h : (s.solve now optimise p none st).1.1.values = .ok values)
    (hcount : MilpSolver.selectedCount values = .ok n) :
    ∃ seconds, (s.solve now optimise p (some calls) st).1 =
      ((s.solve now optimise p none st).1.1,
        some (calls.record ⟨seconds, p.variableCount, n, values.isSome⟩)) := by
  rw [solve_untimed] at h ⊢
  rw [solve_run]
  simp only at h ⊢
  simp only [h, hcount]
  exact ⟨_, rfl⟩

theorem solve_timed_of_uncounted {values : Option (List K)}
    (h : (s.solve now optimise p none st).1.1.values = .ok values)
    (hcount : MilpSolver.selectedCount values = .error fault) :
    (s.solve now optimise p (some calls) st).1 =
      ({ (s.solve now optimise p none st).1.1 with values := .error fault }, some calls) := by
  rw [solve_untimed] at h ⊢
  rw [solve_run]
  simp only at h ⊢
  simp only [h, hcount]

end Solve

/-- In doubles a solver with a log answers and fails as it does without one, whatever the optimiser
replies and the clock shows, unless it is about to answer with values whose rounded sum is infinite
or not a number.  Such an answer is lost: the call fails and is not recorded.  One value that is
infinite or not a number is enough to lose an answer, and zeros and ones up to small errors, no more
than a double can count, are never lost. -/
theorem solve_timed {σ : Type} (s : MilpSolver) (now : StateM σ Float)
    (optimise : Optimiser (StateM σ) Float) (p : BinaryProgram Float) (calls : SolveLog Float)
    (st : σ) :
    let untimed := (s.solve now optimise p none st).1.1
    let timed := (s.solve now optimise p (some calls) st).1
    (∀ fault, untimed.values = .error fault → timed = (untimed, some calls)) ∧
      (untimed.values = .ok none →
        ∃ call, timed = (untimed, some (calls.record call)) ∧ call.feasible = false) ∧
      ∀ values, untimed.values = .ok (some values) →
        let sum := pairwiseSum (values.map roundToInt)
        (Binary64.isFinite sum = true →
          ∃ call, timed = (untimed, some (calls.record call)) ∧ call.feasible = true) ∧
        (∀ negative, Binary64.ofFloat sum = .infinite negative →
          timed = ({ untimed with values := .error .infinityToInteger }, some calls)) ∧
        (Binary64.ofFloat sum = .nan →
          timed = ({ untimed with values := .error .nanToInteger }, some calls)) ∧
        (Binary64.isFinite sum = true → ∀ v ∈ values, Binary64.isFinite v = true) ∧
        ((∀ v ∈ values, ∃ a : ℝ, Double.value v = some (a : EReal) ∧
            -(1 / (2 : ℕ)) ≤ a ∧ a < 1 + 1 / (2 : ℕ)) →
          values.length < 2 ^ 53 → Binary64.isFinite sum = true) := by
  intro untimed timed
  refine ⟨fun fault h => solve_timed_of_error h, fun h => ?_, fun values h => ?_⟩
  · obtain ⟨seconds, heq⟩ := solve_timed_of_counted h rfl
    exact ⟨_, heq, rfl⟩
  · refine ⟨fun hfinite => ?_, fun negative hinfinite => ?_, fun hnan => ?_,
      isFinite_of_isFinite_sum, isFinite_sum_of_nearBits⟩
    · obtain ⟨n, hn⟩ := Double.exists_nearestInt_iff.2 hfinite
      obtain ⟨seconds, heq⟩ := solve_timed_of_counted h hn
      exact ⟨_, heq, rfl⟩
    · refine solve_timed_of_uncounted h ?_
      show nearestIntOfFloat _ = _
      rw [nearestIntOfFloat, hinfinite]
    · refine solve_timed_of_uncounted h ?_
      show nearestIntOfFloat _ = _
      rw [nearestIntOfFloat, hnan]

section NotANumber

/-- One variable that has to be one. -/
def oneVariable : BinaryProgram Float where
  objective := [1]
  rows := [[1]]
  integrality := [1]
  items := [1]

def notANumber : Float := Float.ofBits 0x7ff8000000000000

/-- An optimiser that takes a value that is not a number for the proved optimum. -/
def replyNotANumber : Optimiser (StateM Unit) Float :=
  fun _ => pure (.ok ⟨some [notANumber], true⟩)

theorem pairwiseSum_singleton (x : Float) : pairwiseSum [x] = x := by
  rw [pairwiseSum, if_pos (by simp), blockSum, if_pos (by simp)]
  rfl

/-- An answer that is not a number, given without a log, is lost with one. -/
theorem solve_timed_notANumber :
    let s : MilpSolver := {}
    (s.solve (pure 0) replyNotANumber oneVariable none ()).1.1.values = .ok (some [notANumber]) ∧
      (s.solve (pure 0) replyNotANumber oneVariable (some .empty) ()).1.1.values =
        .error .nanToInteger := by
  intro s
  have hnan : nearestInt notANumber = .error .nanToInteger := by decide
  have hrow : oneVariable.hasEmptyRow = false := by
    simp only [BinaryProgram.hasEmptyRow, oneVariable, List.any_cons, pairwiseSum_singleton]
    decide
  have huntimed : (s.solve (pure 0) replyNotANumber oneVariable none ()).1.1.values =
      .ok (some [notANumber]) := by
    simp only [solve_untimed, MilpSolver.attempt, hrow]
    rfl
  refine ⟨huntimed, ?_⟩
  have hcount : MilpSolver.selectedCount (some [notANumber]) = .error .nanToInteger := by
    simp only [MilpSolver.selectedCount, List.map_cons, List.map_nil, pairwiseSum_singleton,
      roundToInt, hnan]
  rw [solve_timed_of_uncounted huntimed hcount]

end NotANumber

end NoisyCover
