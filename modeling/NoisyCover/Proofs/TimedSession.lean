import Mathlib
import NoisyCover.Inference
import NoisyCover.Proofs.Verdict

/-!
# What the log of a timed solver records

A caller infers and resets the log, in any order, and the clock and the optimiser are one machine
whose answers may depend on all that happened before.  To say what a record is about, every call is
watched with a clock that keeps its readings (`watchCall`).  A call whose solver gives an answer
leaves one record behind, and the record describes the call; a call whose solver fails leaves the
log as it is (`watchCall_cases`).  So the log lists the answered calls since the last reset, in
order.
-/

namespace NoisyCover

open BinaryProgram

section Definitions

variable {K : Type} [Arithmetic K] {σ : Type}

/-- What a caller does with a timed solver. -/
inductive TimedEvent (K : Type) where
  | infer (covering : Covering) (pool : Pool K) (transaction : Transaction)
  | reset

/-- Runs events one after the other and gives what each call shows, with nothing for a reset. -/
def TimedEvent.run {α : Type}
    (call : Covering → Pool K → Transaction → SolveLog K → StateM σ (α × SolveLog K)) :
    List (TimedEvent K) → SolveLog K → StateM σ (List (Option α) × SolveLog K)
  | [], log => pure ([], log)
  | .reset :: events, _ => do
    let (rest, log) ← run call events .empty
    return (none :: rest, log)
  | .infer covering pool t :: events, log => do
    let (shown, log) ← call covering pool t log
    let (rest, log) ← run call events log
    return (some shown :: rest, log)

/-- A clock that keeps its readings. -/
def keepReadings (now : StateM σ K) : StateM (σ × List K) K := fun st =>
  ((now st.1).1, ((now st.1).2, st.2 ++ [(now st.1).1]))

/-- An optimiser that leaves the readings of a clock alone. -/
def besideReadings (optimise : Optimiser (StateM σ) K) : Optimiser (StateM (σ × List K)) K :=
  fun r st => ((optimise r st.1).1, ((optimise r st.1).2, st.2))

/-- A call of exact inference, with the answer of its solver and the clock readings it took. -/
structure TimedCall (K : Type) where
  covering : Covering
  pool : Pool K
  transaction : Transaction
  answer : SolverAnswer K
  readings : List K

namespace TimedCall

def found (c : TimedCall K) : Inference K :=
  Exact.conclude c.covering c.pool c.transaction c.answer

/-- What the call adds to an empty covering. -/
def selection (c : TimedCall K) : Covering :=
  (Exact.conclude ∅ c.pool c.transaction c.answer).covering

def solved (c : TimedCall K) : Bool :=
  match c.answer.values with
  | .ok _ => true
  | .error _ => false

end TimedCall

namespace MilpSolver

variable (s : MilpSolver) (now : StateM σ K) (optimise : Optimiser (StateM σ) K)

def inferTimed (covering : Covering) (pool : Pool K) (t : Transaction) (log : SolveLog K) :
    StateM σ (Inference K × SolveLog K) := do
  let (found, log') ← (Exact.infer (s.solver now optimise) covering pool t).run (some log)
  return (found, log'.getD log)

/-- The same call, watched. -/
def watchCall (covering : Covering) (pool : Pool K) (t : Transaction) (log : SolveLog K) :
    StateM σ (TimedCall K × SolveLog K) := fun st =>
  let r := Exact.answer (s.solver (keepReadings now) (besideReadings optimise)) pool t (some log)
    (st, [])
  ((⟨covering, pool, t, r.1.1, r.2.2⟩, r.1.2.getD log), r.2.1)

end MilpSolver

/-- The calls since the last reset. -/
def sinceReset {α : Type} (history : List (Option α)) : List α :=
  (history.rtakeWhile Option.isSome).reduceOption

end Definitions

section Solve

variable {K : Type} [Arithmetic K] {σ : Type} {s : MilpSolver} {now : StateM σ K}
  {optimise : Optimiser (StateM σ) K}

/-- A solver with a log reads the clock, attempts the program, and reads the clock again only for
an answer. -/
theorem solve_run (p : BinaryProgram K) (log : SolveLog K) (st : σ) :
    s.solve now optimise p (some log) st =
      let answered := s.attempt optimise p (now st).2
      match answered.1.values with
      | .error _ => ((answered.1, some log), answered.2)
      | .ok values =>
        let stop := now answered.2
        match MilpSolver.selectedCount values with
        | .error fault => (({ answered.1 with values := .error fault }, some log), stop.2)
        | .ok selected =>
          ((answered.1, some (log.record
            ⟨stop.1 - (now st).1, p.variableCount, selected, values.isSome⟩)), stop.2) := by
  unfold MilpSolver.solve
  simp only [bind, StateT.bind]
  rcases now st with ⟨start, next⟩
  simp only
  rcases s.attempt optimise p next with ⟨⟨values, notes⟩, last⟩
  rcases values with fault | values
  · rfl
  · simp only [StateT.bind, bind]
    rcases now last with ⟨stop, final⟩
    rcases MilpSolver.selectedCount values with fault | selected <;> rfl

theorem attempt_beside (p : BinaryProgram K) (st : σ) (readings : List K) :
    s.attempt (besideReadings optimise) p (st, readings) =
      ((s.attempt optimise p st).1, ((s.attempt optimise p st).2, readings)) := by
  unfold MilpSolver.attempt
  split_ifs
  · rfl
  · rfl
  · rfl
  · cases s.limit <;> rfl

variable (s now optimise) in
/-- Watching a solver changes neither its answer nor its log. -/
theorem solve_watched (p : BinaryProgram K) (log : SolveLog K) (st : σ) :
    ∃ readings, s.solve (keepReadings now) (besideReadings optimise) p (some log) (st, []) =
      ((s.solve now optimise p (some log) st).1,
        ((s.solve now optimise p (some log) st).2, readings)) := by
  simp only [solve_run, keepReadings, attempt_beside]
  rcases (s.attempt optimise p (now st).2).1.values with fault | values
  · exact ⟨_, rfl⟩
  · simp only
    rcases MilpSolver.selectedCount values with fault | selected <;> exact ⟨_, rfl⟩

theorem inferTimed_eq (covering : Covering) (pool : Pool K) (t : Transaction) (log : SolveLog K)
    (st : σ) :
    let watched := s.watchCall now optimise covering pool t log st
    s.inferTimed now optimise covering pool t log st =
      ((watched.1.1.found, watched.1.2), watched.2) := by
  unfold MilpSolver.inferTimed MilpSolver.watchCall Exact.infer Exact.answer
  rcases build (pool.within t) t with fault | p
  · rfl
  · obtain ⟨readings, hwatched⟩ := solve_watched s now optimise p log st
    simp only [MilpSolver.solver, hwatched]
    rfl

theorem solve_error {p : BinaryProgram K} {log : SolveLog K} {st : σ} {fault : Fault}
    (h : (s.solve now optimise p (some log) st).1.1.values = .error fault) :
    (s.solve now optimise p (some log) st).1.2 = some log := by
  rw [solve_run] at h ⊢
  rcases hvalues : (s.attempt optimise p (now st).2).1.values with _ | values
  · simp only [hvalues]
  · simp only [hvalues] at h ⊢
    rcases hselected : MilpSolver.selectedCount values with _ | selected
    · simp only
    · simp only [hselected] at h
      rw [hvalues] at h
      cases h

end Solve

section Bits

variable {K : Type} [Arithmetic K] (R : Double.RoundsToDoubles K) {σ : Type} {s : MilpSolver}
  {now : StateM σ K} {optimise : Optimiser (StateM σ) K}

/-- A reply is near bits unless it has as many values as there are variables and one of them is not
near zero or one. -/
def MilpRequest.IsNearBits (r : MilpRequest K) : Except OptimiserFault (MilpReply K) → Prop
  | .ok ⟨some values, _⟩ => values.length = r.objective.length → ∀ x ∈ values, R.NearBit x
  | _ => True

/-- An assignment of `n` values that are near zero or one, or none. -/
def AreNearBits (n : ℕ) (values : Option (List K)) : Prop :=
  ∀ x, values = some x → x.length = n ∧ ∀ v ∈ x, R.NearBit v

theorem areNearBits_none (n : ℕ) : AreNearBits R n (none : Option (List K)) := by
  rintro _ ⟨⟩

theorem interpret_nearBits {r : MilpRequest K} {reply : Except OptimiserFault (MilpReply K)}
    (h : r.IsNearBits R reply) {values : Option (List K)}
    (hvalues : (MilpSolver.interpret r.objective.length reply).values = .ok values) :
    AreNearBits R r.objective.length values := by
  rcases reply with (_ | _) | ⟨_ | x, proven⟩ <;> simp only [MilpSolver.interpret] at hvalues
  · cases hvalues
    exact areNearBits_none R _
  · cases hvalues
  · cases hvalues
    exact areNearBits_none R _
  · by_cases hlength : x.length = r.objective.length
    · rw [if_pos hlength] at hvalues
      cases hvalues
      rintro _ ⟨⟩
      exact ⟨hlength, h hlength⟩
    · rw [if_neg hlength] at hvalues
      cases hvalues
      exact areNearBits_none R _

variable (hoptimise : ∀ (r : MilpRequest K) (st : σ), r.IsNearBits R (optimise r st).1)

include hoptimise

theorem attempt_nearBits {p : BinaryProgram K} {st : σ} {values : Option (List K)}
    (hvalues : (s.attempt optimise p st).1.values = .ok values) :
    AreNearBits R p.variableCount values := by
  unfold MilpSolver.attempt at hvalues
  split_ifs at hvalues with hrow hcount hnone
  · cases hvalues
    exact areNearBits_none R _
  · cases hvalues
    rintro _ ⟨⟩
    exact ⟨hcount.symm, by simp⟩
  · cases hvalues
    exact areNearBits_none R _
  · rcases hlimit : s.limit with _ | limit <;> rw [hlimit] at hvalues
    · cases hvalues
    · exact interpret_nearBits R (hoptimise (s.request limit p) st) hvalues

variable (s now) in
/-- A solver that fails leaves its log as it is, and one that answers reads the clock twice and
adds one record. -/
theorem solve_cases (p : BinaryProgram K) (log : SolveLog K) (st : σ) :
    let r := s.solve (keepReadings now) (besideReadings optimise) p (some log) (st, [])
    ((∃ fault, r.1.1.values = .error fault) ∧ r.1.2 = some log) ∨
      ∃ values selected start stop, r.1.1.values = .ok values ∧ r.2.2 = [start, stop] ∧
        AreNearBits R p.variableCount values ∧ MilpSolver.selectedCount values = .ok selected ∧
        r.1.2 = some (log.record ⟨stop - start, p.variableCount, selected, values.isSome⟩) := by
  simp only [solve_run, keepReadings, attempt_beside]
  rcases hvalues : (s.attempt optimise p (now st).2).1.values with fault | values
  · exact .inl ⟨⟨fault, hvalues⟩, rfl⟩
  have hnear := attempt_nearBits R hoptimise hvalues
  simp only
  rcases hselected : MilpSolver.selectedCount values with fault | selected
  · exact .inl ⟨⟨fault, rfl⟩, rfl⟩
  · exact .inr ⟨values, selected, _, _, hvalues, rfl, hnear, hselected, rfl⟩

end Bits

section Records

variable {K : Type} [Arithmetic K] (R : Double.RoundsToDoubles K)

/-- A cost that is infinite, as such or as a number. -/
def Cost.IsInfinite : Cost K → Prop
  | .value x => R.value x = some ⊤
  | .infinite => True

/-- A call that reports an infinite cost and leaves the covering as it is. -/
def TimedCall.FoundNothing (c : TimedCall K) : Prop :=
  (∃ cost, c.found.cost = .ok cost ∧ cost.IsInfinite R) ∧ c.found.covering = c.covering

/-- What a record says of its call.  The call returned a cost and added its selection to the
covering.  A count of selected itemsets is a double, so it is the number of itemsets as long as that
has fewer than 54 bits, and no list of values that fits into memory is longer. -/
structure SolveCall.Describes (r : SolveCall K) (c : TimedCall K) : Prop where
  seconds : ∃ start stop, c.readings = [start, stop] ∧ r.seconds = stop - start
  variableCount : r.variableCount = (c.pool.within c.transaction).size
  returned : ∃ cost, c.found.cost = .ok cost
  covering : c.found.covering = c.covering ∪ c.selection
  feasible : r.feasible = false ↔ c.FoundNothing R
  selectedCount : c.selection.size < 2 ^ 53 → r.selectedCount = c.selection.size
  selectedCount_of_infeasible : r.feasible = false → r.selectedCount = 0

theorem describes {c : TimedCall K}
    (hopen : ∀ q ∈ (c.pool.within c.transaction).candidates, 0 < q.2 ∧ q.2 < 1)
    {values : Option (List K)} {selected : ℤ} {start stop : K}
    (hvalues : c.answer.values = .ok values) (hreadings : c.readings = [start, stop])
    (hnear : AreNearBits R (c.pool.within c.transaction).size values)
    (hselected : MilpSolver.selectedCount values = .ok selected) :
    SolveCall.Describes R
      ⟨stop - start, (c.pool.within c.transaction).size, selected, values.isSome⟩ c := by
  rcases values with _ | x
  · obtain ⟨hcovering, hcost⟩ := conclude_of_none c.covering hvalues
    have hselection : c.selection = ∅ := (conclude_of_none ∅ hvalues).1
    obtain rfl : 0 = selected := Except.ok.inj hselected
    refine ⟨⟨start, stop, hreadings, rfl⟩, rfl, ⟨_, hcost⟩, ?_, ?_, fun _ => ?_, fun _ => rfl⟩
    · rw [hselection, SortedSet.union_empty]
      exact hcovering
    · exact iff_of_true rfl ⟨⟨_, hcost, trivial⟩, hcovering⟩
    · rw [hselection]
      rfl
  · obtain ⟨hlength, hbits⟩ := hnear x rfl
    obtain ⟨sets, hsets, hcount⟩ := exists_decode R hlength hbits
    obtain ⟨hcovering, hreported⟩ := conclude_of_decode c.covering hvalues hsets
    obtain ⟨cost, hcost, a, ha⟩ := R.isFinite_cost hopen (SortedSet.ofList sets)
    rw [hcost] at hreported
    have hselection : c.selection = SortedSet.ofList sets := by
      rw [TimedCall.selection, (conclude_of_decode ∅ hvalues hsets).1, SortedSet.empty_union]
    have hnodup : sets.Nodup := (c.pool.within c.transaction).nodup.sublist (decode_sublist hsets)
    refine ⟨⟨start, stop, hreadings, rfl⟩, rfl, ⟨_, hreported⟩, ?_, ?_, fun hsmall => ?_, ?_⟩
    · rw [hselection]
      exact hcovering
    · -- a cost that is a number is finite, so it is not infinite
      refine iff_of_false (by simp) fun ⟨⟨other, hother, hinfinite⟩, _⟩ => ?_
      obtain rfl := Except.ok.inj (hreported.symm.trans hother)
      exact EReal.coe_ne_top a (Option.some.inj (ha.symm.trans hinfinite))
    · rw [hselection, SortedSet.size_ofList_of_nodup hnodup, hcount] at hsmall ⊢
      exact Except.ok.inj (hselected.symm.trans (selectedCount_eq R hbits hsmall))
    · simp

variable {σ : Type} {s : MilpSolver} {now : StateM σ K} {optimise : Optimiser (StateM σ) K}
  (hoptimise : ∀ (r : MilpRequest K) (st : σ), r.IsNearBits R (optimise r st).1)

include hoptimise

/-- A call whose solver fails leaves the log as it is, and any other call leaves one record that
describes it. -/
theorem watchCall_cases {pool : Pool K} {t : Transaction}
    (hopen : ∀ c ∈ (pool.within t).candidates, 0 < c.2 ∧ c.2 < 1) (covering : Covering)
    (log : SolveLog K) (st : σ) :
    let watched := s.watchCall now optimise covering pool t log st
    (watched.1.1.solved = false ∧ watched.1.2 = log) ∨
      (watched.1.1.solved = true ∧
        ∃ r : SolveCall K, watched.1.2 = log.record r ∧ r.Describes R watched.1.1) := by
  have hcount : (logOddsProgram (pool.within t) t).variableCount = (pool.within t).size :=
    List.length_map _
  unfold MilpSolver.watchCall Exact.answer
  rw [R.build_eq hopen]
  simp only [MilpSolver.solver]
  rcases solve_cases R s now hoptimise (logOddsProgram (pool.within t) t) log st with
    ⟨⟨fault, hfault⟩, hlog⟩ | ⟨values, selected, start, stop, hvalues, hreadings, hnear, hselected,
      hlog⟩
  · exact .inl ⟨by simp only [TimedCall.solved, hfault], by rw [hlog]; rfl⟩
  · rw [hcount] at hnear hlog
    have hdescribes := describes R (c := ⟨covering, pool, t, _, _⟩) hopen hvalues hreadings hnear
      hselected
    exact .inr ⟨by simp only [TimedCall.solved, hvalues], _, by rw [hlog]; rfl, hdescribes⟩

end Records

section Runs

variable {K σ α β : Type}

/-- The watched calls since the last reset whose solver gave an answer. -/
def recordedCalls (history : List (Option (TimedCall K))) : List (TimedCall K) :=
  (sinceReset history).filter TimedCall.solved

theorem recordedCalls_reset (history : List (Option (TimedCall K))) :
    recordedCalls (history ++ [none]) = [] := by
  rw [recordedCalls, sinceReset, List.rtakeWhile_concat_neg _ _ _ (by simp)]
  rfl

theorem recordedCalls_call (history : List (Option (TimedCall K))) (c : TimedCall K) :
    recordedCalls (history ++ [some c]) =
      recordedCalls history ++ if c.solved then [c] else [] := by
  rw [recordedCalls, sinceReset, List.rtakeWhile_concat_pos _ _ _ (by simp),
    List.reduceOption_append, List.filter_append]
  split_ifs with h <;> simp [recordedCalls, sinceReset, List.reduceOption, h]

/-- Calls that show more run alike. -/
theorem run_congr
    {call : Covering → Pool K → Transaction → SolveLog K → StateM σ (α × SolveLog K)}
    {call' : Covering → Pool K → Transaction → SolveLog K → StateM σ (β × SolveLog K)}
    {f : β → α}
    (h : ∀ covering pool t log st, call covering pool t log st =
      ((f (call' covering pool t log st).1.1, (call' covering pool t log st).1.2),
        (call' covering pool t log st).2)) :
    ∀ (events : List (TimedEvent K)) (log : SolveLog K) (st : σ),
      TimedEvent.run call events log st =
        (((TimedEvent.run call' events log st).1.1.map (Option.map f),
          (TimedEvent.run call' events log st).1.2), (TimedEvent.run call' events log st).2)
  | [], _, _ => rfl
  | .reset :: events, log, st => by
    have ih := run_congr h events .empty st
    simp only [TimedEvent.run, bind, StateT.bind, ih]
    rfl
  | .infer covering pool t :: events, log, st => by
    have ih := run_congr h events (call' covering pool t log st).1.2
      (call' covering pool t log st).2
    simp only [TimedEvent.run, bind, StateT.bind, h covering pool t log st, ih]
    rfl

theorem countP_eq_of_forall₂ {Related : α → β → Prop} {p : α → Bool} {q : β → Bool}
    (h : ∀ a b, Related a b → p a = q b) : ∀ {l : List α} {m : List β},
      List.Forall₂ Related l m → l.countP p = m.countP q
  | _, _, .nil => rfl
  | _, _, .cons hab hrest => by
    rw [List.countP_cons, List.countP_cons, h _ _ hab, countP_eq_of_forall₂ h hrest]

variable [Arithmetic K] (R : Double.RoundsToDoubles K) {s : MilpSolver} {now : StateM σ K}
  {optimise : Optimiser (StateM σ) K}
  (hoptimise : ∀ (r : MilpRequest K) (st : σ), r.IsNearBits R (optimise r st).1)

include hoptimise

variable (s now) in
theorem watchCall_describes {pool : Pool K} {t : Transaction}
    (hopen : ∀ c ∈ (pool.within t).candidates, 0 < c.2 ∧ c.2 < 1) (covering : Covering)
    {log : SolveLog K} (st : σ) {history : List (Option (TimedCall K))}
    (h : List.Forall₂ (SolveCall.Describes R) log.calls (recordedCalls history)) :
    let watched := s.watchCall now optimise covering pool t log st
    List.Forall₂ (SolveCall.Describes R) watched.1.2.calls
      (recordedCalls (history ++ [some watched.1.1])) := by
  intro watched
  rw [recordedCalls_call]
  rcases watchCall_cases R hoptimise hopen covering log st with
    ⟨hfailed, hsame⟩ | ⟨hsolved, r, hrecord, hdescribes⟩
  · rw [hfailed, hsame]
    simpa using h
  · rw [hsolved, hrecord]
    exact List.rel_append h (.cons hdescribes .nil)

variable (s now) in
/-- Every event keeps what the log says of the calls since the last reset. -/
theorem run_describes : ∀ (events : List (TimedEvent K)) (history : List (Option (TimedCall K)))
    (log : SolveLog K) (st : σ),
    (∀ covering pool t, TimedEvent.infer covering pool t ∈ events →
      ∀ c ∈ (pool.within t).candidates, 0 < c.2 ∧ c.2 < 1) →
    List.Forall₂ (SolveCall.Describes R) log.calls (recordedCalls history) →
      let watched := TimedEvent.run (s.watchCall now optimise) events log st
      List.Forall₂ (SolveCall.Describes R) watched.1.2.calls
        (recordedCalls (history ++ watched.1.1))
  | [], history, log, st, _, h => by
    show List.Forall₂ _ log.calls (recordedCalls (history ++ []))
    rwa [List.append_nil]
  | .reset :: events, history, log, st, hopen, _ => by
    have ih := run_describes events (history ++ [none]) .empty st
      (fun covering pool t hmem => hopen covering pool t (List.mem_cons_of_mem _ hmem))
      (by rw [recordedCalls_reset]; exact .nil)
    simp only [List.append_assoc] at ih
    exact ih
  | .infer covering pool t :: events, history, log, st, hopen, h => by
    have hcall := watchCall_describes R s now hoptimise
      (hopen covering pool t List.mem_cons_self) covering st h
    have ih := run_describes events _ _ (s.watchCall now optimise covering pool t log st).2
      (fun covering pool t hmem => hopen covering pool t (List.mem_cons_of_mem _ hmem)) hcall
    simp only [List.append_assoc] at ih
    exact ih

end Runs

open Classical in
/-- The log of a timed solver is faithful.  Take any events and any machine of a clock and an
optimiser whose replies, when they have the right length, are near zero or one.  Watching the calls
changes nothing, and after the events the log has one record for each call since the last reset
whose solver gave an answer, in order, and each record describes its call.  So the calls without a
solution in the log are those that found nothing.  A solver that fails leaves the log as it is,
whatever the program. -/
theorem run_log_describes {K σ : Type} [Arithmetic K] (R : Double.RoundsToDoubles K)
    (s : MilpSolver) (now : StateM σ K) (optimise : Optimiser (StateM σ) K)
    (hoptimise : ∀ (r : MilpRequest K) (st : σ), r.IsNearBits R (optimise r st).1)
    (events : List (TimedEvent K))
    (hopen : ∀ covering pool t, TimedEvent.infer covering pool t ∈ events →
      ∀ c ∈ (pool.within t).candidates, 0 < c.2 ∧ c.2 < 1) (st : σ) :
    let watched := TimedEvent.run (s.watchCall now optimise) events .empty st
    let log := watched.1.2
    TimedEvent.run (s.inferTimed now optimise) events .empty st =
        ((watched.1.1.map (Option.map TimedCall.found), log), watched.2) ∧
      List.Forall₂ (SolveCall.Describes R) log.calls (recordedCalls watched.1.1) ∧
      log.infeasibleCount =
        (recordedCalls watched.1.1).countP (fun c => decide (c.FoundNothing R)) ∧
      ∀ (p : BinaryProgram K) (log : SolveLog K) (st : σ) (fault : Fault),
        (s.solve now optimise p (some log) st).1.1.values = .error fault →
          (s.solve now optimise p (some log) st).1.2 = some log := by
  intro watched log
  have hdescribes := run_describes R s now hoptimise events [] .empty st hopen .nil
  refine ⟨run_congr (fun covering pool t log st => inferTimed_eq covering pool t log st) _ _ _,
    hdescribes, countP_eq_of_forall₂ (fun r c h => ?_) hdescribes,
    fun p log st fault h => solve_error h⟩
  rw [Bool.eq_iff_iff, decide_eq_true_iff, Bool.not_eq_true', h.feasible]

section Ticking

variable {K : Type} [Arithmetic K]

def ticking : StateM ℕ K := fun n => ((n : K), n + 1)

def allOn : Optimiser (StateM ℕ) K := fun r n =>
  (.ok ⟨some (r.objective.map fun _ => 1), true⟩, n)

variable (R : Double.RoundsToDoubles K)

theorem nearBit_one : R.NearBit 1 := ⟨1, R.value_one, by norm_num, by norm_num⟩

theorem allOn_nearBits (r : MilpRequest K) (n : ℕ) : r.IsNearBits R (allOn r n).1 := by
  intro _ x hx
  obtain ⟨_, _, rfl⟩ := List.mem_map.1 hx
  exact nearBit_one R

include R in
/-- When every item is in a candidate, switching everything on is an answer. -/
theorem solved_allOn {pool : Pool K} {t : Transaction}
    (hopen : ∀ c ∈ (pool.within t).candidates, 0 < c.2 ∧ c.2 < 1)
    (hisolated : isolatedItems (pool.within t) t = []) (hnone : (pool.within t).size ≠ 0)
    (hsize : (pool.within t).size < 2 ^ 53) (covering : Covering) (log : SolveLog K) (n : ℕ) :
    (MilpSolver.watchCall {} ticking allOn covering pool t log n).1.1.solved = true := by
  set p := logOddsProgram (pool.within t) t with hp
  have hrow : ¬ p.hasEmptyRow = true := fun h => (R.hasEmptyRow_iff rfl rfl).1 h hisolated
  have hcount : p.variableCount = (pool.within t).size := List.length_map _
  have hattempt : ∀ n, (MilpSolver.attempt {} allOn p n).1.values =
      .ok (some (p.objective.map fun _ => 1)) := by
    intro n
    unfold MilpSolver.attempt
    rw [if_neg hrow, if_neg (by rwa [hcount])]
    exact congrArg SolverAnswer.values (if_pos (List.length_map _))
  have hbits : ∀ x ∈ p.objective.map fun _ => (1 : K), R.NearBit x := by
    intro x hx
    obtain ⟨_, _, rfl⟩ := List.mem_map.1 hx
    exact nearBit_one R
  have hselected := selectedCount_eq R hbits (List.countP_le_length.trans_lt (by
    rw [List.length_map]
    exact hcount.trans_lt hsize))
  unfold MilpSolver.watchCall Exact.answer
  rw [R.build_eq hopen, ← hp]
  simp only [MilpSolver.solver, solve_run, keepReadings, attempt_beside, hattempt, hselected,
    TimedCall.solved]

/-- One call of two, with a reset between them. -/
theorem run_log_evenPair :
    letI := Arithmetic.doublesWith Double.nearestLog
    let call : TimedEvent Float := .infer ∅ evenPair [1, 2]
    let log := (TimedEvent.run (MilpSolver.inferTimed {} ticking allOn) [call, .reset, call]
      .empty 0).1.2
    ∃ r : SolveCall Float, log.calls = [r] ∧ r.variableCount = 1 := by
  let _ := Arithmetic.doublesWith Double.nearestLog
  intro call log
  let R := Double.doubleRounding Double.nearestLog_isLogarithm
  have hprobable : improbable? evenPair = none := by decide
  have hopen : ∀ c ∈ (evenPair.within [1, 2]).candidates, 0 < c.2 ∧ c.2 < 1 := fun c hc =>
    improbable?_eq_none_iff.1 hprobable c (Pool.mem_within.1 hc).1
  have hevents : ∀ covering pool t, TimedEvent.infer covering pool t ∈ [call, .reset, call] →
      ∀ c ∈ (pool.within t).candidates, 0 < c.2 ∧ c.2 < 1 := by
    intro covering pool t hmem
    simp only [call, List.mem_cons, List.not_mem_nil, or_false, reduceCtorEq, false_or, or_self,
      TimedEvent.infer.injEq] at hmem
    obtain ⟨-, rfl, rfl⟩ := hmem
    exact hopen
  obtain ⟨hrun, hlog, -, -⟩ := run_log_describes R {} ticking allOn (allOn_nearBits R)
    [call, .reset, call] hevents 0
  have hsolved : ∀ log n,
      (MilpSolver.watchCall {} ticking allOn ∅ evenPair [1, 2] log n).1.1.solved = true :=
    solved_allOn R hopen (by decide) (by decide) (by decide) ∅
  let first := MilpSolver.watchCall {} ticking allOn ∅ evenPair [1, 2] .empty 0
  let second := MilpSolver.watchCall {} ticking allOn ∅ evenPair [1, 2] .empty first.2
  have hrecorded : recordedCalls ([some first.1.1] ++ [none] ++ [some second.1.1]) =
      [second.1.1] := by
    rw [recordedCalls_call, recordedCalls_reset, hsolved]
    rfl
  have hcalls : List.Forall₂ (SolveCall.Describes R) log.calls [second.1.1] := by
    show List.Forall₂ _ (TimedEvent.run (MilpSolver.inferTimed {} ticking allOn) _ _ 0).1.2.calls _
    rw [hrun, ← hrecorded]
    exact hlog
  obtain ⟨r, rest, hdescribes, hrest, hcons⟩ := List.forall₂_cons_right_iff.1 hcalls
  rw [List.forall₂_nil_right_iff.1 hrest] at hcons
  exact ⟨r, hcons, hdescribes.variableCount.trans (by decide)⟩

end Ticking

end NoisyCover
