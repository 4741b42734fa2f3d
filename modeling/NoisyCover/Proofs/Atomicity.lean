import Mathlib
import NoisyCover.Inference
import NoisyCover.Proofs.Charges
import NoisyCover.Proofs.Covering

/-!
# Which calls are all or nothing

A call of an algorithm selects the same itemsets and reports the same cost whatever the caller's
covering holds.  It is all or nothing if it adds its selection when it reports a number, and leaves
the covering as it was otherwise (`Call.AllOrNothing`).

Primal-dual inference adds its selection last, once its cost is known, and is always all or nothing.
Greedy and exact inference add theirs first.  So they leave it behind when a candidate outside the
selection has a probability of one or more, since leaving that candidate off has no cost; and this
is the only way in which they are not all or nothing (`Call.allOrNothing_iff`).
-/

namespace NoisyCover

variable {K : Type u} [Arithmetic K]

/-- A call of one of the algorithms, with all that it is given but the covering. -/
inductive Call (K : Type u) where
  | greedy (pool : Pool K) (t : Transaction)
  | primalDual {σ : Type} (source : RandomSource σ) (state : σ) (pool : Pool K) (t : Transaction)
  | exact (solve : Solver Id K) (pool : Pool K) (t : Transaction)

namespace Call

def filtered : Call K → Pool K
  | greedy pool t => pool.within t
  | primalDual _ _ pool t => pool.within t
  | exact _ pool t => pool.within t

def infer (covering : Covering) : Call K → Inference K
  | greedy pool t => Greedy.infer covering pool t
  | primalDual source state pool t => (PrimalDual.infer source covering pool t state).1
  | exact solve pool t => (Exact.infer solve covering pool t : Id (Inference K)).run

/-- What the solver's answer to an exact call decodes to. -/
def decoded (solve : Solver Id K) (pool : Pool K) (t : Transaction) :
    Except Fault (Option Covering) :=
  (Exact.answer solve pool t).run.values.bind (Exact.selection (pool.within t).candidates)

def selection : Call K → Covering
  | greedy pool t => Greedy.selection pool t
  | primalDual source state pool t => (PrimalDual.run source pool t state).selection
  | exact solve pool t =>
    match decoded solve pool t with
    | .ok (some selected) => selected
    | _ => ∅

/-- Whether a call knows its cost before it adds its selection. -/
def chargesFirst : Call K → Bool
  | primalDual .. => true
  | _ => false

/-- A call reports a number. -/
def Returns (call : Call K) : Prop := ∃ x, (call.infer ∅).cost = .ok (.value x)

/-- A call adds its selection if it reports a number, and otherwise adds nothing; what it selects
and reports does not depend on the covering. -/
structure AllOrNothing (call : Call K) : Prop where
  cost_eq : ∀ covering other, (call.infer covering).cost = (call.infer other).cost
  returned : ∀ covering x, (call.infer covering).cost = .ok (.value x) →
    (call.infer covering).covering = covering ∪ call.selection
  unexplained : ∀ covering, (call.infer covering).cost = .ok .infinite →
    (call.infer covering).covering = covering
  raised : ∀ covering fault, (call.infer covering).cost = .error fault →
    (call.infer covering).covering = covering

section Kinds

variable {call : Call K}

/-- A call that adds its selection before it reports the selection's cost. -/
structure AddsFirst (call : Call K) : Prop where
  covering_eq : ∀ covering, (call.infer covering).covering = covering ∪ call.selection
  cost_eq : ∀ covering,
    (call.infer covering).cost = (call.filtered.cost call.selection).map .value

/-- A call that finds nothing to add. -/
structure AddsNothing (call : Call K) : Prop where
  covering_eq : ∀ covering, (call.infer covering).covering = covering
  cost_eq : ∀ covering other, (call.infer covering).cost = (call.infer other).cost
  selection_eq : call.selection = ∅

theorem greedy_addsFirst (pool : Pool K) (t : Transaction) : (greedy pool t).AddsFirst :=
  ⟨fun _ => rfl, fun _ => rfl⟩

theorem primalDual_allOrNothing {σ : Type} (source : RandomSource σ) (state : σ) (pool : Pool K)
    (t : Transaction) : (primalDual source state pool t).AllOrNothing := by
  set r := PrimalDual.run source pool t state
  have hconclude : ∀ covering, (primalDual source state pool t).infer covering =
      PrimalDual.conclude covering (pool.within t).candidates r := fun _ => rfl
  rcases hcost : r.cost (pool.within t).candidates with fault | x
  · have hraised : ∀ covering, (primalDual source state pool t).infer covering =
        ⟨covering, .error fault, r.notes.map .primalDual⟩ := fun covering => by
      simp only [hconclude, PrimalDual.conclude, hcost, Except.map]
    refine ⟨fun _ _ => rfl, fun covering x h => ?_, fun covering _ => by rw [hraised],
      fun covering _ _ => by rw [hraised]⟩
    rw [hraised] at h
    cases h
  · have hreturned : ∀ covering, (primalDual source state pool t).infer covering =
        ⟨covering ∪ r.selection, .ok (.value x), r.notes.map .primalDual⟩ := fun covering => by
      simp only [hconclude, PrimalDual.conclude, hcost, Except.map]
    refine ⟨fun _ _ => rfl, fun covering _ _ => ?_, fun covering h => ?_, fun covering _ h => ?_⟩
    · rw [hreturned]
      rfl
    · rw [hreturned] at h
      cases h
    · rw [hreturned] at h
      cases h

theorem exact_addsFirst_or_nothing (solve : Solver Id K) (pool : Pool K) (t : Transaction) :
    (exact solve pool t).AddsFirst ∨ (exact solve pool t).AddsNothing := by
  have hconclude : ∀ covering, (exact solve pool t).infer covering =
      Exact.conclude covering pool t (Exact.answer solve pool t).run := fun _ => rfl
  rcases hdecoded : decoded solve pool t with fault | _ | selected
  · refine .inr ⟨fun covering => ?_, fun covering other => ?_, by simp only [selection, hdecoded]⟩
    · rw [hconclude, Exact.conclude, ← decoded, hdecoded]
    · rw [hconclude, hconclude, Exact.conclude, Exact.conclude, ← decoded, hdecoded]
  · refine .inr ⟨fun covering => ?_, fun covering other => ?_, by simp only [selection, hdecoded]⟩
    · rw [hconclude, Exact.conclude, ← decoded, hdecoded]
    · rw [hconclude, hconclude, Exact.conclude, Exact.conclude, ← decoded, hdecoded]
  · have hselection : (exact solve pool t).selection = selected := by
      simp only [selection, hdecoded]
    refine .inl ⟨fun covering => ?_, fun covering => ?_⟩
    · rw [hselection, hconclude, Exact.conclude, ← decoded, hdecoded]
    · rw [hselection, hconclude, Exact.conclude, ← decoded, hdecoded]
      rfl

theorem AddsNothing.allOrNothing (h : call.AddsNothing) : call.AllOrNothing where
  cost_eq := h.cost_eq
  returned covering _ _ := by rw [h.covering_eq, h.selection_eq, SortedSet.union_empty]
  unexplained covering _ := h.covering_eq covering
  raised covering _ _ := h.covering_eq covering

end Kinds

section Characterisation

variable (R : Rounding K)

theorem pos_of_mem_filtered : ∀ call : Call K, ∀ c ∈ call.filtered.candidates, 0 < c.2
  | greedy _ _ => Pool.pos_of_mem_within
  | primalDual _ _ _ _ => Pool.pos_of_mem_within
  | exact _ _ _ => Pool.pos_of_mem_within

include R

theorem AddsFirst.allOrNothing_iff {call : Call K} (h : call.AddsFirst) :
    call.AllOrNothing ↔ call.selection = ∅ ∨
      ∀ c ∈ call.filtered.candidates, c.1 ∉ call.selection → c.2 < 1 := by
  have hcharge := Pool.exists_cost_iff R call.pos_of_mem_filtered call.selection
  rw [← hcharge]
  rcases hcost : call.filtered.cost call.selection with fault | x
  · have hraised : ∀ covering, (call.infer covering).cost = .error fault := fun covering => by
      rw [h.cost_eq, hcost]
      rfl
    constructor
    · intro hall
      have hkept := hall.raised ∅ fault (hraised ∅)
      rw [h.covering_eq, SortedSet.empty_union] at hkept
      exact .inl hkept
    · rintro (hempty | ⟨x, hx⟩)
      · refine ⟨fun _ _ => by rw [hraised, hraised], fun covering _ _ => h.covering_eq covering,
          fun covering _ => ?_, fun covering _ _ => ?_⟩ <;>
        rw [h.covering_eq, hempty, SortedSet.union_empty]
      · cases hx
  · have hreturned : ∀ covering, (call.infer covering).cost = .ok (.value x) := fun covering => by
      rw [h.cost_eq, hcost]
      rfl
    refine iff_of_true ⟨fun _ _ => by rw [hreturned, hreturned],
      fun covering _ _ => h.covering_eq covering, fun covering hinfinite => ?_,
      fun covering fault hfault => ?_⟩ (.inr ⟨x, rfl⟩)
    · rw [hreturned] at hinfinite
      cases hinfinite
    · rw [hreturned] at hfault
      cases hfault

/-- A call is all or nothing unless it adds its selection first and leaves out a candidate of
probability one or more. -/
theorem allOrNothing_iff (call : Call K) :
    call.AllOrNothing ↔ call.chargesFirst = true ∨ call.selection = ∅ ∨
      ∀ c ∈ call.filtered.candidates, c.1 ∉ call.selection → c.2 < 1 := by
  cases call with
  | greedy pool t =>
    rw [(greedy_addsFirst pool t).allOrNothing_iff R]
    simp [chargesFirst]
  | primalDual source state pool t =>
    exact iff_of_true (primalDual_allOrNothing source state pool t) (.inl rfl)
  | exact solve pool t =>
    rcases exact_addsFirst_or_nothing solve pool t with h | h
    · rw [h.allOrNothing_iff R]
      simp [chargesFirst]
    · exact iff_of_true h.allOrNothing (.inr (.inl h.selection_eq))

end Characterisation

section Calls

theorem addsFirst_or_allOrNothing : ∀ call : Call K, call.AddsFirst ∨ call.AllOrNothing
  | greedy pool t => .inl (greedy_addsFirst pool t)
  | primalDual source state pool t => .inr (primalDual_allOrNothing source state pool t)
  | exact solve pool t => (exact_addsFirst_or_nothing solve pool t).imp_right (·.allOrNothing)

/-- What a call adds: its selection, unless it is all or nothing and reports no number. -/
theorem mem_infer_iff (call : Call K) (covering : Covering) (s : Itemset) :
    s ∈ (call.infer covering).covering ↔
      s ∈ covering ∨ s ∈ call.selection ∧ (call.Returns ∨ ¬ call.AllOrNothing) := by
  by_cases hall : call.AllOrNothing
  · simp only [hall, not_true, or_false]
    by_cases hreturns : call.Returns
    · obtain ⟨x, hx⟩ := hreturns
      rw [hall.returned covering x ((hall.cost_eq covering ∅).trans hx), SortedSet.mem_union]
      simp [Returns, hx]
    · have hkept : (call.infer covering).covering = covering := by
        rcases hcost : (call.infer covering).cost with fault | x | _
        · exact hall.raised covering fault hcost
        · exact absurd ⟨x, (hall.cost_eq ∅ covering).trans hcost⟩ hreturns
        · exact hall.unexplained covering hcost
      simp [hkept, hreturns]
  · have hadds := call.addsFirst_or_allOrNothing.resolve_right hall
    rw [hadds.covering_eq, SortedSet.mem_union]
    simp [hall]

def inferAll (calls : List (Call K)) (covering : Covering) : Covering :=
  calls.foldl (fun covering call => (call.infer covering).covering) covering

theorem mem_inferAll_iff (s : Itemset) : ∀ (calls : List (Call K)) (covering : Covering),
    s ∈ inferAll calls covering ↔ s ∈ covering ∨
      ∃ call ∈ calls, s ∈ call.selection ∧ (call.Returns ∨ ¬ call.AllOrNothing)
  | [], covering => by simp [inferAll]
  | call :: calls, covering => by
    rw [inferAll, List.foldl_cons, ← inferAll, mem_inferAll_iff s calls, mem_infer_iff,
      List.exists_mem_cons_iff, or_assoc]

end Calls

/-- Whatever the covering holds, a call reports the same cost; it adds its selection if it reports a
number, and adds nothing if it finds no explanation.  It is all or nothing exactly when it knows its
cost before it adds its selection, or selects nothing, or leaves out no candidate of probability one
or more.  So calls into one covering leave there what it held, the selections of the calls that
report a number, and those of the calls that are not all or nothing. -/
theorem infer_allOrNothing_iff (R : Rounding K) :
    (∀ call : Call K,
      (∀ covering other, (call.infer covering).cost = (call.infer other).cost) ∧
      (∀ covering x, (call.infer covering).cost = .ok (.value x) →
        (call.infer covering).covering = covering ∪ call.selection) ∧
      (∀ covering, (call.infer covering).cost = .ok .infinite →
        (call.infer covering).covering = covering) ∧
      (call.AllOrNothing ↔ call.chargesFirst = true ∨ call.selection = ∅ ∨
        ∀ c ∈ call.filtered.candidates, c.1 ∉ call.selection → c.2 < 1)) ∧
    ∀ (calls : List (Call K)) (covering : Covering) (s : Itemset),
      s ∈ inferAll calls covering ↔ s ∈ covering ∨
        ∃ call ∈ calls, s ∈ call.selection ∧ (call.Returns ∨ ¬ call.AllOrNothing) := by
  refine ⟨fun call => ?_, fun calls covering s => mem_inferAll_iff s calls covering⟩
  rcases call.addsFirst_or_allOrNothing with h | h
  · refine ⟨fun _ _ => by rw [h.cost_eq, h.cost_eq], fun covering _ _ => h.covering_eq covering,
      fun covering hinfinite => ?_, call.allOrNothing_iff R⟩
    rw [h.cost_eq] at hinfinite
    cases hcost : call.filtered.cost call.selection <;> rw [hcost] at hinfinite <;> cases hinfinite
  · exact ⟨h.cost_eq, h.returned, h.unexplained, call.allOrNothing_iff R⟩

section Certain

/-- Two items as one candidate and the first of them as another, both certain. -/
noncomputable def certain : Pool ℝ where
  candidates := [(SortedSet.ofList [1, 2], 1), (SortedSet.ofList [1], 1)]
  nodup := by decide

theorem certain_within : certain.within [1, 2] = certain := by
  refine Pool.within_eq_self fun c hc => ?_
  simp only [certain, List.mem_cons, List.not_mem_nil, or_false] at hc
  rcases hc with rfl | rfl
  · exact ⟨one_pos, by decide⟩
  · exact ⟨one_pos, by decide⟩

theorem selection_certain :
    Greedy.selection certain [1, 2] = SortedSet.ofList [SortedSet.ofList [1, 2]] := by
  have hcost : selectionCost (1 : ℝ) = 0 := by
    rw [selectionCost, show Arithmetic.log (1 : ℝ) = 0 from Real.log_one, neg_zero]
  have hkey : ∀ s : Itemset, (s \ ∅).size ≠ 0 → Greedy.costPerItem ∅ (s, (1 : ℝ)) = some 0 := by
    intro s hs
    show (if (s \ ∅).size = 0 then none else some (selectionCost (1 : ℝ) / _)) = some 0
    rw [if_neg hs, hcost, zero_div]
  have hwhole := hkey (SortedSet.ofList [1, 2]) (by decide)
  have hpart := hkey (SortedSet.ofList [1]) (by decide)
  have hchoose : Greedy.choose certain.candidates ∅ = some ((SortedSet.ofList [1, 2], 1), 0) := by
    simp only [Greedy.choose, firstLeast, certain, List.foldl_cons, List.foldl_nil, better, hwhole,
      hpart, beats, Arithmetic.bounded, if_true, lt_irrefl, decide_false]
    rfl
  have hpicks : Greedy.picks certain [1, 2] = [⟨SortedSet.ofList [1, 2], 0⟩] := by
    rw [Greedy.picks_eq, certain_within, Greedy.picksFrom, if_neg (by decide)]
    split
    · rename_i hnone
      rw [hchoose] at hnone
      cases hnone
    · rename_i found hsome
      rw [hchoose] at hsome
      obtain rfl := Option.some.inj hsome
      rw [Greedy.picksFrom, if_pos (by decide)]
  rw [Greedy.selection, hpicks]
  rfl

/-- Greedy inference of two items adds the first candidate and then fails on the second. -/
theorem greedy_certain_not_allOrNothing :
    ((greedy certain [1, 2]).infer ∅).cost = .error .logOfNonpositive ∧
      ((greedy certain [1, 2]).infer ∅).covering =
        SortedSet.ofList [SortedSet.ofList [1, 2]] ∧
      ¬ (greedy certain [1, 2]).AllOrNothing := by
  have hcost : ((greedy certain [1, 2]).infer ∅).cost = .error .logOfNonpositive := by
    rw [(greedy_addsFirst certain [1, 2]).cost_eq]
    show ((certain.within [1, 2]).cost (Greedy.selection certain [1, 2])).map _ = _
    rw [certain_within, selection_certain]
    have hwhole : candidateCost (SortedSet.ofList [SortedSet.ofList [1, 2]])
        (SortedSet.ofList [1, 2], (1 : ℝ)) = .ok (selectionCost 1) := by
      rw [candidateCost, if_pos (by decide), exactRounding.costOn_eq one_pos]
    have hpart : candidateCost (SortedSet.ofList [SortedSet.ofList [1, 2]])
        (SortedSet.ofList [1], (1 : ℝ)) = .error .logOfNonpositive := by
      rw [candidateCost, if_neg (by decide), exactRounding.costOff_eq_error one_pos (lt_irrefl 1)]
    simp only [Pool.cost, certain, List.foldlM_cons, hwhole, hpart]
    rfl
  have hcovering : ((greedy certain [1, 2]).infer ∅).covering =
      SortedSet.ofList [SortedSet.ofList [1, 2]] := by
    rw [(greedy_addsFirst certain [1, 2]).covering_eq, SortedSet.empty_union]
    exact selection_certain
  refine ⟨hcost, hcovering, fun h => ?_⟩
  have hkept := h.raised ∅ _ hcost
  rw [hcovering] at hkept
  revert hkept
  decide

end Certain

end Call

end NoisyCover
