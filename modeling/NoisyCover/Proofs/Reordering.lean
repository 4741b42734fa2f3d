import Mathlib
import NoisyCover.Proofs.Minimisers
import NoisyCover.Proofs.PrimalDual.Outcomes
import NoisyCover.Proofs.Verdict

/-!
# Transactions with the same items

A transaction is a list, but only the set of its items matters.  Greedy inference looks at nothing
else.  A primal-dual run draws positions in the list, so other draws may be needed to visit the same
items, but over all draws the outcomes are the same.  A covering program has a row for every place
in the list: rows are repeated and swapped, and what they allow stays the same (`exists_build`).

So a solver may answer one program as it answers the other, and exact inference makes the same of
the answer (`Exact.outcomes_subset`).  Over the real numbers every optimal answer leads to the same
cost, and to the same covering if only one complete covering is cheapest.
-/

namespace NoisyCover

open BinaryProgram Std.Do

section Items

variable {K : Type u} [Arithmetic K] {pool : Pool K} {t t' : Transaction}
  (hitems : ∀ i, i ∈ t ↔ i ∈ t')

include hitems

theorem Transaction.items_congr : t.items = t'.items :=
  SortedSet.ext_mem fun i => by simp [hitems]

theorem Pool.within_congr (pool : Pool K) : pool.within t = pool.within t' := by
  unfold Pool.within
  rw [Transaction.items_congr hitems]

theorem Greedy.infer_congr (covering : Covering) (pool : Pool K) :
    infer covering pool t = infer covering pool t' := by
  unfold infer conclude notes leftover picks
  rw [Pool.within_congr hitems, Transaction.items_congr hitems]

theorem PrimalDual.outcomes_congr (covering : Covering) (pool : Pool K) :
    outcomes covering pool t = outcomes covering pool t' :=
  (outcomes_subset hitems (Pool.within_congr hitems pool)).antisymm
    (outcomes_subset (fun i => (hitems i).symm) (Pool.within_congr hitems pool).symm)

end Items

section Programs

variable {K : Type} {value : K → Option EReal} {p q : BinaryProgram K}

/-- Programs with the same objective and the same rows, in any order and however often. -/
structure BinaryProgram.SameRows (p q : BinaryProgram K) : Prop where
  objective_eq : p.objective = q.objective
  mem_rows_iff : ∀ row, row ∈ p.rows ↔ row ∈ q.rows

/-- A program with its numbers read as real numbers. -/
noncomputable def BinaryProgram.reading (value : K → Option EReal) (p : BinaryProgram K) :
    BinaryProgram ℝ where
  objective := p.objective.map (realOf value)
  rows := p.rows.map fun row => row.map (realOf value)
  integrality := p.integrality
  items := p.items

/-- The sum of the coefficients that an assignment switches on, which may be infinite. -/
noncomputable def BinaryProgram.objectiveAt (value : K → Option EReal) (p : BinaryProgram K)
    (xs : List ℝ) : EReal :=
  ((p.objective.zip xs).map fun cx => if cx.2 = 1 then (value cx.1).getD ⊤ else 0).sum

/-- A feasible assignment of least objective. -/
structure BinaryProgram.IsMinimiser (value : K → Option EReal) (p : BinaryProgram K)
    (xs : List ℝ) : Prop where
  feasible : (p.reading value).IsFeasible xs
  least : ∀ other, (p.reading value).IsFeasible other →
    p.objectiveAt value xs ≤ p.objectiveAt value other

/-- An answer of finite numbers that stand for a minimiser, or nothing if nothing is feasible. -/
def SolverAnswer.Minimises (value : K → Option EReal) (answer : SolverAnswer K)
    (p : BinaryProgram K) : Prop :=
  match answer.values with
  | .ok (some values) =>
    (∀ x ∈ values, ∃ a : ℝ, value x = some (a : EReal)) ∧
      p.IsMinimiser value (values.map (realOf value))
  | .ok none => ∀ xs, ¬ (p.reading value).IsFeasible xs
  | .error _ => False

theorem BinaryProgram.SameRows.symm (h : p.SameRows q) : q.SameRows p :=
  ⟨h.objective_eq.symm, fun row => (h.mem_rows_iff row).symm⟩

theorem BinaryProgram.SameRows.reading (h : p.SameRows q) :
    (p.reading value).SameRows (q.reading value) where
  objective_eq := by simp [BinaryProgram.reading, h.objective_eq]
  mem_rows_iff row := by simp [BinaryProgram.reading, h.mem_rows_iff]

theorem BinaryProgram.SameRows.isFeasible {p q : BinaryProgram ℝ} (h : p.SameRows q) {xs : List ℝ}
    (hxs : p.IsFeasible xs) : q.IsFeasible xs := by
  obtain ⟨hassign, hreach⟩ := hxs
  rw [variableCount, h.objective_eq] at hassign
  exact ⟨hassign, fun row hrow => hreach row ((h.mem_rows_iff row).2 hrow)⟩

theorem BinaryProgram.SameRows.isFeasible_iff {p q : BinaryProgram ℝ} (h : p.SameRows q)
    {xs : List ℝ} : p.IsFeasible xs ↔ q.IsFeasible xs :=
  ⟨h.isFeasible, h.symm.isFeasible⟩

theorem BinaryProgram.SameRows.solves {p q : BinaryProgram ℝ} (h : p.SameRows q)
    {answer : SolverAnswer ℝ} (hanswer : answer.Solves p) : answer.Solves q := by
  unfold SolverAnswer.Solves at hanswer ⊢
  split at hanswer
  · obtain ⟨hfeasible, hleast⟩ := hanswer
    refine ⟨h.isFeasible hfeasible, fun other hother => ?_⟩
    rw [← h.objective_eq]
    exact hleast other (h.symm.isFeasible hother)
  · exact fun xs hxs => hanswer xs (h.symm.isFeasible hxs)
  · exact hanswer

theorem BinaryProgram.SameRows.objectiveAt_eq (h : p.SameRows q) (xs : List ℝ) :
    p.objectiveAt value xs = q.objectiveAt value xs := by
  simp [objectiveAt, h.objective_eq]

theorem BinaryProgram.SameRows.minimises (h : p.SameRows q) {answer : SolverAnswer K}
    (hanswer : answer.Minimises value p) : answer.Minimises value q := by
  unfold SolverAnswer.Minimises at hanswer ⊢
  split at hanswer
  · obtain ⟨hfinite, hfeasible, hleast⟩ := hanswer
    refine ⟨hfinite, h.reading.isFeasible hfeasible, fun other hother => ?_⟩
    rw [← h.objectiveAt_eq, ← h.objectiveAt_eq]
    exact hleast other (h.symm.reading.isFeasible hother)
  · exact fun xs hxs => hanswer xs (h.symm.reading.isFeasible hxs)
  · exact hanswer

variable [Arithmetic K]

theorem BinaryProgram.exists_minimises (R : Rounding K) (p : BinaryProgram K) :
    ∃ answer : SolverAnswer K, answer.Minimises R.value p := by
  by_cases hfeasible : {xs | (p.reading R.value).IsFeasible xs}.Nonempty
  · -- there are only finitely many assignments, so one of them is least
    have hfinite : {xs | (p.reading R.value).IsFeasible xs}.Finite :=
      (List.finite_toSet (feasibleAssignments _)).subset fun xs h => mem_feasibleAssignments.2 h
    obtain ⟨xs, hxs, hleast⟩ := Set.exists_min_image _ (p.objectiveAt R.value) hfinite hfeasible
    refine ⟨⟨.ok (some (xs.map fun x => if x = 1 then 1 else 0)), []⟩, fun x hx => ?_, ?_⟩
    · obtain ⟨b, -, rfl⟩ := List.mem_map.1 hx
      split_ifs
      · exact ⟨1, R.value_one⟩
      · exact ⟨0, R.value_zero⟩
    · rw [realOf_bits R hxs.assignment.zero_or_one]
      exact ⟨hxs, hleast⟩
  · exact ⟨⟨.ok none, []⟩, fun xs h => hfeasible ⟨xs, h⟩⟩

variable {pool : Pool K} {t t' : Transaction} (hitems : ∀ i, i ∈ t ↔ i ∈ t')

include hitems

theorem exists_build (hp : BinaryProgram.build (pool.within t) t = .ok p) :
    ∃ q, BinaryProgram.build (pool.within t') t' = .ok q ∧ p.SameRows q := by
  rw [← Pool.within_congr hitems pool]
  unfold BinaryProgram.build at hp ⊢
  rcases hobjective : (pool.within t).candidates.mapM fun c => logOddsAgainst c.2 with f | objective
  · simp [hobjective, Except.map] at hp
  · rw [hobjective] at hp ⊢
    obtain rfl := Except.ok.inj hp
    exact ⟨_, rfl, rfl, fun row => by simp [hitems]⟩

end Programs

section Answers

variable {K : Type} [Arithmetic K] {pool : Pool K} {t t' : Transaction} {covering : Covering}
  {solves : SolverAnswer K → BinaryProgram K → Prop} {answer : SolverAnswer K}

/-- What exact inference can lead to, over all answers that solve the covering program. -/
def Exact.outcomes (solves : SolverAnswer K → BinaryProgram K → Prop) (covering : Covering)
    (pool : Pool K) (t : Transaction) : Set (Covering × Except Fault (Cost K)) :=
  {o | ∃ p answer, BinaryProgram.build (pool.within t) t = .ok p ∧ solves answer p ∧
    (Exact.conclude covering pool t answer).outcome = o}

theorem Exact.outcome_conclude_congr (hwithin : pool.within t = pool.within t') :
    (conclude covering pool t answer).outcome = (conclude covering pool t' answer).outcome := by
  simp only [conclude, cost, hwithin]
  split <;> rfl

theorem Exact.outcomes_subset (hitems : ∀ i, i ∈ t ↔ i ∈ t')
    (hsolves : ∀ answer p q, p.SameRows q → solves answer p → solves answer q) :
    outcomes solves covering pool t ⊆ outcomes solves covering pool t' := by
  rintro _ ⟨p, answer, hp, hanswer, rfl⟩
  obtain ⟨q, hq, hsame⟩ := exists_build hitems hp
  exact ⟨q, answer, hq, hsolves answer p q hsame hanswer,
    (outcome_conclude_congr (Pool.within_congr hitems pool)).symm⟩

theorem Exact.outcomes_congr (hitems : ∀ i, i ∈ t ↔ i ∈ t')
    (hsolves : ∀ answer p q, p.SameRows q → solves answer p → solves answer q) :
    outcomes solves covering pool t = outcomes solves covering pool t' :=
  (outcomes_subset hitems hsolves).antisymm
    (outcomes_subset (fun i => (hitems i).symm) hsolves)

theorem Exact.infer_outcome_mem {m : Type → Type v} {ps : PostShape} [Monad m] [WPMonad m ps]
    {solve : Solver m K} (hsolve : ∀ p, ⦃⌜True⌝⦄ solve p ⦃⇓ answer => ⌜solves answer p⌝⦄)
    {p : BinaryProgram K} (hp : BinaryProgram.build (pool.within t) t = .ok p)
    (covering : Covering) :
    ⦃⌜True⌝⦄ infer solve covering pool t
    ⦃⇓ r => ⌜r.outcome ∈ outcomes solves covering pool t⌝⦄ := by
  rw [infer_of_build hp]
  refine Triple.bind _ _ (hsolve p) fun answer => ?_
  exact Triple.pure _ (SPred.pure_mono fun h => ⟨p, answer, hp, h, rfl⟩)

theorem Exact.outcome_conclude_of_selection {answer answer' : SolverAnswer K}
    (h : answer.values.bind (selection (pool.within t).candidates) =
      answer'.values.bind (selection (pool.within t).candidates)) :
    (conclude covering pool t answer).outcome = (conclude covering pool t answer').outcome := by
  simp only [conclude, h]
  split <;> rfl

/-- If only one assignment is a minimiser, that is what every answer stands for. -/
theorem Exact.outcomes_subsingleton (R : Double.RoundsToDoubles K) {p : BinaryProgram K}
    (hp : BinaryProgram.build (pool.within t) t = .ok p)
    (hunique : ∀ xs ys, p.IsMinimiser R.value xs → p.IsMinimiser R.value ys → xs = ys) :
    (outcomes (SolverAnswer.Minimises R.value) covering pool t).Subsingleton := by
  rintro _ ⟨p₁, a, hp₁, ha, rfl⟩ _ ⟨p₂, b, hp₂, hb, rfl⟩
  obtain rfl := Except.ok.inj (hp.symm.trans hp₁)
  obtain rfl := Except.ok.inj (hp.symm.trans hp₂)
  refine outcome_conclude_of_selection ?_
  rcases hvalues : a.values with f | _ | values <;>
    rcases hvalues' : b.values with f' | _ | values' <;>
    simp only [SolverAnswer.Minimises, hvalues, hvalues'] at ha hb
  case ok.none.ok.none => rfl
  case ok.none.ok.some => exact absurd hb.2.feasible (ha _)
  case ok.some.ok.none => exact absurd ha.2.feasible (hb _)
  case ok.some.ok.some =>
    obtain ⟨hfinite, hleast⟩ := ha
    obtain ⟨hfinite', hleast'⟩ := hb
    have hsame := hunique _ _ hleast hleast'
    simp only [Except.bind, selection]
    rw [decode_real R hfinite, decode_real R hfinite', hsame]

end Answers

section Optimal

variable {pool : Pool ℝ} {t : Transaction} {covering : Covering} {r r' : Inference ℝ}

theorem Inference.IsOptimal.cost_eq (h : r.IsOptimal covering pool t)
    (h' : r'.IsOptimal covering pool t) : r.cost = r'.cost := by
  by_cases hisolated : isolatedItems (pool.within t) t = []
  · obtain ⟨added, x, -, hx, hcomplete, hcost, hleast⟩ := h.1 hisolated
    obtain ⟨added', y, -, hy, hcomplete', hcost', hleast'⟩ := h'.1 hisolated
    obtain ⟨y', hy', hle⟩ := hleast added' hcomplete'
    obtain ⟨x', hx', hle'⟩ := hleast' added hcomplete
    obtain rfl := Except.ok.inj (hcost'.symm.trans hy')
    obtain rfl := Except.ok.inj (hcost.symm.trans hx')
    rw [hx, hy, le_antisymm hle hle']
  · rw [(h.2 hisolated).2, (h'.2 hisolated).2]

theorem Inference.IsOptimal.covering_eq (h : r.IsOptimal covering pool t)
    (h' : r'.IsOptimal covering pool t)
    (hunique : ∀ d d', IsCheapest d pool t → IsCheapest d' pool t → d = d') :
    r.covering = r'.covering := by
  by_cases hisolated : isolatedItems (pool.within t) t = []
  · obtain ⟨added, x, hadded, -, hcomplete, hcost, hleast⟩ := h.1 hisolated
    obtain ⟨added', y, hadded', -, hcomplete', hcost', hleast'⟩ := h'.1 hisolated
    have hsame : added = added' := by
      refine hunique _ _ ⟨hcomplete, fun other hother => ?_⟩ ⟨hcomplete', fun other hother => ?_⟩
      · obtain ⟨z, hz, hle⟩ := hleast other hother
        exact ⟨x, z, hcost, hz, hle⟩
      · obtain ⟨z, hz, hle⟩ := hleast' other hother
        exact ⟨y, z, hcost', hz, hle⟩
    rw [hadded, hadded', hsame]
  · rw [(h.2 hisolated).1, (h'.2 hisolated).1]

theorem exists_isOptimal_of_mem_outcomes
    (hp : ∀ c ∈ (pool.within t).candidates, c.2 < 1) {o : Covering × Except Fault (Cost ℝ)}
    (h : o ∈ Exact.outcomes SolverAnswer.Solves covering pool t) :
    ∃ r : Inference ℝ, r.IsOptimal covering pool t ∧ r.outcome = o := by
  obtain ⟨p, answer, hbuild, hanswer, rfl⟩ := h
  rw [build_eq (Pool.within_open hp)] at hbuild
  obtain rfl := Except.ok.inj hbuild
  exact ⟨_, conclude_isOptimal (Pool.within_open hp) hanswer covering, rfl⟩

end Optimal

/-- Inference cannot tell transactions with the same items apart.  They have the same candidates in
the same order, greedy inference does the same, and primal-dual inference can lead to the same
coverings and costs, whatever source the draws come from.  Their covering programs allow the same
assignments, which have the same objective in both, so a solver may answer the one as it answers the
other, and exact inference can lead to the same coverings and costs.  If only one assignment is a
minimiser there is just one of these.  Over the real numbers all of them have the same cost, and the
same covering if only one complete covering is cheapest. -/
theorem infer_depends_on_items {log : Float → Float} (hlog : Double.IsLogarithm log)
    {t t' : Transaction} (hitems : ∀ i, i ∈ t ↔ i ∈ t') (covering : Covering) :
    letI := Arithmetic.doublesWith log
    (∀ pool : Pool Float, (∀ c ∈ (pool.within t).candidates, c.2 < 1) →
      pool.within t = pool.within t' ∧
      Greedy.infer covering pool t = Greedy.infer covering pool t' ∧
      PrimalDual.outcomes covering pool t = PrimalDual.outcomes covering pool t' ∧
      (∀ {σ : Type} (source : RandomSource σ) (state : σ),
        (PrimalDual.infer source covering pool t state).1.outcome ∈
          PrimalDual.outcomes covering pool t) ∧
      let solves := SolverAnswer.Minimises Double.value
      Exact.outcomes solves covering pool t = Exact.outcomes solves covering pool t' ∧
      ∃ p q, BinaryProgram.build (pool.within t) t = .ok p ∧
        BinaryProgram.build (pool.within t') t' = .ok q ∧
        (∀ xs, ((p.reading Double.value).IsFeasible xs ↔ (q.reading Double.value).IsFeasible xs) ∧
          p.objectiveAt Double.value xs = q.objectiveAt Double.value xs) ∧
        ((∀ xs ys, p.IsMinimiser Double.value xs → p.IsMinimiser Double.value ys → xs = ys) →
          (Exact.outcomes solves covering pool t).Subsingleton) ∧
        ∀ {m : Type → Type} {ps : PostShape} [Monad m] [WPMonad m ps] {solve : Solver m Float},
          (∀ p, ⦃⌜True⌝⦄ solve p ⦃⇓ answer => ⌜solves answer p⌝⦄) →
          ⦃⌜True⌝⦄ Exact.infer solve covering pool t
          ⦃⇓ r => ⌜r.outcome ∈ Exact.outcomes solves covering pool t⌝⦄) ∧
    ∀ pool : Pool ℝ, (∀ c ∈ (pool.within t).candidates, c.2 < 1) →
      let outcomes := Exact.outcomes SolverAnswer.Solves covering pool t
      outcomes = Exact.outcomes SolverAnswer.Solves covering pool t' ∧
      (∀ o ∈ outcomes, ∀ o' ∈ outcomes, o.2 = o'.2) ∧
      ((∀ d d', IsCheapest d pool t → IsCheapest d' pool t → d = d') →
        ∀ o ∈ outcomes, ∀ o' ∈ outcomes, o.1 = o'.1) ∧
      ∀ {m : Type → Type} {ps : PostShape} [Monad m] [WPMonad m ps] {solve : Solver m ℝ},
        (∀ p, ⦃⌜True⌝⦄ solve p ⦃⇓ answer => ⌜answer.Solves p⌝⦄) →
        ⦃⌜True⌝⦄ Exact.infer solve covering pool t ⦃⇓ r => ⌜r.outcome ∈ outcomes⌝⦄ := by
  let _ := Arithmetic.doublesWith log
  constructor
  · intro pool hp
    let R := Double.doubleRounding hlog
    have hopen : ∀ c ∈ (pool.within t).candidates, 0 < c.2 ∧ c.2 < 1 := fun c hc =>
      ⟨Pool.pos_of_mem_within c hc, hp c hc⟩
    have hbuild := R.build_eq hopen t
    obtain ⟨q, hq, hsame⟩ := exists_build hitems hbuild
    refine ⟨Pool.within_congr hitems pool, Greedy.infer_congr hitems covering pool,
      PrimalDual.outcomes_congr hitems covering pool,
      fun source state => PrimalDual.outcome_mem source covering pool t state,
      Exact.outcomes_congr hitems fun answer p q h => h.minimises,
      _, q, hbuild, hq, fun xs => ⟨hsame.reading.isFeasible_iff, hsame.objectiveAt_eq xs⟩,
      Exact.outcomes_subsingleton R hbuild,
      fun hsolve => Exact.infer_outcome_mem hsolve hbuild covering⟩
  · intro pool hp outcomes
    refine ⟨Exact.outcomes_congr hitems fun answer p q h => h.solves, fun o ho o' ho' => ?_,
      fun hunique o ho o' ho' => ?_,
      fun hsolve => Exact.infer_outcome_mem hsolve (build_eq (Pool.within_open hp) t) covering⟩
    · obtain ⟨r, hr, rfl⟩ := exists_isOptimal_of_mem_outcomes hp ho
      obtain ⟨r', hr', rfl⟩ := exists_isOptimal_of_mem_outcomes hp ho'
      exact hr.cost_eq hr'
    · obtain ⟨r, hr, rfl⟩ := exists_isOptimal_of_mem_outcomes hp ho
      obtain ⟨r', hr', rfl⟩ := exists_isOptimal_of_mem_outcomes hp ho'
      exact hr.covering_eq hr' hunique

/-- Four items are explained at the same cost when they are swapped and one is repeated. -/
theorem infer_overlapping_swapped :
    letI := Arithmetic.doublesWith Double.nearestLog
    Greedy.infer ∅ evenPair [1, 2] = Greedy.infer ∅ evenPair [2, 1, 1] ∧
      PrimalDual.outcomes ∅ evenPair [1, 2] = PrimalDual.outcomes ∅ evenPair [2, 1, 1] ∧
      (Exact.infer exhaustiveSolver ∅ overlapping [1, 2, 3, 4] : Id _).run.cost =
        (Exact.infer exhaustiveSolver ∅ overlapping [4, 3, 2, 1, 1] : Id _).run.cost := by
  let _ := Arithmetic.doublesWith Double.nearestLog
  have hpair : ∀ i : Item, i ∈ [1, 2] ↔ i ∈ [2, 1, 1] := by
    intro i
    simp only [List.mem_cons, List.not_mem_nil, or_false]
    tauto
  have hfour : ∀ i : Item, i ∈ [1, 2, 3, 4] ↔ i ∈ [4, 3, 2, 1, 1] := by
    intro i
    simp only [List.mem_cons, List.not_mem_nil, or_false]
    tauto
  have hlt : ∀ c ∈ (overlapping.within [4, 3, 2, 1, 1]).candidates, c.2 < 1 :=
    Pool.within_congr hfour overlapping ▸ overlapping_lt_one
  obtain ⟨hdoubles, -⟩ := infer_depends_on_items Double.nearestLog_isLogarithm hpair ∅
  obtain ⟨-, hreals⟩ := infer_depends_on_items Double.nearestLog_isLogarithm hfour ∅
  obtain ⟨-, hreals'⟩ := infer_depends_on_items Double.nearestLog_isLogarithm
    (fun i => (hfour i).symm) ∅
  obtain ⟨-, hgreedy, hprimalDual, -⟩ := hdoubles evenPair (by decide)
  obtain ⟨hsame, hcost, -, hmem⟩ := hreals overlapping overlapping_lt_one
  obtain ⟨-, -, -, hmem'⟩ := hreals' overlapping hlt
  have hrun := Id.of_wp_run_eq rfl (fun r : Inference ℝ => r.outcome ∈ _)
    (Triple.iff.1 (hmem exhaustiveSolver_solves))
  have hrun' := Id.of_wp_run_eq rfl (fun r : Inference ℝ => r.outcome ∈ _)
    (Triple.iff.1 (hmem' exhaustiveSolver_solves))
  rw [← hsame] at hrun'
  exact ⟨hgreedy, hprimalDual, hcost _ hrun _ hrun'⟩

end NoisyCover
