import Mathlib
import NoisyCover.Proofs.Decoding
import NoisyCover.Proofs.Failures
import NoisyCover.Proofs.PrimalDual.Progress
import NoisyCover.Proofs.Verdict

/-!
# When inference in doubles fails

A probability of one or more leaves nothing to take a logarithm of, and a finite one makes the odds
against its candidate zero or negative.  An infinite one does not: the rest of one is then negative
infinity, and the odds are not a number (`odds_le_zero_iff`), which is no reason to fail.

Below one, every charge is a number from zero to 1075.  Taking a residual cost off another one that
is not below it keeps it in that range, and a running total of such charges stays finite.  So the
reported costs of accepted pools are finite and not negative.
-/

namespace NoisyCover

theorem Rounding.odds_le_zero {K : Type u} [Arithmetic K] (R : Rounding K) {p : K} {a : ℝ}
    (ha : R.value p = some (a : EReal)) (h : 1 ≤ a) : (1 - p) / p ≤ 0 := by
  have hlow : ((-a : ℝ) : EReal) ≤ R.round (1 - a) := by
    have hneg := R.value_neg ha
    rw [← EReal.coe_neg] at hneg
    rw [← R.round_value hneg]
    exact R.monotone_round (by linarith)
  have hhigh : R.round (1 - a) ≤ ((0 : ℝ) : EReal) :=
    (R.monotone_round (sub_nonpos.2 h)).trans_eq R.round_zero
  obtain ⟨b, hb, -, hb0⟩ := exists_coe_of_bounds hlow hhigh
  have hrest : R.value (1 - p) = some (b : EReal) := hb ▸ R.value_sub R.value_one ha
  have ha0 : 0 < a := one_pos.trans_le h
  rw [R.le_iff_of_value (R.value_div hrest ha ha0.ne') R.value_zero, ← R.round_zero]
  exact R.monotone_round (div_nonpos_of_nonpos_of_nonneg hb0 ha0.le)

namespace Double

theorem value_infinite_div {x y : Float} (hx : value x = some ⊥) (hy : value y = some ⊤) :
    value (x / y) = none := by
  show valueOf (Float.Model.pack (Float.Model.UnpackedFloat.div
    Float.Model.Format.binary64 x.toModel.unpack y.toModel.unpack)).unpack = _
  rw [eq_of_valueOf_eq_bot hx, eq_of_valueOf_eq_top hy]
  rfl

/-- The odds against a candidate are not positive exactly when its probability is finite and at
least one. -/
theorem odds_le_zero_iff {log : Float → Float} (hlog : IsLogarithm log) {p : Float} :
    letI := Arithmetic.doublesWith log
    0 < p → ((1 - p) / p ≤ 0 ↔ 1 ≤ p ∧ p < Binary64.infinity false) := by
  intro h
  let _ := Arithmetic.doublesWith log
  let R := doubleRounding hlog
  have hinfinity : R.value (Binary64.infinity false) = some ⊤ := value_infinity
  rcases R.value_of_pos h with htop | ⟨a, -, ha⟩
  · have hnan := value_infinite_div (R.value_sub_top R.value_one htop) htop
    refine iff_of_false (fun hle => ?_) fun hlt => ?_
    · obtain ⟨x, -, hx, -⟩ := le_iff_value.1 hle
      cases hnan.symm.trans hx
    · exact lt_irrefl _ ((R.lt_iff_of_value htop hinfinity).1 hlt.2)
  · have hfinite : p < Binary64.infinity false :=
      (R.lt_iff_of_value ha hinfinity).2 (EReal.coe_lt_top a)
    rw [and_iff_left hfinite]
    constructor
    · intro hle
      rw [← R.not_lt_one_iff h]
      exact fun hlt => R.not_le_zero (R.odds_pos h hlt) hle
    · intro hone
      rw [R.le_iff_of_value R.value_one ha] at hone
      exact R.odds_le_zero ha (by exact_mod_cast hone)

namespace RoundsToDoubles

variable {K : Type u} [Arithmetic K] (R : RoundsToDoubles K) {x y : K} {bound : ℝ}

theorem IsWithin.sub (hx : R.IsWithin bound x) (hy : R.IsWithin bound y) (h : ¬ x < y) :
    R.IsWithin bound (x - y) := by
  obtain ⟨a, -, ha1, ha⟩ := hx
  obtain ⟨b, hb0, -, hb⟩ := hy
  obtain ⟨d, hd0, hda, hd⟩ := R.exists_value_sub ha hb hb0 h
  exact ⟨d, hd0, hda.trans ha1, hd⟩

open PrimalDual

theorem isWithin_dual {uncovered : List Item} {residuals : List (Candidate K)}
    {visits : List (Visit K)} {stuck : Option (Item × ℕ)}
    (h : Course uncovered residuals visits stuck)
    (hresiduals : ∀ c ∈ residuals, R.IsWithin bound c.2) :
    ∀ v ∈ visits, R.IsWithin bound v.dual := by
  -- a raise is the least residual cost at its item, so what it leaves of the others is in range
  induction h with
  | done => simp
  | stuck => simp
  | visit _ hfound _ ih =>
    obtain ⟨hmem, -, hdual⟩ := tightest_mem hfound
    refine List.forall_mem_cons.2 ⟨hdual ▸ hresiduals _ hmem, ih ?_⟩
    refine forall_lower (R.totalOn.mono fun x hx => ?_) (fun x y hx hy hle => hx.sub R hy hle)
      hresiduals hfound
    obtain ⟨a, -, -, ha⟩ := hx
    exact ⟨a, ha⟩

theorem isWithin_foldl : ∀ (visits : List (Visit K)), (∀ v ∈ visits, R.IsWithin 1075 v.dual) →
    ∀ total, R.IsWithin (2 ^ 70) total →
      R.IsWithin (2 ^ 70) (visits.foldl (fun total v => total + v.dual) total)
  | [], _, _, htotal => htotal
  | v :: visits, h, _, htotal => by
    obtain ⟨hv, hvisits⟩ := List.forall_mem_cons.1 h
    exact isWithin_foldl visits hvisits _ (htotal.add R hv)

/-- The reported cost of a run is finite. -/
theorem isWithin_runCost {σ : Type} (source : RandomSource σ) {pool : Pool K} {t : Transaction}
    (hopen : ∀ c ∈ (pool.within t).candidates, 0 < c.2 ∧ c.2 < 1) (state : σ) :
    ∃ x, (run source pool t state).cost (pool.within t).candidates = .ok x ∧
      R.IsWithin (2 ^ 70) x := by
  have hresiduals : ∀ c ∈ initialResiduals (pool.within t).candidates, R.IsWithin 1075 c.2 := by
    intro c hc
    obtain ⟨d, hd, rfl⟩ := List.mem_map.1 hc
    exact R.isWithin_selectionCost (hopen d hd).1 (hopen d hd).2
  have hdual := R.isWithin_dual (run_course source pool t state) hresiduals
  refine exists_foldlM_ok _ (fun c hc total htotal => ?_) _
    (R.isWithin_foldl _ hdual 0 ⟨0, le_rfl, by positivity, R.value_zero⟩)
  split_ifs
  · exact ⟨total, rfl, htotal⟩
  · obtain ⟨x, hx, hwithin⟩ := R.isWithin_costOff (hopen c hc).1 (hopen c hc).2
    rw [hx]
    exact ⟨_, rfl, htotal.add R hwithin⟩

end RoundsToDoubles

end Double

/-- What is reported is a finite number that is not negative. -/
def ReportsNumber (reported : Except Fault (Cost Float)) : Prop :=
  ∃ x, reported = .ok (.value x) ∧ 0 ≤ x ∧ x < Binary64.infinity false

theorem reportsNumber_map {log : Float → Float} (hlog : Double.IsLogarithm log)
    {computed : Except Fault Float} :
    letI := Arithmetic.doublesWith log
    (∃ x, computed = .ok x ∧ (Double.doubleRounding hlog).IsWithin (2 ^ 70) x) →
      ReportsNumber (computed.map .value) := by
  let _ := Arithmetic.doublesWith log
  rintro ⟨x, rfl, a, ha0, -, ha⟩
  have hzero : Double.value 0 = some 0 := (Double.value_ofNat 0).trans (by
    rw [Nat.cast_zero, roundDouble_zero])
  exact ⟨x, rfl, Double.le_iff_value.2 ⟨0, a, hzero, ha, by exact_mod_cast ha0⟩,
    Double.lt_iff_value.2 ⟨a, ⊤, ha, Double.value_infinity, EReal.coe_lt_top a⟩⟩

/-- Greedy and primal-dual inference fail exactly when they leave off a candidate of probability one
or more, and a covering program cannot be built exactly when the probability of a candidate is
finite and at least one.  All of these are failures of a logarithm, and a candidate can always be
switched on.  So nothing fails on a pool of probabilities but the solver: both approximations report
a finite number that is not negative, and exact inference fails only when its solver does or answers
with a value that has no nearest integer. -/
theorem infer_fails_iff {log : Float → Float} (hlog : Double.IsLogarithm log) (covering : Covering)
    (pool : Pool Float) (t : Transaction) :
    letI := Arithmetic.doublesWith log
    let filtered := (pool.within t).candidates
    (∀ c ∈ filtered, costOn c.2 = .ok (selectionCost c.2)) ∧
    (∀ fault, (Greedy.infer covering pool t).cost = .error fault ↔
      fault = .logOfNonpositive ∧ ∃ c ∈ filtered, 1 ≤ c.2 ∧ c.1 ∉ Greedy.selection pool t) ∧
    (∀ {σ : Type} (source : RandomSource σ) (state : σ) (fault : Fault),
      (PrimalDual.infer source covering pool t state).1.cost = .error fault ↔
        fault = .logOfNonpositive ∧
          ∃ c ∈ filtered, 1 ≤ c.2 ∧ c.1 ∉ (PrimalDual.run source pool t state).selection) ∧
    (∀ fault, BinaryProgram.build (pool.within t) t = .error fault ↔
      fault = .logOfNonpositive ∧ ∃ c ∈ filtered, 1 ≤ c.2 ∧ c.2 < Binary64.infinity false) ∧
    (improbable? pool = none →
      ReportsNumber (Greedy.infer covering pool t).cost ∧
      (∀ {σ : Type} (source : RandomSource σ) (state : σ),
        ReportsNumber (PrimalDual.infer source covering pool t state).1.cost) ∧
      ∃ program, BinaryProgram.build (pool.within t) t = .ok program ∧
        (∀ {m : Type → Type} [Monad m] [LawfulMonad m] (solve : Solver m Float),
          Exact.infer solve covering pool t =
            Exact.conclude covering pool t <$> solve program) ∧
        ∀ answer : SolverAnswer Float,
          let reported := (Exact.conclude covering pool t answer).cost
          (∃ fault, reported = .error fault ∧ answer.FailsWith fault) ∨
            reported = .ok .infinite ∨ ReportsNumber reported) := by
  let _ := Arithmetic.doublesWith log
  let R := Double.doubleRounding hlog
  have hpos : ∀ c ∈ (pool.within t).candidates, 0 < c.2 := Pool.pos_of_mem_within
  refine ⟨fun c hc => R.costOn_eq (hpos c hc), fun fault => ?_, fun source state fault => ?_,
    fun fault => ?_, fun hprobable => ?_⟩
  · exact map_eq_error_iff.trans (Pool.cost_eq_error_iff R.toRounding hpos)
  · exact map_eq_error_iff.trans (PrimalDual.Run.cost_eq_error_iff R.toRounding hpos)
  · rw [build_eq_error_iff R.toRounding hpos]
    refine and_congr_right fun _ => exists_congr fun c => and_congr_right fun hc => ?_
    exact Double.odds_le_zero_iff hlog (hpos c hc)
  · have hopen : ∀ c ∈ (pool.within t).candidates, 0 < c.2 ∧ c.2 < 1 := fun c hc =>
      improbable?_eq_none_iff.1 hprobable c (Pool.mem_within.1 hc).1
    refine ⟨reportsNumber_map hlog (R.isWithin_cost hopen _),
      fun source state => reportsNumber_map hlog (R.isWithin_runCost source hopen state),
      logOddsProgram (pool.within t) t, R.build_eq hopen t, fun solve => ?_, fun answer => ?_⟩
    · rw [Exact.infer, Exact.answer, R.build_eq hopen t]
      exact (map_eq_pure_bind _ _).symm
    · refine (conclude_cost_cases covering answer).imp_right (Or.imp_right ?_)
      rintro ⟨selected, hcost⟩
      rw [hcost]
      exact reportsNumber_map hlog (R.isWithin_cost hopen selected)

/-- The empty itemset as a certain candidate. -/
def certainEmpty : Pool Float where
  candidates := [(∅, 1)]
  nodup := by decide

/-- Nothing is selected for a transaction without items, and the certain candidate is left off. -/
theorem infer_fails_certainEmpty :
    letI := Arithmetic.doublesWith Double.nearestLog
    (Greedy.infer ∅ certainEmpty []).cost = .error .logOfNonpositive ∧
      ReportsNumber (Greedy.infer ∅ evenPair [1, 2]).cost := by
  let _ := Arithmetic.doublesWith Double.nearestLog
  obtain ⟨-, hgreedy, -⟩ := infer_fails_iff Double.nearestLog_isLogarithm ∅ certainEmpty []
  obtain ⟨-, -, -, -, haccepted⟩ := infer_fails_iff Double.nearestLog_isLogarithm ∅ evenPair [1, 2]
  have hmem : (∅, 1) ∈ (certainEmpty.within []).candidates :=
    Pool.mem_within.2 ⟨List.mem_cons_self, by decide, by simp⟩
  refine ⟨(hgreedy _).2 ⟨rfl, _, hmem, by decide, ?_⟩, (haccepted (by decide)).1⟩
  have hnone : Greedy.selection certainEmpty [] = ∅ := by
    rw [Greedy.selection, Greedy.picks_eq, Greedy.picksFrom, if_pos (by decide),
      Greedy.selected_nil]
  rw [hnone]
  exact SortedSet.notMem_empty ∅

end NoisyCover
