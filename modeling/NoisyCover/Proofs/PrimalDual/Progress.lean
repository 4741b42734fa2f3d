import Mathlib
import NoisyCover.Inference
import NoisyCover.Proofs.Charges
import NoisyCover.Proofs.Covering
import NoisyCover.Proofs.PrimalDual.Course

/-!
# How a primal-dual run makes progress

A visit takes all items of the itemset it selects off the uncovered list, so no later visit is to
one of them (`Course.pairwise`).  After some visits a run goes on from the transaction without the
items selected so far and from the residual costs it has recorded (`visitFrom_resume`).  A random
source that records what it is asked for leads the same run, and is asked once a visit for an index
into the uncovered list (`visitFrom_recording`).

Residual costs are never negative nor infinite, so a visit finds a candidate as soon as one contains
the item.  A run therefore only gets stuck at an item that no candidate contains
(`Course.stuck_isolated`), and covers everything if there is none.
-/

namespace NoisyCover

/-- The random source with a record of the lengths it was asked to draw an index below. -/
def RandomSource.recording {σ : Type} (source : RandomSource σ) : RandomSource (σ × List ℕ) where
  index n state :=
    let drawn := source.index n state.1
    (drawn.1, drawn.2, state.2 ++ [n + 1])

namespace PrimalDual

variable {K : Type u}

/-- What is uncovered of some items after some visits, in order and with repeats. -/
def remaining (uncovered : List Item) (visits : List (Visit K)) : List Item :=
  uncovered.filter fun i => !decide (i ∈ unionOf (visits.map Visit.itemset))

/-- How many items are uncovered at each visit, and at the last one if a run gets stuck there. -/
def uncoveredCounts (uncovered : List Item) (visits : List (Visit K))
    (stuck : Option (Item × ℕ)) : List ℕ :=
  (List.range (visits.length + stuck.toList.length)).map fun k =>
    (remaining uncovered (visits.take k)).length

theorem mem_unionOf_map {visits : List (Visit K)} {i : Item} :
    i ∈ unionOf (visits.map Visit.itemset) ↔ ∃ v ∈ visits, i ∈ v.itemset := by
  simp [mem_unionOf]

theorem mem_remaining {uncovered : List Item} {visits : List (Visit K)} {i : Item} :
    i ∈ remaining uncovered visits ↔ i ∈ uncovered ∧ ∀ v ∈ visits, i ∉ v.itemset := by
  simp [remaining]

theorem remaining_nil (uncovered : List Item) :
    remaining uncovered ([] : List (Visit K)) = uncovered := by
  simp [remaining, unionOf]

theorem remaining_cons (uncovered : List Item) (v : Visit K) (visits : List (Visit K)) :
    remaining uncovered (v :: visits) = remaining (dropCovered v.itemset uncovered) visits := by
  rw [remaining, remaining, dropCovered, List.filter_filter]
  refine List.filter_congr fun i _ => ?_
  rw [Bool.eq_iff_iff, Bool.and_eq_true]
  simp only [Bool.not_eq_true', decide_eq_false_iff_not, mem_unionOf_map, List.exists_mem_cons_iff,
    not_or]
  exact and_comm

theorem uncoveredCounts_cons (uncovered : List Item) (v : Visit K) (visits : List (Visit K))
    (stuck : Option (Item × ℕ)) :
    uncoveredCounts uncovered (v :: visits) stuck =
      uncovered.length :: uncoveredCounts (dropCovered v.itemset uncovered) visits stuck := by
  rw [uncoveredCounts, uncoveredCounts, List.length_cons, Nat.add_right_comm,
    List.range_succ_eq_map, List.map_cons, List.map_map]
  congr 1
  · rw [List.take_zero, remaining_nil]
  · refine List.map_congr_left fun k _ => ?_
    rw [Function.comp_apply, List.take_succ_cons, remaining_cons]

section Courses

variable [Arithmetic K] {uncovered : List Item} {residuals : List (Candidate K)} {item : Item}
  {found : Candidate K × K} {visits : List (Visit K)} {stuck : Option (Item × ℕ)}

/-- No visit is to an item of an itemset selected before. -/
theorem Course.pairwise (h : Course uncovered residuals visits stuck) :
    visits.Pairwise fun v w => w.item ∉ v.itemset := by
  induction h with
  | done => exact .nil
  | stuck => exact .nil
  | visit _ _ hrest ih =>
    exact List.pairwise_cons.2 ⟨fun w hw => (mem_dropCovered.1 (hrest.item_mem w hw)).2, ih⟩

theorem Course.nodup_item (h : Course uncovered residuals visits stuck) :
    (visits.map Visit.item).Nodup := by
  rw [List.Nodup, List.pairwise_map]
  refine h.pairwise.imp_of_mem fun {v w} hv _ hw heq => hw ?_
  rw [← heq]
  exact h.item_mem_itemset v hv

theorem Course.nodup_itemset (h : Course uncovered residuals visits stuck) :
    (visits.map Visit.itemset).Nodup := by
  rw [List.Nodup, List.pairwise_map]
  refine h.pairwise.imp_of_mem fun {v w} _ hw hnotin heq => hnotin ?_
  rw [heq]
  exact h.item_mem_itemset w hw

/-- A run ends when nothing is uncovered, or stuck at an uncovered item. -/
theorem Course.stuck_mem (h : Course uncovered residuals visits stuck) :
    (stuck = none → remaining uncovered visits = []) ∧
      ∀ s, stuck = some s → s.1 ∈ remaining uncovered visits ∧
        s.2 = (remaining uncovered visits).length := by
  induction h with
  | done => exact ⟨fun _ => rfl, by simp⟩
  | stuck hitem _ =>
    refine ⟨by simp, fun s hs => ?_⟩
    obtain rfl := Option.some.inj hs
    rw [remaining_nil]
    exact ⟨hitem, rfl⟩
  | visit _ _ _ ih => rwa [remaining_cons]

/-- Every visit takes its raise off the residual costs. -/
theorem Leads.eq_foldl {left : List (Candidate K)} (h : Leads uncovered residuals visits left) :
    left = visits.foldl (fun left v => lower v.item v.dual left) residuals := by
  induction h with
  | start => rfl
  | visit _ _ _ ih => exact ih

theorem isCost_lower (R : Rounding K) (hcost : ∀ c ∈ residuals, R.IsCost c.2)
    (h : tightest item residuals = some found) :
    ∀ c ∈ lower item found.2 residuals, R.IsCost c.2 := by
  refine forall_lower (R.totalOn.mono fun x hx => ?_) (fun x y hx hy hle => hx.sub R hy hle) hcost h
  obtain ⟨a, -, ha⟩ := hx
  exact ⟨a, ha⟩

/-- A run gets stuck only at an item that no candidate contains. -/
theorem Course.stuck_isolated (R : Rounding K) (h : Course uncovered residuals visits stuck)
    (hcost : ∀ c ∈ residuals, R.IsCost c.2) :
    ∀ s, stuck = some s → ∀ x ∈ residuals.map Prod.fst, s.1 ∉ x := by
  induction h with
  | done => simp
  | stuck _ hnone =>
    intro s hs x hx hin
    obtain rfl := Option.some.inj hs
    obtain ⟨c, hc, rfl⟩ := List.mem_map.1 hx
    have hbounded := R.bounded_of_isFinite (Rounding.IsCost.isFinite R (hcost c hc))
    have hunbounded := firstLeast_eq_none_iff.1 hnone c hc c.2 (if_pos hin)
    exact Bool.false_ne_true (hunbounded.symm.trans hbounded)
  | visit _ hfound _ ih =>
    rw [← map_fst_lower]
    exact ih (isCost_lower R hcost hfound)

end Courses

section Runs

variable [Arithmetic K] {σ : Type} (source : RandomSource σ)

variable {first : Item} {others : List Item} {residuals : List (Candidate K)} {state : σ}

theorem visitFrom_of_tightest_eq_none
    (h : tightest (first :: others)[(source.index others.length state).1] residuals = none) :
    visitFrom source (first :: others) residuals state =
      ⟨[], [residuals],
        some ((first :: others)[(source.index others.length state).1], others.length + 1),
        (source.index others.length state).2⟩ := by
  rw [visitFrom]
  split
  · rfl
  · rename_i hsome
    rw [h] at hsome
    cases hsome

theorem visitFrom_of_tightest_eq_some {found : Candidate K × K}
    (h : tightest (first :: others)[(source.index others.length state).1] residuals = some found) :
    visitFrom source (first :: others) residuals state =
      (visitFrom source (dropCovered found.1.1 (first :: others))
        (lower (first :: others)[(source.index others.length state).1] found.2 residuals)
        (source.index others.length state).2).after
          ⟨(first :: others)[(source.index others.length state).1], found.1.1, found.2⟩
          residuals := by
  rw [visitFrom]
  split
  · rename_i hnone
    rw [h] at hnone
    cases hnone
  · rename_i found' hsome
    rw [h] at hsome
    obtain rfl := Option.some.inj hsome
    rfl

theorem length_residuals (uncovered : List Item) (residuals : List (Candidate K)) (state : σ) :
    (visitFrom source uncovered residuals state).residuals.length =
      (visitFrom source uncovered residuals state).visits.length + 1 := by
  fun_induction visitFrom source uncovered residuals state with
  | case1 => rfl
  | case2 => rfl
  | case3 first others residuals state drawn item found hsome ih => exact congrArg Nat.succ ih

theorem residuals_zero (uncovered : List Item) (residuals : List (Candidate K)) (state : σ) :
    (visitFrom source uncovered residuals state).residuals[0]? = some residuals := by
  fun_cases visitFrom source uncovered residuals state <;> rfl

/-- A run that goes on after residual costs has made a visit, and goes on from what the visit leaves
of them and of the uncovered items. -/
theorem exists_of_residuals_succ {uncovered : List Item} {residuals left : List (Candidate K)}
    {state : σ} {k : ℕ}
    (h : (visitFrom source uncovered residuals state).residuals[k + 1]? = some left) :
    ∃ item found state', item ∈ uncovered ∧ tightest item residuals = some found ∧
      visitFrom source uncovered residuals state =
        (visitFrom source (dropCovered found.1.1 uncovered) (lower item found.2 residuals)
          state').after ⟨item, found.1.1, found.2⟩ residuals := by
  rcases uncovered with _ | ⟨first, others⟩
  · rw [visitFrom] at h
    cases h
  · rcases htight : tightest (first :: others)[(source.index others.length state).1] residuals
      with _ | found
    · rw [visitFrom_of_tightest_eq_none source htight] at h
      cases h
    · exact ⟨_, found, _, List.getElem_mem _, htight, visitFrom_of_tightest_eq_some source htight⟩

/-- After some of its visits a run goes on from the residual costs and from what is uncovered
then. -/
theorem visitFrom_resume {left : List (Candidate K)} : ∀ (k : ℕ) {uncovered : List Item}
    {residuals : List (Candidate K)} {state : σ},
    (visitFrom source uncovered residuals state).residuals[k]? = some left → ∃ state',
      visitFrom source
          (remaining uncovered ((visitFrom source uncovered residuals state).visits.take k)) left
          state' =
        { visitFrom source uncovered residuals state with
          visits := (visitFrom source uncovered residuals state).visits.drop k
          residuals := (visitFrom source uncovered residuals state).residuals.drop k }
  | 0, uncovered, residuals, state, h => by
    obtain rfl := Option.some.inj ((residuals_zero source uncovered residuals state).symm.trans h)
    rw [List.take_zero, remaining_nil]
    exact ⟨state, rfl⟩
  | k + 1, uncovered, residuals, state, h => by
    obtain ⟨item, found, next, -, -, hrun⟩ := exists_of_residuals_succ source h
    rw [hrun] at h ⊢
    obtain ⟨state', hrest⟩ := visitFrom_resume k h
    refine ⟨state', ?_⟩
    rw [Run.after, List.take_succ_cons, remaining_cons, hrest]
    rfl

/-- Some visits lead to the residual costs that a run goes on with after them. -/
theorem residuals_leads {left : List (Candidate K)} : ∀ (k : ℕ) {uncovered : List Item}
    {residuals : List (Candidate K)} {state : σ},
    (visitFrom source uncovered residuals state).residuals[k]? = some left →
      Leads uncovered residuals ((visitFrom source uncovered residuals state).visits.take k) left
  | 0, uncovered, residuals, state, h => by
    obtain rfl := Option.some.inj ((residuals_zero source uncovered residuals state).symm.trans h)
    exact .start
  | k + 1, uncovered, residuals, state, h => by
    obtain ⟨item, found, next, hitem, hfound, hrun⟩ := exists_of_residuals_succ source h
    rw [hrun] at h ⊢
    exact .visit hitem hfound (residuals_leads k h)

theorem resume_of_visits_eq {uncovered : List Item} {residuals : List (Candidate K)} {state : σ}
    {before after : List (Visit K)}
    (h : (visitFrom source uncovered residuals state).visits = before ++ after) : ∃ state',
      visitFrom source (remaining uncovered before)
          (before.foldl (fun left v => lower v.item v.dual left) residuals) state' =
        { visitFrom source uncovered residuals state with
          visits := after
          residuals :=
            (visitFrom source uncovered residuals state).residuals.drop before.length } := by
  have hlength : before.length <
      (visitFrom source uncovered residuals state).residuals.length := by
    rw [length_residuals, h, List.length_append]
    omega
  have hleft := List.getElem?_eq_getElem hlength
  obtain ⟨state', hrest⟩ := visitFrom_resume source _ hleft
  rw [(residuals_leads source _ hleft).eq_foldl, h, List.take_left, List.drop_left] at hrest
  exact ⟨state', hrest⟩

/-- A source that records leads the same run, and is asked once a visit, and once more if the run
gets stuck, for an index into what is uncovered. -/
theorem visitFrom_recording (uncovered : List Item) (residuals : List (Candidate K)) (state : σ)
    (asked : List ℕ) :
    let r := visitFrom source uncovered residuals state
    visitFrom source.recording uncovered residuals (state, asked) =
      ⟨r.visits, r.residuals, r.stuck, r.source,
        asked ++ uncoveredCounts uncovered r.visits r.stuck⟩ := by
  fun_induction visitFrom source uncovered residuals state generalizing asked with
  | case1 => simp [visitFrom, uncoveredCounts]
  | case2 first others residuals state drawn item hnone =>
    rw [visitFrom_of_tightest_eq_none source.recording hnone]
    simp only [uncoveredCounts, Option.toList_some, List.length_singleton, List.length_nil,
      zero_add, List.range_one, List.map_singleton, List.take_nil, remaining_nil]
    rfl
  | case3 first others residuals state drawn item found hsome ih =>
    rw [visitFrom_of_tightest_eq_some source.recording hsome]
    show Run.after ⟨item, found.1.1, found.2⟩ residuals (visitFrom source.recording
      (dropCovered found.1.1 (first :: others)) (lower item found.2 residuals)
      (drawn.2, asked ++ [others.length + 1])) = _
    rw [ih]
    simp only [Run.after, uncoveredCounts_cons, List.append_assoc, List.singleton_append,
      List.length_cons]

theorem uncoveredCounts_pos {uncovered : List Item} {residuals : List (Candidate K)}
    {visits : List (Visit K)} {stuck : Option (Item × ℕ)}
    (h : Course uncovered residuals visits stuck) :
    ∀ n ∈ uncoveredCounts uncovered visits stuck, 0 < n := by
  induction h with
  | done => simp [uncoveredCounts]
  | stuck hitem _ => simpa [uncoveredCounts, remaining_nil] using List.length_pos_of_mem hitem
  | visit hitem _ _ ih =>
    rw [uncoveredCounts_cons]
    exact List.forall_mem_cons.2 ⟨List.length_pos_of_mem hitem, ih⟩

end Runs

section Completeness

variable [Arithmetic K] {σ : Type} {pool : Pool K} {t : Transaction} {r : Run K σ}
  (h : Course t (initialResiduals (pool.within t).candidates) r.visits r.stuck)

include h

theorem length_visits_le : r.visits.length ≤ t.items.size := by
  rw [← List.length_map Visit.item]
  refine (h.nodup_item.subperm fun i hi => ?_).length_le
  obtain ⟨v, hv, rfl⟩ := List.mem_map.1 hi
  exact Transaction.mem_items.2 (h.item_mem v hv)

theorem nodup_visited : (r.visits.map Visit.item ++ r.stuck.toList.map Prod.fst).Nodup := by
  refine List.nodup_append.2 ⟨h.nodup_item, ?_, fun i hi j hj heq => ?_⟩
  · cases r.stuck <;> simp
  · obtain ⟨v, hv, rfl⟩ := List.mem_map.1 hi
    obtain ⟨s, hs, rfl⟩ := List.mem_map.1 hj
    have hremaining := (h.stuck_mem.2 s (Option.mem_toList.1 hs)).1
    exact (mem_remaining.1 hremaining).2 v hv (heq ▸ h.item_mem_itemset v hv)

theorem stuck_mem_isolatedItems (R : Rounding K)
    (hp : ∀ c ∈ (pool.within t).candidates, c.2 ≤ 1) {s : Item × ℕ} (hs : r.stuck = some s) :
    s.1 ∈ isolatedItems (pool.within t) t := by
  have hcost : ∀ c ∈ initialResiduals (pool.within t).candidates, R.IsCost c.2 := by
    intro c hc
    obtain ⟨d, hd, rfl⟩ := List.mem_map.1 hc
    exact R.isCost_selectionCost (Pool.pos_of_mem_within d hd) (hp d hd)
  have hout := h.stuck_isolated R hcost s hs
  rw [map_fst_initialResiduals] at hout
  rw [mem_isolatedItems, mem_unionOf]
  refine ⟨(mem_remaining.1 (h.stuck_mem.2 s hs).1).1, ?_⟩
  rintro ⟨x, hx, hin⟩
  exact hout x hx hin

theorem isComplete_selection_iff_remaining :
    isComplete r.selection pool t = true ↔ remaining t r.visits = [] := by
  have hdrawn : ∀ s ∈ r.selection, s ∈ (pool.within t).itemsets :=
    fun s hs => mem_itemsets_of_mem_selection h hs
  rw [isComplete_iff, and_iff_right hdrawn, List.eq_nil_iff_forall_not_mem]
  simp only [mem_remaining, not_and, not_forall, not_not, mem_selection, List.mem_map,
    exists_exists_and_eq_and, exists_prop]

/-- A run selects a complete covering exactly when every item is in a candidate. -/
theorem isComplete_selection_iff (R : Rounding K)
    (hp : ∀ c ∈ (pool.within t).candidates, c.2 ≤ 1) :
    isComplete r.selection pool t = true ↔ isolatedItems (pool.within t) t = [] := by
  refine ⟨fun hcomplete => (exists_isComplete_iff pool).1 ⟨_, hcomplete⟩, fun hnil => ?_⟩
  rw [isComplete_selection_iff_remaining h]
  refine h.stuck_mem.1 (Option.eq_none_iff_forall_ne_some.2 fun s hs => ?_)
  have hisolated := stuck_mem_isolatedItems h R hp hs
  rw [hnil] at hisolated
  cases hisolated

end Completeness

/-- Whatever items are drawn, a run makes at most one visit to an item and selects an itemset at
most once; after some visits it goes on from the transaction without the items selected so far; it
asks for an index once a visit, and once more if it gets stuck, each time into what is uncovered; it
gets stuck only at an isolated item, and what it selects is complete exactly when there is none. -/
theorem infer_progress [Arithmetic K] (R : Rounding K) {σ : Type} (source : RandomSource σ)
    (covering : Covering) (pool : Pool K) (t : Transaction) (state : σ)
    (hp : ∀ c ∈ (pool.within t).candidates, c.2 < 1) :
    let r := run source pool t state
    let asked := uncoveredCounts t r.visits r.stuck
    r.visits.length ≤ t.items.size ∧
      (r.visits.map Visit.itemset).Nodup ∧
      (r.visits.map Visit.item ++ r.stuck.toList.map Prod.fst).Nodup ∧
      (∀ before after, r.visits = before ++ after → ∃ state',
        visitFrom source (t.filter fun i => !decide (i ∈ unionOf (before.map Visit.itemset)))
            (before.foldl (fun left v => lower v.item v.dual left)
              (initialResiduals (pool.within t).candidates)) state' =
          { r with visits := after, residuals := r.residuals.drop before.length }) ∧
      run source.recording pool t (state, []) =
        ⟨r.visits, r.residuals, r.stuck, r.source, asked⟩ ∧
      asked.length = r.visits.length + (if r.stuck = none then 0 else 1) ∧
      (∀ n ∈ asked, 0 < n) ∧
      (infer source covering pool t state).1.covering = covering ∪ r.selection ∧
      (isComplete (infer source ∅ pool t state).1.covering pool t = true ↔
        isolatedItems (pool.within t) t = []) ∧
      ∀ i n, r.stuck = some (i, n) → i ∈ isolatedItems (pool.within t) t ∧
        n = (t.filter fun i => !decide (i ∈ unionOf (r.visits.map Visit.itemset))).length := by
  intro r asked
  have h : Course t _ r.visits r.stuck := run_course source pool t state
  have hle : ∀ c ∈ (pool.within t).candidates, c.2 ≤ 1 := fun c hc => R.le_of_lt (hp c hc)
  have hcovering : ∀ covering,
      (infer source covering pool t state).1.covering = covering ∪ r.selection := by
    intro covering
    obtain ⟨total, htotal⟩ : ∃ total, r.cost (pool.within t).candidates = .ok total :=
      (r.exists_cost_iff R Pool.pos_of_mem_within).2 fun c hc _ => hp c hc
    show (conclude covering _ r).covering = _
    simp only [conclude, htotal]
  refine ⟨length_visits_le h, h.nodup_itemset, nodup_visited h,
    fun before after hsplit => resume_of_visits_eq source hsplit,
    visitFrom_recording source t _ state [], ?_, uncoveredCounts_pos h, hcovering covering, ?_,
    fun i n hs => ⟨stuck_mem_isolatedItems h R hle hs, (h.stuck_mem.2 (i, n) hs).2⟩⟩
  · rw [show asked.length = _ from List.length_map _, List.length_range]
    cases r.stuck <;> simp
  · rw [hcovering, SortedSet.empty_union]
    exact isComplete_selection_iff h R hle

section Overlapping

theorem onCost_half_lt_onCost : onCost (1 / 2) < onCost (3 / 10) :=
  neg_lt_neg (Real.log_lt_log (by norm_num) (by norm_num))

theorem onCost_lt_two_mul_onCost_half : onCost (3 / 10) < 2 * onCost (1 / 2) := by
  have hlog : Real.log ((1 / 2) ^ 2) = 2 * Real.log (1 / 2) := by rw [Real.log_pow, Nat.cast_ofNat]
  rw [onCost, onCost, mul_neg, ← hlog]
  exact neg_lt_neg (Real.log_lt_log (by norm_num) (by norm_num))

theorem visitFrom_first {K : Type u} [Arithmetic K] {first : Item} {others : List Item}
    {residuals : List (Candidate K)} {found : Candidate K × K}
    (h : tightest first residuals = some found) :
    visitFrom RandomSource.first (first :: others) residuals () =
      (visitFrom RandomSource.first (dropCovered found.1.1 (first :: others))
        (lower first found.2 residuals) ()).after ⟨first, found.1.1, found.2⟩ residuals :=
  visitFrom_of_tightest_eq_some RandomSource.first h

/-- Residual costs of the four items and of their two halves. -/
def residualsOf (whole left right : ℝ) : List (Candidate ℝ) :=
  [(SortedSet.ofList [1, 2, 3, 4], whole), (SortedSet.ofList [1, 2], left),
    (SortedSet.ofList [3, 4], right)]

theorem lower_residualsOf (whole left right dual : ℝ) :
    lower 1 dual (residualsOf whole left right) =
        residualsOf (whole - dual) (left - dual) right ∧
      lower 3 dual (residualsOf whole left right) =
        residualsOf (whole - dual) left (right - dual) :=
  ⟨rfl, rfl⟩

/-- The first item makes its half tight, and the third the whole. -/
theorem run_overlapping :
    let half := onCost (1 / 2)
    let whole := onCost (3 / 10)
    run RandomSource.first overlapping [1, 2, 3, 4] () =
      ⟨[⟨1, SortedSet.ofList [1, 2], half⟩, ⟨3, SortedSet.ofList [1, 2, 3, 4], whole - half⟩],
        [residualsOf whole half half, residualsOf (whole - half) 0 half,
          residualsOf 0 0 (half - (whole - half))], none, ()⟩ := by
  intro half whole
  have hhalf : half < whole := onCost_half_lt_onCost
  have hwhole : whole < 2 * half := onCost_lt_two_mul_onCost_half
  have hfirst : tightest 1 (residualsOf whole half half) =
      some ((SortedSet.ofList [1, 2], half), half) := by
    refine tightest_eq_some (by simp [residualsOf]) (by decide) ?_
    simp only [residualsOf, List.forall_mem_cons]
    exact ⟨fun _ _ => hhalf, fun hne => absurd rfl hne, fun _ hin => absurd hin (by decide),
      by simp⟩
  have hsecond : tightest 3 (residualsOf (whole - half) 0 half) =
      some ((SortedSet.ofList [1, 2, 3, 4], whole - half), whole - half) := by
    refine tightest_eq_some (by simp [residualsOf]) (by decide) ?_
    simp only [residualsOf, List.forall_mem_cons]
    exact ⟨fun hne => absurd rfl hne, fun _ hin => absurd hin (by decide),
      fun _ _ => by linarith, by simp⟩
  have hleft : dropCovered (SortedSet.ofList [1, 2]) [1, 2, 3, 4] = [3, 4] := by decide
  have hdone : dropCovered (SortedSet.ofList [1, 2, 3, 4]) [3, 4] = [] := by decide
  have hstart : initialResiduals overlapping.candidates = residualsOf whole half half := rfl
  rw [run, overlapping_within, hstart, visitFrom_first hfirst, (lower_residualsOf _ _ _ _).1,
    sub_self, hleft, visitFrom_first hsecond, (lower_residualsOf _ _ _ _).2, sub_self, hdone,
    visitFrom]
  rfl

/-- The draws are from four uncovered items and then from two. -/
theorem infer_progress_overlapping :
    (run RandomSource.first.recording overlapping [1, 2, 3, 4] ((), [])).source = ((), [4, 2]) ∧
      isComplete (infer RandomSource.first ∅ overlapping [1, 2, 3, 4] ()).1.covering overlapping
        [1, 2, 3, 4] = true := by
  obtain ⟨-, -, -, -, hrecording, -, -, -, hcomplete, -⟩ := infer_progress exactRounding
    RandomSource.first ∅ overlapping [1, 2, 3, 4] () overlapping_lt_one
  refine ⟨?_, hcomplete.2 ?_⟩
  · rw [hrecording, run_overlapping]
    rfl
  · rw [overlapping_within]
    decide

end Overlapping

end PrimalDual

end NoisyCover
