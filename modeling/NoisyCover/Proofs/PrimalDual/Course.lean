import Mathlib
import NoisyCover.PrimalDual
import NoisyCover.Proofs.Scan

/-!
# The courses of a primal-dual run

`Course` lists the visits that some draws lead to, so what holds of every course holds of every run,
whatever source the items are drawn from (`visitFrom_course`).  `Leads` lists the visits of a course
up to some point, together with the residual costs there.

Residual costs stay non-negative, because a raise is the least of the residual costs that it is
taken off.  So the raises of the items in a candidate add up to at most its residual cost
(`Course.dualIn_le`).  Once a candidate is selected none of its items is visited again, and for a
selected candidate they add up to exactly that (`Course.dualIn_eq`).
-/

namespace NoisyCover.PrimalDual

section Courses

variable {K : Type u} [Arithmetic K]

/-- The visits that can be made from some uncovered items and residual costs on, and where they get
stuck. -/
inductive Course :
    List Item → List (Candidate K) → List (Visit K) → Option (Item × ℕ) → Prop
  | done {residuals : List (Candidate K)} : Course [] residuals [] none
  | stuck {uncovered : List Item} {residuals : List (Candidate K)} {item : Item} :
      item ∈ uncovered → tightest item residuals = none →
      Course uncovered residuals [] (some (item, uncovered.length))
  | visit {uncovered : List Item} {residuals : List (Candidate K)} {item : Item}
      {found : Candidate K × K} {visits : List (Visit K)} {stuck : Option (Item × ℕ)} :
      item ∈ uncovered → tightest item residuals = some found →
      Course (dropCovered found.1.1 uncovered) (lower item found.2 residuals) visits stuck →
      Course uncovered residuals (⟨item, found.1.1, found.2⟩ :: visits) stuck

/-- The first visits of a course, with the residual costs they leave. -/
inductive Leads :
    List Item → List (Candidate K) → List (Visit K) → List (Candidate K) → Prop
  | start {uncovered : List Item} {residuals : List (Candidate K)} :
      Leads uncovered residuals [] residuals
  | visit {uncovered : List Item} {residuals left : List (Candidate K)} {item : Item}
      {found : Candidate K × K} {visits : List (Visit K)} :
      item ∈ uncovered → tightest item residuals = some found →
      Leads (dropCovered found.1.1 uncovered) (lower item found.2 residuals) visits left →
      Leads uncovered residuals (⟨item, found.1.1, found.2⟩ :: visits) left

/-- Every random source leads to a course. -/
theorem visitFrom_course {σ : Type} (source : RandomSource σ) (uncovered : List Item)
    (residuals : List (Candidate K)) (state : σ) :
    Course uncovered residuals (visitFrom source uncovered residuals state).visits
      (visitFrom source uncovered residuals state).stuck := by
  fun_induction visitFrom source uncovered residuals state with
  | case1 residuals state => exact .done
  | case2 first others residuals state drawn item hnone =>
    exact .stuck (List.getElem_mem _) hnone
  | case3 first others residuals state drawn item found hsome ih =>
    exact .visit (List.getElem_mem _) hsome ih

theorem run_course {σ : Type} (source : RandomSource σ) (pool : Pool K) (t : Transaction)
    (state : σ) :
    Course t (initialResiduals (pool.within t).candidates) (run source pool t state).visits
      (run source pool t state).stuck :=
  visitFrom_course source t _ state

variable {uncovered : List Item} {residuals : List (Candidate K)} {item : Item}
  {found : Candidate K × K} {visits : List (Visit K)} {stuck : Option (Item × ℕ)}

/-- What becomes tight contains the visited item, and the raise is its residual cost. -/
theorem tightest_mem (h : tightest item residuals = some found) :
    found.1 ∈ residuals ∧ item ∈ found.1.1 ∧ found.1.2 = found.2 := by
  obtain ⟨hmem, hkey⟩ := firstLeast_mem h
  unfold residualFor at hkey
  split_ifs at hkey with hin
  exact ⟨hmem, hin, Option.some.inj hkey⟩

theorem mem_dropCovered {s : Itemset} {i : Item} :
    i ∈ dropCovered s uncovered ↔ i ∈ uncovered ∧ i ∉ s := by
  rw [dropCovered, List.mem_filter, Bool.not_eq_true', decide_eq_false_iff_not]

theorem map_fst_lower (item : Item) (dual : K) (residuals : List (Candidate K)) :
    (lower item dual residuals).map Prod.fst = residuals.map Prod.fst := by
  rw [lower, List.map_map]
  refine List.map_congr_left fun c _ => ?_
  rw [Function.comp_apply]
  split_ifs <;> rfl

theorem mem_lower {c : Candidate K} {dual : K} (hc : c ∈ residuals) :
    (c.1, if item ∈ c.1 then c.2 - dual else c.2) ∈ lower item dual residuals := by
  refine List.mem_map.2 ⟨c, hc, ?_⟩
  split_ifs <;> rfl

/-- A raise keeps what holds of all residual costs, if it is kept by taking one of them off another
that is not below it. -/
theorem forall_lower {P : K → Prop} (hP : TotalOn P)
    (hsub : ∀ x y, P x → P y → ¬ x < y → P (x - y)) (hresiduals : ∀ c ∈ residuals, P c.2)
    (h : tightest item residuals = some found) : ∀ c ∈ lower item found.2 residuals, P c.2 := by
  have hfound : P found.2 := (tightest_mem h).2.2 ▸ hresiduals _ (tightest_mem h).1
  have hkeys : ∀ c ∈ residuals, ∀ k, residualFor item c = some k → P k := by
    intro c hc k hk
    unfold residualFor at hk
    split_ifs at hk
    obtain rfl := Option.some.inj hk
    exact hresiduals c hc
  intro c hc
  obtain ⟨d, hd, rfl⟩ := List.mem_map.1 hc
  split_ifs with hin
  · exact hsub _ _ (hresiduals d hd) hfound
      (not_lt_firstLeast hP hkeys h d hd d.2 (if_pos hin))
  · exact hresiduals d hd

theorem Course.item_mem (h : Course uncovered residuals visits stuck) :
    ∀ v ∈ visits, v.item ∈ uncovered := by
  induction h with
  | done => simp
  | stuck => simp
  | visit hitem _ _ ih =>
    exact List.forall_mem_cons.2 ⟨hitem, fun v hv => (mem_dropCovered.1 (ih v hv)).1⟩

theorem Course.item_mem_itemset (h : Course uncovered residuals visits stuck) :
    ∀ v ∈ visits, v.item ∈ v.itemset := by
  induction h with
  | done => simp
  | stuck => simp
  | visit _ hfound _ ih => exact List.forall_mem_cons.2 ⟨(tightest_mem hfound).2.1, ih⟩

theorem Course.itemset_mem (h : Course uncovered residuals visits stuck) :
    ∀ v ∈ visits, v.itemset ∈ residuals.map Prod.fst := by
  induction h with
  | done => simp
  | stuck => simp
  | visit _ hfound _ ih =>
    rw [map_fst_lower] at ih
    exact List.forall_mem_cons.2 ⟨List.mem_map_of_mem (tightest_mem hfound).1, ih⟩

omit [Arithmetic K] in
theorem mem_selection {σ : Type} {r : Run K σ} {s : Itemset} :
    s ∈ r.selection ↔ s ∈ r.visits.map Visit.itemset :=
  SortedSet.mem_ofList

theorem map_fst_initialResiduals (pool : Pool K) :
    (initialResiduals pool.candidates).map Prod.fst = pool.itemsets := by
  rw [initialResiduals, List.map_map]
  rfl

/-- Every selected itemset is one of the candidates. -/
theorem mem_itemsets_of_mem_selection {σ : Type} {pool : Pool K} {t : Transaction} {r : Run K σ}
    (h : Course t (initialResiduals pool.candidates) r.visits r.stuck) {s : Itemset}
    (hs : s ∈ r.selection) : s ∈ pool.itemsets := by
  obtain ⟨v, hv, rfl⟩ := List.mem_map.1 (mem_selection.1 hs)
  rw [← map_fst_initialResiduals]
  exact h.itemset_mem v hv

end Courses

section Duals

/-- The sum of the raises of the visited items that an itemset contains. -/
noncomputable def dualIn (visits : List (Visit ℝ)) (s : Itemset) : ℝ :=
  ((visits.filter fun v => decide (v.item ∈ s)).map Visit.dual).sum

theorem dualIn_cons (v : Visit ℝ) (visits : List (Visit ℝ)) (s : Itemset) :
    dualIn (v :: visits) s = (if v.item ∈ s then v.dual else 0) + dualIn visits s := by
  unfold dualIn
  by_cases h : v.item ∈ s <;> simp [h]

theorem dualIn_eq_zero {visits : List (Visit ℝ)} {s : Itemset} (h : ∀ v ∈ visits, v.item ∉ s) :
    dualIn visits s = 0 := by
  rw [dualIn, List.filter_eq_nil_iff.2 fun v hv => by simpa using h v hv]
  rfl

variable {uncovered : List Item} {residuals : List (Candidate ℝ)} {item : Item}
  {found : Candidate ℝ × ℝ} {visits : List (Visit ℝ)} {stuck : Option (Item × ℕ)}

/-- What becomes tight is the candidate whose residual cost is below that of all others that contain
the item. -/
theorem tightest_eq_some {c : Candidate ℝ} (hc : c ∈ residuals) (hin : item ∈ c.1)
    (hlt : ∀ d ∈ residuals, d ≠ c → item ∈ d.1 → c.2 < d.2) :
    tightest item residuals = some (c, c.2) := by
  refine firstLeast_eq_some hc (if_pos hin) fun d hd hne k hk => ?_
  unfold residualFor at hk
  split_ifs at hk with hind
  obtain rfl := Option.some.inj hk
  exact hlt d hd hne hind

theorem lower_nonneg (h : tightest item residuals = some found)
    (hnonneg : ∀ c ∈ residuals, 0 ≤ c.2) :
    ∀ c ∈ lower item found.2 residuals, 0 ≤ c.2 :=
  forall_lower (totalOn_real.mono fun _ _ => trivial)
    (fun _ _ _ _ hle => sub_nonneg.2 (not_lt.1 hle)) hnonneg h

theorem Course.dual_nonneg (h : Course uncovered residuals visits stuck)
    (hnonneg : ∀ c ∈ residuals, 0 ≤ c.2) : ∀ v ∈ visits, 0 ≤ v.dual := by
  induction h with
  | done => simp
  | stuck => simp
  | visit _ hfound _ ih =>
    obtain ⟨hmem, -, hdual⟩ := tightest_mem hfound
    exact List.forall_mem_cons.2 ⟨hdual ▸ hnonneg _ hmem, ih (lower_nonneg hfound hnonneg)⟩

/-- The raises of the items in a candidate never exceed its residual cost. -/
theorem Course.dualIn_le (h : Course uncovered residuals visits stuck)
    (hnonneg : ∀ c ∈ residuals, 0 ≤ c.2) : ∀ c ∈ residuals, dualIn visits c.1 ≤ c.2 := by
  induction h with
  | done => exact hnonneg
  | stuck => exact hnonneg
  | visit _ hfound _ ih =>
    intro c hc
    have hrest := ih (lower_nonneg hfound hnonneg) _ (mem_lower hc)
    rw [dualIn_cons]
    split_ifs at hrest ⊢ <;> linarith

/-- The raises of the items in a selected candidate add up to its residual cost. -/
theorem Course.dualIn_eq (h : Course uncovered residuals visits stuck)
    (hnodup : (residuals.map Prod.fst).Nodup) :
    ∀ c ∈ residuals, c.1 ∈ visits.map Visit.itemset → dualIn visits c.1 = c.2 := by
  induction h with
  | done => simp
  | stuck => simp
  | @visit uncovered residuals item found visits stuck _ hfound hrest ih =>
    intro c hc hsel
    obtain ⟨hmem, hin, hdual⟩ := tightest_mem hfound
    rw [dualIn_cons]
    by_cases hcf : c.1 = found.1.1
    · -- none of the items of the candidate just selected is visited again
      have hzero : dualIn visits c.1 = 0 := dualIn_eq_zero fun v hv => by
        rw [hcf]
        exact (mem_dropCovered.1 (hrest.item_mem v hv)).2
      have hc' : c = found.1 := List.inj_on_of_nodup_map hnodup hc hmem hcf
      rw [hzero, hc', if_pos hin, add_zero, hdual]
    · have hlater : c.1 ∈ visits.map Visit.itemset := (List.mem_cons.1 hsel).resolve_left hcf
      have heq := ih (by rwa [map_fst_lower]) _ (mem_lower hc) hlater
      split_ifs at heq ⊢ <;> linarith

end Duals

end NoisyCover.PrimalDual
