import Mathlib
import NoisyCover.Inference
import NoisyCover.Proofs.Greedy.Report
import NoisyCover.Proofs.PrimalDual.Progress

/-!
# The order of a pool only decides ties

Both approximation algorithms scan the pool for the least key, once a step.  Where only one element
of a list has the least key, a scan finds it in whatever order the list comes (`firstLeast_perm`).
So as long as no step meets a tie, every step finds the same in a reordered pool, and leaves behind
the same items and, up to their order, the same residual costs.
-/

namespace NoisyCover

section Scans

variable {K : Type u} [Arithmetic K] {α : Type v} {key : α → Option K} {l m : List α}

/-- An element of a list whose key no other key is below. -/
def HasLeastKey (key : α → Option K) (l : List α) (a : α) : Prop :=
  a ∈ l ∧ ∃ k, key a = some k ∧ ∀ b ∈ l, ∀ k', key b = some k' → ¬ k' < k

/-- No two elements of a list share the least key. -/
def NoTie (key : α → Option K) (l : List α) : Prop :=
  ∀ a b, HasLeastKey key l a → HasLeastKey key l b → a = b

theorem hasLeastKey_firstLeast {P : K → Prop} (hP : TotalOn P)
    (hkeys : ∀ a ∈ l, ∀ k, key a = some k → P k) {found : α × K}
    (h : firstLeast key l = some found) : HasLeastKey key l found.1 := by
  obtain ⟨hmem, hkey⟩ := firstLeast_mem h
  exact ⟨hmem, found.2, hkey, not_lt_firstLeast hP hkeys h⟩

theorem eq_of_hasLeastKey {best : α}
    (h : ∀ b ∈ l, b ≠ best → ∀ k, key b = some k → best ∈ l ∧ ∃ k', key best = some k' ∧ k' < k)
    {a : α} (ha : HasLeastKey key l a) : a = best := by
  obtain ⟨hmem, k, hk, hleast⟩ := ha
  by_contra hne
  obtain ⟨hbest, k', hk', hlt⟩ := h a hmem hne k hk
  exact hleast best hbest k' hk' hlt

theorem noTie_of_forall_eq {best : α} (h : ∀ a, HasLeastKey key l a → a = best) : NoTie key l :=
  fun a b ha hb => (h a ha).trans (h b hb).symm

/-- A scan finds the same in any order, unless the least key is shared. -/
theorem firstLeast_perm {P : K → Prop} (hP : TotalOn P)
    (hkeys : ∀ a ∈ l, ∀ k, key a = some k → P k) (hperm : m.Perm l)
    (htie : ∀ found, firstLeast key l = some found → NoTie key l) :
    firstLeast key m = firstLeast key l := by
  have hnone : firstLeast key m = none ↔ firstLeast key l = none := by
    rw [firstLeast_eq_none_iff, firstLeast_eq_none_iff]
    exact forall_congr' fun a => by rw [hperm.mem_iff]
  rcases hl : firstLeast key l with _ | found
  · exact hnone.2 hl
  rcases hm : firstLeast key m with _ | other
  · rw [hnone.1 hm] at hl
    cases hl
  have hkeys' : ∀ a ∈ m, ∀ k, key a = some k → P k := fun a ha => hkeys a (hperm.mem_iff.1 ha)
  -- what is found in the other order has the least key of this list as well
  obtain ⟨hmem, hleast⟩ := hasLeastKey_firstLeast hP hkeys' hm
  simp only [hperm.mem_iff] at hmem hleast
  have hsame : other.1 = found.1 :=
    htie found hl other.1 found.1 ⟨hmem, hleast⟩ (hasLeastKey_firstLeast hP hkeys hl)
  have hkey := (firstLeast_mem hm).2
  rw [hsame, (firstLeast_mem hl).2] at hkey
  exact congrArg some (Prod.ext hsame (Option.some.inj hkey).symm)

end Scans

theorem Pool.within_perm {K : Type u} [Arithmetic K] {pool reordered : Pool K}
    (hperm : reordered.candidates.Perm pool.candidates) (t : Transaction) :
    (reordered.within t).candidates.Perm (pool.within t).candidates :=
  hperm.filter _

namespace Greedy

variable {K : Type u} [Arithmetic K]

/-- At no step of a run do two candidates share the least cost per newly covered item. -/
def HasNoTies (pool : Pool K) (t : Transaction) : Prop :=
  ∀ before p after, picks pool t = before ++ p :: after →
    NoTie (costPerItem (unionOf (before.map Pick.itemset))) (pool.within t).candidates

variable (R : Rounding K) {candidates reordered : List (Candidate K)}
  {items covered : SortedSet Item}

include R

theorem choose_perm (hopen : ∀ c ∈ candidates, 0 < c.2 ∧ c.2 < 1)
    (hperm : reordered.Perm candidates)
    (htie : ∀ found, choose candidates covered = some found →
      NoTie (costPerItem covered) candidates) :
    choose reordered covered = choose candidates covered := by
  refine firstLeast_perm R.totalOn (fun c hc k hk => ?_) hperm htie
  unfold costPerItem Offer.costPerItem at hk
  split_ifs at hk with hsize
  obtain rfl := Option.some.inj hk
  obtain ⟨a, ha, -⟩ := R.bounded_iff.1
    (R.bounded_div (R.isCost_selectionCost (hopen c hc).1 (R.le_of_lt (hopen c hc).2)) hsize)
  exact ⟨a, ha⟩

/-- The steps are the same in any order of the candidates, as long as they meet no tie. -/
theorem picksFrom_perm (hopen : ∀ c ∈ candidates, 0 < c.2 ∧ c.2 < 1)
    (hperm : reordered.Perm candidates)
    (hties : ∀ before p after, picksFrom candidates items covered = before ++ p :: after →
      NoTie (costPerItem (covered ∪ unionOf (before.map Pick.itemset))) candidates) :
    picksFrom reordered items covered = picksFrom candidates items covered := by
  fun_induction picksFrom candidates items covered with
  | case1 covered hdone => rw [picksFrom, if_pos hdone]
  | case2 covered hdone hnone =>
    have hchoose : choose reordered covered = choose candidates covered :=
      choose_perm R hopen hperm (by simp [hnone])
    exact picksFrom_of_choose_eq_none hdone (hchoose.trans hnone)
  | case3 covered hdone found hsome ih =>
    have htie : NoTie (costPerItem covered) candidates := by
      simpa [unionOf] using hties [] _ _ rfl
    have hchoose := choose_perm R hopen hperm fun _ _ => htie
    rw [picksFrom_of_choose_eq_some hdone (hchoose.trans hsome), ih fun before p after hsplit => ?_]
    have hlater := hties (⟨found.1.1, found.2⟩ :: before) p after (by rw [hsplit]; rfl)
    rwa [List.map_cons, union_unionOf_cons] at hlater

end Greedy

namespace PrimalDual

variable {K : Type u} [Arithmetic K] {σ : Type}

/-- At no visit of a run do two candidates that contain the item share the least residual cost. -/
def HasNoTies (source : RandomSource σ) (pool : Pool K) (t : Transaction) (state : σ) : Prop :=
  ∀ (k : ℕ) (v : Visit K) left, (run source pool t state).visits[k]? = some v →
    (run source pool t state).residuals[k]? = some left → NoTie (residualFor v.item) left

/-- The runs make the same visits, with the same raises, and end alike; their residual costs are the
same up to the order of the candidates. -/
structure Run.Perm (r r' : Run K σ) : Prop where
  visits : r.visits = r'.visits
  residuals : List.Forall₂ List.Perm r.residuals r'.residuals
  stuck : r.stuck = r'.stuck
  source : r.source = r'.source

omit [Arithmetic K] in
theorem Run.Perm.after {r r' : Run K σ} (h : r.Perm r') (visit : Visit K)
    {residuals residuals' : List (Candidate K)} (hperm : residuals.Perm residuals') :
    (r.after visit residuals).Perm (r'.after visit residuals') where
  visits := congrArg (List.cons visit) h.visits
  residuals := .cons hperm h.residuals
  stuck := h.stuck
  source := h.source

omit [Arithmetic K] in
theorem Run.Perm.selection_eq {r r' : Run K σ} (h : r.Perm r') : r.selection = r'.selection := by
  rw [Run.selection, Run.selection, h.visits]

omit [Arithmetic K] in
theorem Run.Perm.notes_eq {r r' : Run K σ} (h : r.Perm r') : r.notes = r'.notes := by
  rw [Run.notes, Run.notes, h.visits, h.stuck]

variable (R : Rounding K) {residuals reordered : List (Candidate K)}

include R

theorem tightest_perm {item : Item} (hcost : ∀ c ∈ residuals, R.IsCost c.2)
    (hperm : reordered.Perm residuals)
    (htie : ∀ found, tightest item residuals = some found → NoTie (residualFor item) residuals) :
    tightest item reordered = tightest item residuals := by
  refine firstLeast_perm R.totalOn (fun c hc k hk => ?_) hperm htie
  unfold residualFor at hk
  split_ifs at hk
  obtain rfl := Option.some.inj hk
  obtain ⟨a, ha⟩ := Rounding.IsCost.isFinite R (hcost c hc)
  exact ⟨a, ha⟩

/-- A run is the same in any order of the residual costs, as long as it meets no tie. -/
theorem visitFrom_perm (source : RandomSource σ) (uncovered : List Item)
    (residuals : List (Candidate K)) (state : σ) (hcost : ∀ c ∈ residuals, R.IsCost c.2)
    (hties : ∀ (k : ℕ) (v : Visit K) left,
      (visitFrom source uncovered residuals state).visits[k]? = some v →
      (visitFrom source uncovered residuals state).residuals[k]? = some left →
        NoTie (residualFor v.item) left) :
    ∀ reordered : List (Candidate K), reordered.Perm residuals →
      (visitFrom source uncovered reordered state).Perm
        (visitFrom source uncovered residuals state) := by
  fun_induction visitFrom source uncovered residuals state with
  | case1 residuals state =>
    intro reordered hperm
    rw [visitFrom]
    exact ⟨rfl, .cons hperm .nil, rfl, rfl⟩
  | case2 first others residuals state drawn item hnone =>
    intro reordered hperm
    have htight : tightest item reordered = tightest item residuals :=
      tightest_perm R hcost hperm (by simp [hnone])
    rw [visitFrom_of_tightest_eq_none source (htight.trans hnone)]
    exact ⟨rfl, .cons hperm .nil, rfl, rfl⟩
  | case3 first others residuals state drawn item found hsome ih =>
    intro reordered hperm
    have htie : NoTie (residualFor item) residuals := hties 0 _ _ rfl rfl
    have htight := tightest_perm R hcost hperm fun _ _ => htie
    rw [visitFrom_of_tightest_eq_some source (htight.trans hsome)]
    -- the raise is the same, so the residual costs stay the same up to their order
    refine Run.Perm.after (ih (isCost_lower R hcost hsome) (fun k v left hv hleft => ?_) _
      (hperm.map _)) _ hperm
    exact hties (k + 1) v left hv hleft

end PrimalDual

section Inferences

variable {K : Type u} [Arithmetic K] (R : Rounding K) {pool reordered : Pool K} {t : Transaction}
  (hp : ∀ c ∈ (pool.within t).candidates, c.2 < 1)

include R hp

theorem PrimalDual.covering_infer {σ : Type} (source : RandomSource σ) (covering : Covering)
    (state : σ) : (infer source covering pool t state).1.covering =
      covering ∪ (run source pool t state).selection := by
  obtain ⟨total, htotal⟩ : ∃ total,
      (run source pool t state).cost (pool.within t).candidates = .ok total :=
    (Run.exists_cost_iff R _ Pool.pos_of_mem_within).2 fun c hc _ => hp c hc
  simp only [infer, conclude, htotal]

variable (hperm : reordered.candidates.Perm pool.candidates)

include hperm

theorem Greedy.picks_perm (hties : HasNoTies pool t) : picks reordered t = picks pool t := by
  rw [picks_eq, picks_eq]
  refine picksFrom_perm R (fun c hc => ⟨Pool.pos_of_mem_within c hc, hp c hc⟩)
    (Pool.within_perm hperm t) fun before p after hsplit => ?_
  rw [SortedSet.empty_union]
  rw [← picks_eq] at hsplit
  exact hties before p after hsplit

theorem PrimalDual.run_perm {σ : Type} {source : RandomSource σ} {state : σ}
    (hties : HasNoTies source pool t state) :
    (run source reordered t state).Perm (run source pool t state) := by
  refine visitFrom_perm R source t _ state (fun c hc => ?_) hties _
    ((Pool.within_perm hperm t).map _)
  obtain ⟨d, hd, rfl⟩ := List.mem_map.1 hc
  exact R.isCost_selectionCost (Pool.pos_of_mem_within d hd) (R.le_of_lt (hp d hd))

end Inferences

/-- The order of a pool only decides ties.  As long as no step of greedy covering meets a tie, all
steps are the same in every order of the pool, with the same prices, and they leave over the same.
As long as no visit of a primal-dual run meets one, all visits are the same, with the same raises,
and up to their order so are the residual costs they leave: the run draws alike and ends or gets
stuck at the same item.  So both add the same to a covering and write the same log. -/
theorem order_decides_ties {K : Type u} [Arithmetic K] (R : Rounding K) {pool reordered : Pool K}
    {t : Transaction} (hp : ∀ c ∈ (pool.within t).candidates, c.2 < 1)
    (hperm : reordered.candidates.Perm pool.candidates) (covering : Covering) :
    (Greedy.HasNoTies pool t →
      Greedy.picks reordered t = Greedy.picks pool t ∧
      (Greedy.infer covering reordered t).covering = (Greedy.infer covering pool t).covering ∧
      (Greedy.infer covering reordered t).log = (Greedy.infer covering pool t).log) ∧
    ∀ {σ : Type} (source : RandomSource σ) (state : σ),
      PrimalDual.HasNoTies source pool t state →
        (PrimalDual.run source reordered t state).Perm (PrimalDual.run source pool t state) ∧
        (PrimalDual.infer source covering reordered t state).1.covering =
          (PrimalDual.infer source covering pool t state).1.covering ∧
        (PrimalDual.infer source covering reordered t state).1.log =
          (PrimalDual.infer source covering pool t state).1.log := by
  refine ⟨fun hties => ?_, fun source state hties => ?_⟩
  · have hpicks := Greedy.picks_perm R hp hperm hties
    exact ⟨hpicks, by simp only [Greedy.infer, Greedy.conclude, hpicks],
      by simp only [Greedy.infer, Greedy.conclude, hpicks]⟩
  · have hrun := PrimalDual.run_perm R hp hperm hties
    have hp' : ∀ c ∈ (reordered.within t).candidates, c.2 < 1 :=
      fun c hc => hp c ((Pool.within_perm hperm t).mem_iff.1 hc)
    refine ⟨hrun, ?_, congrArg (List.map LogEntry.primalDual) hrun.notes_eq⟩
    rw [PrimalDual.covering_infer R hp, PrimalDual.covering_infer R hp', hrun.selection_eq]

section Nested

/-- An itemset and a part of it that is less likely than the whole. -/
noncomputable def nested : Pool ℝ where
  candidates := [(SortedSet.ofList [1, 2], 0.5), (SortedSet.ofList [1], 0.25)]
  nodup := by decide

noncomputable def nestedReversed : Pool ℝ where
  candidates := [(SortedSet.ofList [1], 0.25), (SortedSet.ofList [1, 2], 0.5)]
  nodup := by decide

theorem nested_within : nested.within [1, 2] = nested := by
  refine Pool.within_eq_self ?_
  simp only [nested, List.forall_mem_cons]
  exact ⟨⟨by norm_num, by decide⟩, ⟨by norm_num, by decide⟩, by simp⟩

theorem onCost_half_lt : onCost 0.5 < onCost 0.25 :=
  neg_lt_neg (Real.log_lt_log (by norm_num) (by norm_num))

theorem part_subset_whole : ([1] : List Item) ⊆ [1, 2] := by decide

/-- While the part covers something new, so does the whole, at a lower cost per item. -/
theorem whole_cheaper {covered : SortedSet Item}
    (hpart : (SortedSet.ofList [1] \ covered).size ≠ 0) :
    (SortedSet.ofList [1, 2] \ covered).size ≠ 0 ∧
      onCost 0.5 / (SortedSet.ofList [1, 2] \ covered).size <
        onCost 0.25 / (SortedSet.ofList [1] \ covered).size := by
  have hle : (SortedSet.ofList [1] \ covered).size ≤ (SortedSet.ofList [1, 2] \ covered).size :=
    SortedSet.size_le_size fun i hi => by
      simp only [SortedSet.mem_sdiff, SortedSet.mem_ofList] at hi ⊢
      exact ⟨part_subset_whole hi.1, hi.2⟩
  refine ⟨fun hzero => hpart (Nat.le_zero.1 (hle.trans_eq hzero)), ?_⟩
  have hpos : (0 : ℝ) < (SortedSet.ofList [1] \ covered).size :=
    Nat.cast_pos.2 (Nat.pos_of_ne_zero hpart)
  calc onCost 0.5 / (SortedSet.ofList [1, 2] \ covered).size
      ≤ onCost 0.5 / (SortedSet.ofList [1] \ covered).size :=
        div_le_div_of_nonneg_left (onCost_nonneg (by norm_num) (by norm_num)) hpos
          (Nat.cast_le.2 hle)
    _ < onCost 0.25 / (SortedSet.ofList [1] \ covered).size :=
        div_lt_div_of_pos_right onCost_half_lt hpos

theorem nested_price_eq {covered : SortedSet Item} {a : Candidate ℝ}
    (ha : HasLeastKey (Greedy.costPerItem covered) nested.candidates a) :
    a = (SortedSet.ofList [1, 2], 0.5) := by
  refine eq_of_hasLeastKey (fun b hb hne k hk => ?_) ha
  obtain rfl := (List.mem_pair.1 hb).resolve_left hne
  obtain ⟨hpart, rfl⟩ := Greedy.costPerItem_eq_some_iff.1 hk
  obtain ⟨hwhole, hlt⟩ := whole_cheaper hpart
  exact ⟨List.mem_cons_self, _, Greedy.costPerItem_eq_some hwhole, hlt⟩

theorem nested_residual_eq {item : Item} {a : Candidate ℝ}
    (ha : HasLeastKey (PrimalDual.residualFor item)
      (PrimalDual.initialResiduals nested.candidates) a) :
    a = (SortedSet.ofList [1, 2], onCost 0.5) := by
  refine eq_of_hasLeastKey (fun b hb hne k hk => ?_) ha
  obtain rfl := (List.mem_pair.1 hb).resolve_left hne
  unfold PrimalDual.residualFor at hk
  split_ifs at hk with hin
  obtain rfl := Option.some.inj hk
  refine ⟨List.mem_cons_self, onCost 0.5, if_pos ?_, onCost_half_lt⟩
  simp only [SortedSet.mem_ofList] at hin ⊢
  exact part_subset_whole hin

/-- The first visit selects the whole, and leaves nothing to visit. -/
theorem hasNoTies_nested :
    PrimalDual.HasNoTies RandomSource.last nested [1, 2] () := by
  intro k v left hv hleft
  rw [PrimalDual.run, nested_within] at hv hleft
  cases k with
  | zero =>
    obtain rfl := Option.some.inj ((PrimalDual.residuals_zero _ _ _ _).symm.trans hleft)
    exact noTie_of_forall_eq fun a => nested_residual_eq
  | succ k =>
    obtain ⟨item, found, state', hitem, hfound, hrun⟩ :=
      PrimalDual.exists_of_residuals_succ RandomSource.last hleft
    have hfirst := nested_residual_eq
      (hasLeastKey_firstLeast totalOn_real (fun _ _ _ _ => trivial) hfound)
    have hdone : PrimalDual.dropCovered (SortedSet.ofList [1, 2]) [1, 2] = [] := rfl
    rw [hrun, hfirst, hdone, PrimalDual.visitFrom] at hv
    cases hv

theorem order_decides_ties_nested :
    Greedy.picks nestedReversed [1, 2] = Greedy.picks nested [1, 2] ∧
      (PrimalDual.run RandomSource.last nestedReversed [1, 2] ()).Perm
        (PrimalDual.run RandomSource.last nested [1, 2] ()) := by
  have hp : ∀ c ∈ (nested.within [1, 2]).candidates, c.2 < 1 := by
    rw [nested_within]
    intro c hc
    rcases List.mem_pair.1 hc with rfl | rfl <;> norm_num
  have hreversed : nestedReversed.candidates.Perm nested.candidates := List.Perm.swap _ _ _
  obtain ⟨hgreedy, hprimalDual⟩ := order_decides_ties exactRounding hp hreversed ∅
  refine ⟨(hgreedy fun before p after _ => ?_).1,
    (hprimalDual RandomSource.last () hasNoTies_nested).1⟩
  rw [nested_within]
  exact noTie_of_forall_eq fun a => nested_price_eq

end Nested

end NoisyCover
