import Mathlib
import NoisyCover.Proofs.Renaming

/-!
# What the checks of a covering agree on

There are two checks of a covering.  `isComplete` goes through the itemsets and gives up at the
first one that is no candidate (`Pool.coverStrictly`); `audit` sets such itemsets aside and goes on
(`Pool.coverLeniently`).  In whatever order the itemsets are listed, both come to the same verdict.

An audit looks at a covering only through the candidates in it (`audit_congr`), so itemsets from
elsewhere are listed but change nothing else.
-/

namespace NoisyCover

section Listings

variable {K : Type u} (pool : Pool K)

/-- Goes through itemsets and collects what they cover, but gives up at one that is no candidate. -/
def Pool.coverStrictly (sets : List Itemset) : Option (SortedSet Item) :=
  sets.foldlM (fun covered s => if pool.has s then some (covered ∪ s) else none) ∅

/-- Goes through itemsets and collects what the candidates among them cover, and apart from it the
others. -/
def Pool.coverLeniently (sets : List Itemset) : SortedSet Item × List Itemset :=
  sets.foldl
    (fun found s => if pool.has s then (found.1 ∪ s, found.2) else (found.1, found.2 ++ [s]))
    (∅, [])

theorem foldlM_coverStrictly : ∀ (sets : List Itemset) (covered : SortedSet Item),
    sets.foldlM (fun covered s => if pool.has s then some (covered ∪ s) else none) covered =
      if sets.all pool.has then some (sets.foldl (· ∪ ·) covered) else none
  | [], _ => rfl
  | s :: sets, covered => by
    rw [List.foldlM_cons, List.all_cons, List.foldl_cons]
    by_cases hs : pool.has s = true
    · rw [if_pos hs, hs, Bool.true_and]
      exact foldlM_coverStrictly sets (covered ∪ s)
    · rw [if_neg hs, Bool.eq_false_of_not_eq_true hs]
      rfl

theorem Pool.coverStrictly_eq (sets : List Itemset) :
    pool.coverStrictly sets = if sets.all pool.has then some (unionOf sets) else none :=
  foldlM_coverStrictly pool sets ∅

theorem foldl_coverLeniently : ∀ (sets : List Itemset) (found : SortedSet Item × List Itemset),
    sets.foldl
        (fun found s => if pool.has s then (found.1 ∪ s, found.2) else (found.1, found.2 ++ [s]))
        found =
      ((sets.filter pool.has).foldl (· ∪ ·) found.1,
        found.2 ++ sets.filter fun s => !pool.has s)
  | [], found => by simp
  | s :: sets, found => by
    rw [List.foldl_cons, foldl_coverLeniently sets]
    by_cases hs : pool.has s = true <;> simp [hs]

theorem Pool.coverLeniently_eq (sets : List Itemset) :
    pool.coverLeniently sets =
      (unionOf (sets.filter pool.has), sets.filter fun s => !pool.has s) := by
  rw [coverLeniently, foldl_coverLeniently]
  rfl

end Listings

section Candidates

variable {K : Type u} {pool : Pool K} {covering other : Covering} {i : Item}

/-- The items that the candidates in a covering cover. -/
def Pool.coveredItems (pool : Pool K) (covering : Covering) : SortedSet Item :=
  unionOf (covering.filter pool.has).toList

theorem Pool.mem_coveredItems :
    i ∈ pool.coveredItems covering ↔ ∃ s ∈ covering, s ∈ pool.itemsets ∧ i ∈ s := by
  rw [coveredItems, mem_unionOf]
  refine exists_congr fun s => ?_
  rw [← SortedSet.mem_def, SortedSet.mem_filter, has_iff, and_assoc]

/-- Two coverings with the same candidates of a pool in them. -/
def Pool.Agree (pool : Pool K) (covering other : Covering) : Prop :=
  ∀ s ∈ pool.itemsets, s ∈ other ↔ s ∈ covering

theorem Pool.Agree.coveredItems_eq (h : pool.Agree covering other) :
    pool.coveredItems other = pool.coveredItems covering := by
  refine SortedSet.ext_mem fun i => ?_
  rw [mem_coveredItems, mem_coveredItems]
  exact exists_congr fun s => ⟨fun ⟨hs, hmem, hi⟩ => ⟨(h s hmem).1 hs, hmem, hi⟩,
    fun ⟨hs, hmem, hi⟩ => ⟨(h s hmem).2 hs, hmem, hi⟩⟩

theorem Pool.Agree.cost_eq [Arithmetic K] (h : pool.Agree covering other) :
    pool.cost other = pool.cost covering := by
  rw [cost, ← List.map_id pool.candidates]
  refine foldlM_map_congr 0 fun c hc total => ?_
  rw [id, candidateCost, candidateCost]
  simp only [h c.1 (List.mem_map_of_mem hc)]

theorem Pool.agree_insert {s : Itemset} (hs : s ∉ pool.itemsets) :
    pool.Agree covering (covering.insert s) := by
  intro x hx
  rw [SortedSet.mem_insert]
  exact or_iff_right fun heq => hs (heq ▸ hx)

theorem Pool.agree_sdiff {s : Itemset} (hs : s ∉ pool.itemsets) :
    pool.Agree covering (covering \ SortedSet.ofList [s]) := by
  intro x hx
  rw [SortedSet.mem_sdiff, SortedSet.mem_ofList, List.mem_singleton]
  exact and_iff_left fun heq => hs (heq ▸ hx)

end Candidates

section Audits

variable {K : Type u} [Arithmetic K] {covering other : Covering} {pool : Pool K} {t : Transaction}
  {a : Audit K} {s : Itemset}

/-- What an audit reports. -/
theorem audit_reports (h : audit covering pool t = .ok a) :
    let covered := (pool.within t).coveredItems covering
    (pool.within t).cost covering = .ok a.expectedCost ∧
      a.missing = t.filter (fun i => !decide (i ∈ covered)) ∧
      a.foreign = covering \ covering.filter (pool.within t).has ∧
      a.valid = (a.missing.isEmpty && a.foreign.size == 0) ∧
      a.coveredCount = (covered ∩ t.items).size ∧ a.expectedCount = t.items.size := by
  unfold audit at h
  rcases hcost : (pool.within t).cost covering with fault | cost <;>
    simp only [hcost, Except.map] at h
  · cases h
  · obtain rfl := Except.ok.inj h
    exact ⟨rfl, rfl, rfl, rfl, rfl, rfl⟩

theorem mem_missing (h : audit covering pool t = .ok a) {i : Item} :
    i ∈ a.missing ↔ i ∈ t ∧ ∀ s ∈ covering, s ∈ (pool.within t).itemsets → i ∉ s := by
  obtain ⟨-, hmissing, -⟩ := audit_reports h
  rw [hmissing, List.mem_filter, Bool.not_eq_true', decide_eq_false_iff_not, Pool.mem_coveredItems]
  push Not
  rfl

theorem mem_foreign (h : audit covering pool t = .ok a) :
    s ∈ a.foreign ↔ s ∈ covering ∧ s ∉ (pool.within t).itemsets := by
  obtain ⟨-, -, hforeign, -⟩ := audit_reports h
  rw [hforeign, SortedSet.mem_sdiff, SortedSet.mem_filter, Pool.has_iff]
  tauto

/-- The verdict of an audit is that of the check that answers yes or no. -/
theorem valid_eq_isComplete (h : audit covering pool t = .ok a) :
    a.valid = isComplete covering pool t := by
  obtain ⟨-, -, -, hvalid, -⟩ := audit_reports h
  have hmissing : a.missing = [] ↔
      ∀ i ∈ t, ∃ s ∈ covering, s ∈ (pool.within t).itemsets ∧ i ∈ s := by
    rw [List.eq_nil_iff_forall_not_mem]
    refine forall_congr' fun i => ?_
    rw [mem_missing h]
    push Not
    rfl
  have hforeign : a.foreign.size = 0 ↔ ∀ s ∈ covering, s ∈ (pool.within t).itemsets := by
    rw [SortedSet.size_eq_zero_iff]
    refine forall_congr' fun s => ?_
    rw [mem_foreign h, not_and, not_not]
  rw [hvalid, Bool.eq_iff_iff, Bool.and_eq_true, List.isEmpty_iff, beq_iff_eq, isComplete_iff,
    hmissing, hforeign, and_comm]
  exact and_congr_right fun hown => forall₂_congr fun i _ => exists_congr fun s =>
    ⟨fun ⟨hs, _, hi⟩ => ⟨hs, hi⟩, fun ⟨hs, hi⟩ => ⟨hs, hown s hs, hi⟩⟩

/-- Every item of the transaction is covered or missing. -/
theorem coveredCount_add (h : audit covering pool t = .ok a) :
    a.coveredCount + (SortedSet.ofList a.missing).size = a.expectedCount := by
  obtain ⟨-, -, -, -, hcovered, hexpected⟩ := audit_reports h
  set covered := (pool.within t).coveredItems covering
  have hmissing : SortedSet.ofList a.missing = t.items \ covered := by
    refine SortedSet.ext_mem fun i => ?_
    rw [SortedSet.mem_ofList, mem_missing h, SortedSet.mem_sdiff, Transaction.mem_items,
      Pool.mem_coveredItems]
    push Not
    rfl
  have hinter : covered ∩ t.items = t.items ∩ covered := by
    refine SortedSet.ext_mem fun i => ?_
    rw [SortedSet.mem_inter, SortedSet.mem_inter, and_comm]
  rw [hcovered, hexpected, hmissing, hinter, add_comm, SortedSet.size_sdiff_add_size_inter]

/-- An audit looks only at the candidates in a covering. -/
theorem audit_congr (h : audit covering pool t = .ok a)
    (hagree : (pool.within t).Agree covering other) :
    ∃ b, audit other pool t = .ok b ∧ b.missing = a.missing ∧ b.coveredCount = a.coveredCount ∧
      b.expectedCost = a.expectedCost := by
  obtain ⟨hcost, hmissing, -, -, hcovered, -⟩ := audit_reports h
  obtain ⟨b, hb⟩ : ∃ b, audit other pool t = .ok b := by
    simp only [audit, hagree.cost_eq, hcost, Except.map]
    exact ⟨_, rfl⟩
  obtain ⟨hcost', hmissing', -, -, hcovered', -⟩ := audit_reports hb
  rw [hagree.cost_eq] at hcost'
  rw [hagree.coveredItems_eq] at hmissing' hcovered'
  exact ⟨b, hb, hmissing'.trans hmissing.symm, hcovered'.trans hcovered.symm,
    Except.ok.inj (hcost'.symm.trans hcost)⟩

section Orders

variable {order : List Itemset} (horder : order.Perm covering.toList)

include horder

/-- The check that gives up comes to its verdict in any order. -/
theorem isComplete_eq_coverStrictly (pool : Pool K) (t : Transaction) :
    isComplete covering pool t =
      match (pool.within t).coverStrictly order with
      | some covered => decide (t.items ⊆ covered)
      | none => false := by
  have hunion : unionOf order = unionOf covering.toList := by
    refine SortedSet.ext_mem fun i => ?_
    rw [mem_unionOf, mem_unionOf]
    exact exists_congr fun s => and_congr_left fun _ => horder.mem_iff
  rw [isComplete, Pool.coverStrictly_eq, hunion, horder.all_eq]
  cases covering.toList.all (pool.within t).has <;> rfl

/-- The check that goes on finds the same in any order. -/
theorem coverLeniently_of_audit (h : audit covering pool t = .ok a) :
    a.missing = t.filter
        (fun i => !decide (i ∈ ((pool.within t).coverLeniently order).1)) ∧
      ((pool.within t).coverLeniently order).2.Perm a.foreign.toList := by
  obtain ⟨-, hmissing, -⟩ := audit_reports h
  rw [Pool.coverLeniently_eq]
  constructor
  · have hcovered : unionOf (order.filter (pool.within t).has) =
        (pool.within t).coveredItems covering := by
      refine SortedSet.ext_mem fun i => ?_
      rw [mem_unionOf, Pool.mem_coveredItems]
      refine exists_congr fun s => ?_
      rw [List.mem_filter, horder.mem_iff, Pool.has_iff, and_assoc]
      rfl
    rw [hcovered, hmissing]
  · refine (List.perm_ext_iff_of_nodup ?_ a.foreign.nodup).2 fun s => ?_
    · exact (horder.nodup_iff.2 covering.nodup).filter _
    · rw [List.mem_filter, horder.mem_iff, ← SortedSet.mem_def, ← SortedSet.mem_def,
        mem_foreign h, Bool.not_eq_true', ← Bool.not_eq_true, Pool.has_iff]

end Orders

end Audits

/-- The two checks of a covering agree.  When an audit can be made, its verdict is that of the check
that answers yes or no, and going through the itemsets in another order changes neither.  It lists
as foreign exactly the itemsets that are no candidates, and as missing the items of the transaction
that no candidate in the covering contains, in order and with repeats; every different item is
covered or missing.  Putting in or taking out an itemset that is no candidate changes neither what
is missing nor how much is covered nor the cost. -/
theorem audit_agrees {K : Type u} [Arithmetic K] {covering : Covering} {pool : Pool K}
    {t : Transaction} {a : Audit K} (h : audit covering pool t = .ok a) :
    let filtered := pool.within t
    a.valid = isComplete covering pool t ∧
      (∀ s, s ∈ a.foreign ↔ s ∈ covering ∧ s ∉ filtered.itemsets) ∧
      a.coveredCount + (SortedSet.ofList a.missing).size = a.expectedCount ∧
      a.missing = t.filter
        (fun i => decide (∀ s ∈ covering.toList, s ∈ filtered.itemsets → i ∉ s)) ∧
      (∀ order : List Itemset, order.Perm covering.toList →
        (isComplete covering pool t =
          match filtered.coverStrictly order with
          | some covered => decide (t.items ⊆ covered)
          | none => false) ∧
        a.missing = t.filter (fun i => !decide (i ∈ (filtered.coverLeniently order).1)) ∧
        (filtered.coverLeniently order).2.Perm a.foreign.toList) ∧
      ∀ s, s ∉ filtered.itemsets →
        ∀ other ∈ [covering.insert s, covering \ SortedSet.ofList [s]],
          ∃ b, audit other pool t = .ok b ∧ b.missing = a.missing ∧
            b.coveredCount = a.coveredCount ∧ b.expectedCost = a.expectedCost := by
  intro filtered
  refine ⟨valid_eq_isComplete h, fun s => mem_foreign h, coveredCount_add h, ?_,
    fun order horder => ⟨isComplete_eq_coverStrictly horder pool t,
      coverLeniently_of_audit horder h⟩, fun s hs other hother => ?_⟩
  · obtain ⟨-, hmissing, -⟩ := audit_reports h
    rw [hmissing]
    refine List.filter_congr fun i _ => ?_
    rw [Bool.eq_iff_iff, Bool.not_eq_true', decide_eq_false_iff_not, decide_eq_true_eq,
      Pool.mem_coveredItems]
    push Not
    rfl
  · rcases List.mem_pair.1 hother with rfl | rfl
    · exact audit_congr h (Pool.agree_insert hs)
    · exact audit_congr h (Pool.agree_sdiff hs)

/-- The first half of four items and an itemset from elsewhere, for a transaction in which one of
the other two items is repeated. -/
theorem audit_overlapping_stray :
    ∃ a, audit (SortedSet.ofList [SortedSet.ofList [1, 2], SortedSet.ofList [4, 5]]) overlapping
        [3, 1, 2, 3, 4] = .ok a ∧
      a.valid = false ∧ a.missing = [3, 3, 4] ∧ a.coveredCount + 2 = 4 ∧
      SortedSet.ofList [4, 5] ∈ a.foreign := by
  set covering : Covering := SortedSet.ofList [SortedSet.ofList [1, 2], SortedSet.ofList [4, 5]]
  have hwithin : overlapping.within [3, 1, 2, 3, 4] = overlapping := by
    refine Pool.within_eq_self fun c hc => ?_
    simp only [overlapping, List.mem_cons, List.not_mem_nil, or_false] at hc
    rcases hc with rfl | rfl | rfl <;> exact ⟨by norm_num, by decide⟩
  have hopen := Pool.within_open overlapping_lt_one
  rw [overlapping_within] at hopen
  obtain ⟨a, ha⟩ : ∃ a, audit covering overlapping [3, 1, 2, 3, 4] = .ok a := by
    simp only [audit, hwithin, Pool.cost_eq hopen, Except.map]
    exact ⟨_, rfl⟩
  obtain ⟨hvalid, hforeign, hcount, hmissing, -⟩ := audit_agrees ha
  rw [hwithin] at hforeign hmissing
  have hmissing' : a.missing = [3, 3, 4] := by
    rw [hmissing]
    decide
  refine ⟨a, ha, ?_, hmissing', ?_, (hforeign _).2 ⟨by decide, by decide⟩⟩
  · rw [hvalid, isComplete, hwithin]
    decide
  · obtain ⟨-, -, -, -, -, hexpected⟩ := audit_reports ha
    rw [hexpected, hmissing'] at hcount
    exact hcount

end NoisyCover
