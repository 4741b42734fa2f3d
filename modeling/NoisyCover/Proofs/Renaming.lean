import Mathlib
import NoisyCover.Audit
import NoisyCover.BinaryProgram
import NoisyCover.Proofs.Covering

/-!
# Renaming items

A renaming need not be injective everywhere, only on a set `U` that holds all items in play.  There
it keeps apart what is apart, so it commutes with the operations on sets and keeps their sizes, and
by the same lemmas one level up it keeps itemsets apart.  What a pool says of a transaction, its
costs, its covering program and the checks of a covering, is then the same for the renamed ones.
-/

namespace NoisyCover

namespace SortedSet

variable {α β : Type*} [Ord α] [Ord β] [Std.TransOrd β] [Std.LawfulEqOrd β] {f : α → β}

/-- The set of the images of the members. -/
def image (f : α → β) (s : SortedSet α) : SortedSet β := ofList (s.toList.map f)

@[simp] theorem mem_image {s : SortedSet α} {b : β} : b ∈ s.image f ↔ ∃ a ∈ s, f a = b := by
  rw [image, mem_ofList, List.mem_map]
  rfl

theorem image_ofList [Std.TransOrd α] [Std.LawfulEqOrd α] (l : List α) :
    (ofList l).image f = ofList (l.map f) :=
  ext_mem fun b => by simp

theorem image_union [Std.TransOrd α] [Std.LawfulEqOrd α] (s t : SortedSet α) :
    (s ∪ t).image f = s.image f ∪ t.image f :=
  ext_mem fun b => by simp [or_and_right, exists_or]

theorem image_filter {s : SortedSet α} {p : α → Bool} {q : β → Bool}
    (h : ∀ a ∈ s, q (f a) = p a) : (s.filter p).image f = (s.image f).filter q := by
  refine ext_mem fun b => ?_
  simp only [mem_image, mem_filter]
  constructor
  · rintro ⟨a, ⟨ha, hp⟩, rfl⟩
    exact ⟨⟨a, ha, rfl⟩, (h a ha).trans hp⟩
  · rintro ⟨⟨a, ha, rfl⟩, hq⟩
    exact ⟨a, ⟨ha, (h a ha).symm.trans hq⟩, rfl⟩

/-- All members are in `U`. -/
def Among (s : SortedSet α) (U : Set α) : Prop := ∀ a ∈ s, a ∈ U

section Injective

variable {U : Set α} (hf : Set.InjOn f U) {s t : SortedSet α}

include hf

theorem mem_image_iff {a : α} (ha : a ∈ U) (hs : s.Among U) : f a ∈ s.image f ↔ a ∈ s := by
  rw [mem_image]
  constructor
  · rintro ⟨b, hb, h⟩
    rwa [← hf (hs b hb) ha h]
  · exact fun h => ⟨a, h, rfl⟩

theorem image_subset_image_iff (hs : s.Among U) (ht : t.Among U) :
    s.image f ⊆ t.image f ↔ s ⊆ t := by
  constructor
  · exact fun h a ha => (mem_image_iff hf (hs a ha) ht).1 (h _ (mem_image.2 ⟨a, ha, rfl⟩))
  · rintro h b hb
    obtain ⟨a, ha, rfl⟩ := mem_image.1 hb
    exact mem_image.2 ⟨a, h a ha, rfl⟩

theorem size_image [Std.TransOrd α] (hs : s.Among U) : (s.image f).size = s.size := by
  have hnodup : (s.toList.map f).Nodup :=
    s.nodup.map_on fun a ha b hb h => hf (hs a ha) (hs b hb) h
  rw [image, size_ofList_of_nodup hnodup, List.length_map, size]

theorem image_sdiff [DecidableEq α] [DecidableEq β] (hs : s.Among U) (ht : t.Among U) :
    (s \ t).image f = s.image f \ t.image f :=
  image_filter fun a ha => by simp only [mem_image_iff hf (hs a ha) ht]

theorem image_inter [DecidableEq α] [DecidableEq β] (hs : s.Among U) (ht : t.Among U) :
    (s ∩ t).image f = s.image f ∩ t.image f :=
  image_filter fun a ha => by simp only [mem_image_iff hf (hs a ha) ht]

theorem injOn_image [Std.TransOrd α] : Set.InjOn (image f) {s | s.Among U} := by
  intro s hs t ht h
  refine ext_mem fun a => ?_
  constructor
  · intro ha
    rw [← mem_image_iff hf (hs a ha) ht, ← h]
    exact mem_image.2 ⟨a, ha, rfl⟩
  · intro ha
    rw [← mem_image_iff hf (ht a ha) hs, h]
    exact mem_image.2 ⟨a, ha, rfl⟩

end Injective

end SortedSet

section Renamed

variable {K : Type u} (f : Item → Item)

def Candidate.rename (c : Candidate K) : Candidate K := (c.1.image f, c.2)

/-- The pool whose candidates are read with their items renamed, in order. -/
def Pool.rename (pool : Pool K) : Pool K := .ofList (pool.candidates.map (Candidate.rename f))

def Transaction.rename (t : Transaction) : Transaction := t.map f

def Covering.rename (covering : Covering) : Covering := covering.image (SortedSet.image f)

/-- The same numbers, with the items behind the rows renamed. -/
def BinaryProgram.rename (p : BinaryProgram K) : BinaryProgram K :=
  { p with items := p.items.map f }

/-- The same findings, with the items they name renamed. -/
def Audit.rename (a : Audit K) : Audit K :=
  { a with missing := a.missing.map f, foreign := a.foreign.rename f }

end Renamed

section Occurring

variable {K : Type u}

/-- The items that occur in a pool or in a transaction. -/
def occurring (pool : Pool K) (t : Transaction) : Set Item :=
  {i | i ∈ t ∨ ∃ s ∈ pool.itemsets, i ∈ s}

def Covering.occurring (covering : Covering) : Set Item := {i | ∃ s ∈ covering, i ∈ s}

end Occurring

theorem Pool.putIn_of_notMem {K : Type u} {s : Itemset} {p : K} : ∀ {l : List (Candidate K)},
    s ∉ l.map Prod.fst → putIn s p l = l ++ [(s, p)]
  | [], _ => rfl
  | c :: l, h => by
    rw [List.map_cons, List.mem_cons, not_or] at h
    rw [putIn, if_neg (Ne.symm h.1), putIn_of_notMem h.2, List.cons_append]

theorem Pool.candidates_foldl_put {K : Type u} : ∀ {l : List (Candidate K)} {pool : Pool K},
    ((pool.candidates ++ l).map Prod.fst).Nodup →
      (l.foldl (fun pool c => pool.put c.1 c.2) pool).candidates = pool.candidates ++ l
  | [], pool, _ => (List.append_nil _).symm
  | c :: l, pool, h => by
    have hput : (pool.put c.1 c.2).candidates = pool.candidates ++ [c] := by
      refine putIn_of_notMem fun hc => ?_
      rw [List.map_append, List.map_cons] at h
      exact (List.nodup_append.1 h).2.2 _ hc _ (by simp) rfl
    rw [List.append_cons, ← hput] at h ⊢
    exact candidates_foldl_put h

/-- A list of different itemsets is read as it stands. -/
theorem Pool.candidates_ofList {K : Type u} {l : List (Candidate K)}
    (h : (l.map Prod.fst).Nodup) : (ofList l).candidates = l :=
  @candidates_foldl_put K l empty h

theorem foldlM_map_congr {α β γ : Type*} {ε : Type*} {step : γ → β → Except ε γ}
    {step' : γ → α → Except ε γ} {f : α → β} : ∀ {l : List α} (start : γ),
    (∀ a ∈ l, ∀ x, step x (f a) = step' x a) →
      (l.map f).foldlM step start = l.foldlM step' start
  | [], _, _ => rfl
  | a :: l, start, h => by
    rw [List.forall_mem_cons] at h
    rw [List.map_cons, List.foldlM_cons, List.foldlM_cons, h.1]
    rcases step' start a with _ | x
    · rfl
    · exact foldlM_map_congr x h.2

theorem Transaction.items_rename (f : Item → Item) (t : Transaction) :
    (t.rename f).items = t.items.image f :=
  (SortedSet.image_ofList t).symm

theorem unionOf_image {f : Item → Item} {sets renamed : List Itemset}
    (h : ∀ s, s ∈ renamed ↔ ∃ s' ∈ sets, s'.image f = s) :
    unionOf renamed = (unionOf sets).image f := by
  refine SortedSet.ext_mem fun i => ?_
  simp only [mem_unionOf, SortedSet.mem_image, h]
  constructor
  · rintro ⟨_, ⟨s, hs, rfl⟩, hi⟩
    obtain ⟨j, hj, rfl⟩ := SortedSet.mem_image.1 hi
    exact ⟨j, ⟨s, hs, hj⟩, rfl⟩
  · rintro ⟨j, ⟨s, hs, hj⟩, rfl⟩
    exact ⟨s.image f, ⟨s, hs, rfl⟩, SortedSet.mem_image.2 ⟨j, hj, rfl⟩⟩

theorem unionOf_rename (f : Item → Item) (covering : Covering) :
    unionOf (covering.rename f).toList = (unionOf covering.toList).image f :=
  unionOf_image fun _ => SortedSet.mem_image

section Pools

variable {K : Type u} {f : Item → Item} {U : Set Item} (hf : Set.InjOn f U) {pool : Pool K}
  (hpool : ∀ c ∈ pool.candidates, c.1.Among U) {t : Transaction} (ht : ∀ i ∈ t, i ∈ U)

include hpool in
theorem Pool.among_of_mem_itemsets {s : Itemset} (hs : s ∈ pool.itemsets) : s.Among U := by
  obtain ⟨c, hc, rfl⟩ := List.mem_map.1 hs
  exact hpool c hc

include hpool in
theorem Pool.among_within [Arithmetic K] (t : Transaction) :
    ∀ c ∈ (pool.within t).candidates, c.1.Among U :=
  fun c hc => hpool c (mem_within.1 hc).1

include hf

include hpool in
theorem Pool.candidates_rename :
    (pool.rename f).candidates = pool.candidates.map (Candidate.rename f) := by
  refine candidates_ofList ?_
  have hfst : (pool.candidates.map (Candidate.rename f)).map Prod.fst =
      pool.itemsets.map (SortedSet.image f) := by
    rw [itemsets, List.map_map, List.map_map]
    rfl
  rw [hfst]
  refine List.Nodup.map_on (fun s hs s' hs' h => ?_) pool.nodup
  exact SortedSet.injOn_image hf (among_of_mem_itemsets hpool hs)
    (among_of_mem_itemsets hpool hs') h

include hpool in
theorem Pool.mem_itemsets_rename {s : Itemset} (hs : s.Among U) :
    s.image f ∈ (pool.rename f).itemsets ↔ s ∈ pool.itemsets := by
  simp only [itemsets, candidates_rename hf hpool, List.map_map, List.mem_map]
  constructor
  · rintro ⟨c, hc, h⟩
    exact ⟨c, hc, SortedSet.injOn_image hf (hpool c hc) hs h⟩
  · rintro ⟨c, hc, rfl⟩
    exact ⟨c, hc, rfl⟩

theorem Covering.mem_rename_iff {covering : Covering} {s : Itemset} (hs : s.Among U)
    (hcovering : covering.Among {s | s.Among U}) :
    s.image f ∈ covering.rename f ↔ s ∈ covering :=
  SortedSet.mem_image_iff (SortedSet.injOn_image hf) hs hcovering

theorem Covering.size_rename {covering : Covering} (hcovering : covering.Among {s | s.Among U}) :
    (covering.rename f).size = covering.size :=
  SortedSet.size_image (SortedSet.injOn_image hf) hcovering

include hpool in
theorem filter_has_rename {covering : Covering} (hcovering : covering.Among {s | s.Among U}) :
    (covering.rename f).filter (pool.rename f).has =
      Covering.rename f (covering.filter pool.has) := by
  refine (SortedSet.image_filter fun s hs => ?_).symm
  rw [Bool.eq_iff_iff, Pool.has_iff, Pool.has_iff]
  exact Pool.mem_itemsets_rename hf hpool (hcovering s hs)

include ht in
theorem filter_notMem_rename {s : SortedSet Item} (hs : s.Among U) :
    (t.rename f).filter (fun i => !decide (i ∈ s.image f)) =
      (t.filter fun i => !decide (i ∈ s)).map f := by
  rw [Transaction.rename, List.filter_map]
  congr 1
  refine List.filter_congr fun i hi => ?_
  simp only [Function.comp_apply, SortedSet.mem_image_iff hf (ht i hi) hs]

theorem itemDegree_rename (t' t : Transaction) {i : Item} (hi : i ∈ U)
    (hpool : ∀ c ∈ pool.candidates, c.1.Among U) :
    (IncidenceGraph.build (pool.rename f) t').itemDegree (f i) =
      (IncidenceGraph.build pool t).itemDegree i := by
  rw [IncidenceGraph.itemDegree_build, IncidenceGraph.itemDegree_build,
    Pool.candidates_rename hf hpool, List.countP_map]
  refine List.countP_congr fun c hc => ?_
  simp only [Function.comp_apply, decide_eq_true_eq]
  exact SortedSet.mem_image_iff hf hi (hpool c hc)

include hpool ht

theorem largestItemDegree_rename :
    largestItemDegree (pool.rename f) (t.rename f) = largestItemDegree pool t := by
  unfold largestItemDegree
  simp only [Transaction.rename, List.map_map]
  congr 1
  exact List.map_congr_left fun i hi => itemDegree_rename hf _ t (ht i hi) hpool

theorem isolatedItems_rename :
    isolatedItems (pool.rename f) (t.rename f) = (isolatedItems pool t).map f := by
  unfold isolatedItems
  simp only [Transaction.rename, List.filter_map]
  congr 1
  refine List.filter_congr fun i hi => ?_
  simp only [Function.comp_apply, itemDegree_rename hf _ t (ht i hi) hpool]

variable [Arithmetic K]

omit hpool in
theorem isAdmissible_rename {c : Candidate K} (hc : c.1.Among U) :
    Pool.isAdmissible (t.rename f).items (c.rename f) = Pool.isAdmissible t.items c := by
  have hsub : (c.rename f).1 ⊆ (t.rename f).items ↔ c.1 ⊆ t.items := by
    rw [Transaction.items_rename]
    exact SortedSet.image_subset_image_iff hf hc fun i hi => ht i (Transaction.mem_items.1 hi)
  unfold Pool.isAdmissible
  simp only [hsub]
  rfl

theorem within_rename : (pool.rename f).within (t.rename f) = (pool.within t).rename f := by
  have hwithin := Pool.among_within hpool t
  refine Pool.ext_candidates ?_
  rw [Pool.candidates_rename hf hwithin]
  simp only [Pool.within, Pool.candidates_filter, Pool.candidates_rename hf hpool, List.filter_map]
  congr 1
  exact List.filter_congr fun c hc => isAdmissible_rename hf ht (hpool c hc)

omit ht in
theorem cost_rename {covering : Covering} (hcovering : covering.Among {s | s.Among U}) :
    (pool.rename f).cost (covering.rename f) = pool.cost covering := by
  unfold Pool.cost
  rw [Pool.candidates_rename hf hpool]
  refine foldlM_map_congr 0 fun c hc x => ?_
  simp only [candidateCost, Candidate.rename, Covering.mem_rename_iff hf (hpool c hc) hcovering]

theorem build_rename :
    BinaryProgram.build (pool.rename f) (t.rename f) =
      (BinaryProgram.build pool t).map (BinaryProgram.rename f) := by
  have hobjective : (pool.rename f).candidates.mapM (fun c => logOddsAgainst c.2) =
      pool.candidates.mapM fun c => logOddsAgainst c.2 := by
    rw [Pool.candidates_rename hf hpool, List.mapM_map]
    rfl
  have hrow : ∀ i ∈ t, BinaryProgram.rowOf (pool.rename f).candidates (f i) =
      BinaryProgram.rowOf pool.candidates i := by
    intro i hi
    rw [Pool.candidates_rename hf hpool, BinaryProgram.rowOf, List.map_map]
    refine List.map_congr_left fun c hc => ?_
    simp only [Function.comp_apply, Candidate.rename,
      SortedSet.mem_image_iff hf (ht i hi) (hpool c hc)]
  have hrows : (t.rename f).map (BinaryProgram.rowOf (pool.rename f).candidates) =
      t.map (BinaryProgram.rowOf pool.candidates) := by
    rw [Transaction.rename, List.map_map]
    exact List.map_congr_left hrow
  have hsize : (pool.rename f).size = pool.size := by
    rw [Pool.size, Pool.candidates_rename hf hpool, List.length_map, Pool.size]
  unfold BinaryProgram.build
  rw [hobjective, hrows, hsize]
  cases pool.candidates.mapM (fun c => logOddsAgainst c.2) <;> rfl

theorem isComplete_rename {covering : Covering} (hcovering : covering.Among {s | s.Among U}) :
    isComplete (covering.rename f) (pool.rename f) (t.rename f) = isComplete covering pool t := by
  have hwithin := Pool.among_within hpool t
  rw [Bool.eq_iff_iff, isComplete_iff, isComplete_iff, within_rename hf hpool ht]
  refine and_congr ?_ ?_
  · simp only [Covering.rename, SortedSet.mem_image, forall_exists_index, and_imp,
      forall_apply_eq_imp_iff₂]
    exact forall₂_congr fun s hs => Pool.mem_itemsets_rename hf hwithin (hcovering s hs)
  · simp only [Covering.rename, SortedSet.mem_image, Transaction.rename, List.mem_map,
      forall_exists_index, and_imp, forall_apply_eq_imp_iff₂, exists_exists_and_eq_and]
    refine forall₂_congr fun i hi => exists_congr fun s => and_congr_right fun hs => ?_
    rw [← SortedSet.mem_image]
    exact SortedSet.mem_image_iff hf (ht i hi) (hcovering s hs)

theorem audit_rename {covering : Covering} (hcovering : covering.Among {s | s.Among U}) :
    audit (covering.rename f) (pool.rename f) (t.rename f) =
      (audit covering pool t).map (Audit.rename f) := by
  have hwithin := Pool.among_within hpool t
  have hitems : t.items.Among U := fun i hi => ht i (Transaction.mem_items.1 hi)
  unfold audit
  simp only [within_rename hf hpool ht, cost_rename hf hwithin hcovering,
    filter_has_rename hf hwithin hcovering, unionOf_rename, Transaction.items_rename]
  set own : Covering := covering.filter (pool.within t).has
  set covered := unionOf own.toList
  have hown : own.Among {s | s.Among U} := fun s hs => hcovering s (SortedSet.mem_filter.1 hs).1
  have hcovered : covered.Among U := by
    intro i hi
    obtain ⟨s, hs, hi⟩ := mem_unionOf.1 hi
    exact hown s hs i hi
  have hforeign : (covering \ own).Among {s | s.Among U} :=
    fun s hs => hcovering s (SortedSet.mem_sdiff.1 hs).1
  have hinter : (covered ∩ t.items).Among U :=
    fun i hi => hcovered i (SortedSet.mem_inter.1 hi).1
  have hsdiff : covering.rename f \ own.rename f = Covering.rename f (covering \ own) :=
    (SortedSet.image_sdiff (SortedSet.injOn_image hf) hcovering hown).symm
  rw [hsdiff, filter_notMem_rename hf ht hcovered, ← SortedSet.image_inter hf hcovered hitems,
    Covering.size_rename hf hforeign, Covering.size_rename hf hcovering,
    SortedSet.size_image hf hinter, SortedSet.size_image hf hitems, List.isEmpty_map]
  cases (pool.within t).cost covering <;> rfl

end Pools

end NoisyCover
