import Mathlib
import NoisyCover.Proofs.Charges
import NoisyCover.Proofs.Random.Sampling
import NoisyCover.Proofs.Random.Uniform
import NoisyCover.Proofs.Renaming

/-!
# The draws of a random instance

A sampler is faithful when its draws keep to what was asked for (`Sampler.IsFaithful`); the
generator that runs is (`twisterSampler_isFaithful`).  The pool of a random instance collects its
draws: singletons first, one for each item, then larger itemsets, each with the probability that was
drawn when it first came (`random_isDrawn`).  It is enough that the sampler is faithful, so that
holds for every state the generator may start from.
-/

namespace NoisyCover

section Collecting

variable {K : Type u} {c : Candidate K}

theorem find?_of_mem : ∀ {l : List (Candidate K)}, (l.map Prod.fst).Nodup → c ∈ l →
    l.find? (fun d => decide (d.1 = c.1)) = some c
  | d :: l, hnodup, h => by
    rw [List.map_cons, List.nodup_cons] at hnodup
    rcases List.mem_cons.1 h with rfl | h
    · simp
    · have hne : d.1 ≠ c.1 := fun heq => hnodup.1 (heq ▸ List.mem_map_of_mem h)
      simpa [hne] using find?_of_mem hnodup.2 h

theorem Pool.candidates_putNew (pool : Pool K) (d : Candidate K) :
    (pool.putNew d.1 d.2).candidates =
      if d.1 ∈ pool.itemsets then pool.candidates else pool.candidates ++ [d] := by
  unfold putNew
  by_cases h : d.1 ∈ pool.itemsets
  · simp [h]
  · simpa [h, put] using putIn_of_notMem h

theorem Pool.exists_candidates_eq_append : ∀ (l : List (Candidate K)) (pool : Pool K),
    ∃ new, (l.foldl (fun pool c => pool.putNew c.1 c.2) pool).candidates = pool.candidates ++ new ∧
      new.Sublist l
  | [], pool => ⟨[], (List.append_nil _).symm, .slnil⟩
  | d :: l, pool => by
    obtain ⟨new, hnew, hsub⟩ := exists_candidates_eq_append l (pool.putNew d.1 d.2)
    rw [List.foldl_cons, hnew, candidates_putNew]
    split_ifs
    · exact ⟨new, rfl, hsub.cons d⟩
    · exact ⟨d :: new, List.append_assoc .., hsub.cons_cons d⟩

/-- Every itemset that comes is in the pool afterwards. -/
theorem Pool.mem_itemsets_foldl_putNew {s : Itemset} : ∀ {l : List (Candidate K)} {pool : Pool K},
    s ∈ (l.foldl (fun pool c => pool.putNew c.1 c.2) pool).itemsets ↔
      s ∈ l.map Prod.fst ∨ s ∈ pool.itemsets
  | [], _ => by simp
  | d :: l, pool => by
    have hput : s ∈ (pool.putNew d.1 d.2).itemsets ↔ s = d.1 ∨ s ∈ pool.itemsets := by
      rw [Pool.itemsets, candidates_putNew]
      split_ifs with hd
      · exact ⟨.inr, fun h => h.elim (fun heq => heq ▸ hd) id⟩
      · rw [List.map_append, List.mem_append, or_comm]
        exact or_congr_left List.mem_singleton
    rw [List.foldl_cons, mem_itemsets_foldl_putNew, hput, List.map_cons, List.mem_cons]
    tauto

/-- Every candidate is the first one with its itemset. -/
theorem Pool.find?_eq_of_mem_foldl_putNew : ∀ (l : List (Candidate K)) (pool : Pool K),
    c ∈ (l.foldl (fun pool c => pool.putNew c.1 c.2) pool).candidates →
      (pool.candidates ++ l).find? (fun d => decide (d.1 = c.1)) = some c
  | [], pool, h => by
    rw [List.append_nil]
    exact find?_of_mem pool.nodup h
  | d :: l, pool, h => by
    have ih := find?_eq_of_mem_foldl_putNew l _ h
    rw [candidates_putNew] at ih
    split_ifs at ih with hd
    · -- a known itemset is left out, and looking for it stops before it would have come
      rw [List.find?_append] at ih ⊢
      rcases hfind : pool.candidates.find? fun d => decide (d.1 = c.1) with _ | x
      · have hne : d.1 ≠ c.1 := by
          rintro heq
          obtain ⟨x, hx, hxd⟩ := List.mem_map.1 hd
          have := List.find?_eq_none.1 hfind x hx
          simp [hxd, heq] at this
        simpa [hfind, hne] using ih
      · simpa [hfind] using ih
    · simpa using ih

theorem Pool.find?_eq_of_mem_new {l new : List (Candidate K)} {pool : Pool K}
    (h : (l.foldl (fun pool c => pool.putNew c.1 c.2) pool).candidates = pool.candidates ++ new)
    (hc : c ∈ new) : l.find? (fun d => decide (d.1 = c.1)) = some c := by
  have hnodup := (l.foldl (fun pool c => pool.putNew c.1 c.2) pool).nodup
  have hfirst := find?_eq_of_mem_foldl_putNew l pool (h ▸ List.mem_append_right _ hc)
  rw [h, List.map_append, List.nodup_append] at hnodup
  have hnone : pool.candidates.find? (fun d => decide (d.1 = c.1)) = none :=
    List.find?_eq_none.2 fun d hd hkey => hnodup.2.2 _ (List.mem_map_of_mem hd) _
      (List.mem_map_of_mem hc) (of_decide_eq_true hkey)
  rwa [List.find?_append, hnone, Option.none_or] at hfirst

end Collecting

section Faithful

variable {σ : Type} {K : Type u}

/-- A sampler whose draws keep to what was asked for: to a range of probabilities, to the ends of a
range of numbers, which only fails when it is empty, and to the members of a list, each of them at
most once. -/
structure Sampler.IsFaithful [LE K] (sampler : Sampler σ K)
    (range : Instance.ProbabilityRange K) : Prop where
  uniform_mem : ∀ state, range.low ≤ (sampler.uniform range.low range.high state).1 ∧
    (sampler.uniform range.low range.high state).1 ≤ range.high
  between_mem : ∀ {low high k : ℕ} {state state' : σ},
    sampler.between low high state = .ok (k, state') → low ≤ k ∧ k ≤ high
  between_fault : ∀ {low high : ℕ} {state : σ} {fault : Fault},
    sampler.between low high state = .error fault →
      high < low ∧ fault = .emptyRange low (high + 1)
  sample_mem : ∀ {population : List Item} {count : ℕ}, population.Nodup →
    count ≤ population.length → ∀ state, (sampler.sample population count state).1.length = count ∧
      (sampler.sample population count state).1.Nodup ∧
      ∀ i ∈ (sampler.sample population count state).1, i ∈ population

theorem Instance.twisterSampler_isFaithful : twisterSampler.IsFaithful probabilities where
  uniform_mem := uniform_mem_probabilities
  between_mem {low high k state state'} h := by
    unfold twisterSampler at h
    dsimp only at h
    split_ifs at h
    obtain ⟨rfl, -⟩ := Prod.mk.inj (Except.ok.inj h)
    have hlt := (Twister.source.index (high - low) state).1.isLt
    omega
  between_fault {low high state fault} h := by
    unfold twisterSampler at h
    dsimp only at h
    split_ifs at h with hempty
    exact ⟨hempty, (Except.error.inj h).symm⟩
  sample_mem {population count} hnodup hcount state := by
    obtain ⟨hlength, l, hperm, hsub⟩ := Twister.source.sample_subperm population count state hcount
    exact ⟨hlength, hperm.nodup (hnodup.sublist hsub), fun i hi => hsub.subset (hperm.mem_iff.2 hi)⟩

end Faithful

namespace Instance

section Ranges

variable {n i : ℤ}

theorem mem_rangeTo : i ∈ rangeTo n ↔ 0 ≤ i ∧ i < n := by
  rw [rangeTo, List.mem_map]
  constructor
  · rintro ⟨k, hk, rfl⟩
    have := List.mem_range.1 hk
    rw [Int.ofNat_eq_natCast]
    omega
  · rintro ⟨h0, h⟩
    exact ⟨i.toNat, List.mem_range.2 (by omega), Int.toNat_of_nonneg h0⟩

theorem nodup_rangeTo (n : ℤ) : (rangeTo n).Nodup :=
  List.nodup_range.map fun _ _ => Int.ofNat.inj

theorem length_rangeTo (n : ℤ) : (rangeTo n).length = n.toNat := by
  rw [rangeTo, List.length_map, List.length_range]

end Ranges

section Draws

variable {σ : Type} {K : Type u} (sampler : Sampler σ K) (range : ProbabilityRange K)

/-- A singleton for every item, with the probabilities drawn for them in turn. -/
def drawSingletons : List Item → σ → List (Candidate K) × σ
  | [], state => ([], state)
  | i :: items, state =>
    let (p, state) := sampler.uniform range.low range.high state
    let (more, state) := drawSingletons items state
    ((SortedSet.ofList [i], p) :: more, state)

/-- So many random itemsets, with the probabilities drawn for them in turn. -/
def drawSets (population : List Item) (largest : ℕ) :
    ℕ → σ → Except Fault (List (Candidate K) × σ)
  | 0, state => .ok ([], state)
  | count + 1, state =>
    (sampler.between 2 largest state).bind fun (size, state) =>
      let (items, state) := sampler.sample population size state
      let (p, state) := sampler.uniform range.low range.high state
      (drawSets population largest count state).map fun (more, state) =>
        ((SortedSet.ofList items, p) :: more, state)

theorem addSingletons_eq : ∀ (items : List Item) (pool : Pool K) (state : σ),
    addSingletons sampler range items (pool, state) =
      ((drawSingletons sampler range items state).1.foldl (fun pool c => pool.put c.1 c.2) pool,
        (drawSingletons sampler range items state).2)
  | [], _, _ => rfl
  | _ :: items, _, _ => addSingletons_eq items _ _

theorem addRandomSets_eq (population : List Item) (largest : ℕ) :
    ∀ (count : ℕ) (pool : Pool K) (state : σ),
      addRandomSets sampler range population largest count (pool, state) =
        (drawSets sampler range population largest count state).map fun drawn =>
          (drawn.1.foldl (fun pool c => pool.putNew c.1 c.2) pool, drawn.2)
  | 0, _, _ => rfl
  | count + 1, pool, state => by
    unfold addRandomSets drawSets
    rcases sampler.between 2 largest state with fault | ⟨size, drawn⟩
    · rfl
    · refine (addRandomSets_eq population largest count _ _).trans ?_
      simp only [Except.bind]
      rcases drawSets sampler range population largest count _ with fault | more <;> rfl

/-- The first of some random itemsets, and the others. -/
theorem exists_of_drawSets_succ {population : List Item} {largest count : ℕ} {state : σ}
    {drawn : List (Candidate K) × σ}
    (hok : drawSets sampler range population largest (count + 1) state = .ok drawn) :
    ∃ size sized, sampler.between 2 largest state = .ok (size, sized) ∧
      ∃ rest, drawSets sampler range population largest count
          (sampler.uniform range.low range.high (sampler.sample population size sized).2).2 =
            .ok rest ∧
        drawn.1 = (SortedSet.ofList (sampler.sample population size sized).1,
          (sampler.uniform range.low range.high (sampler.sample population size sized).2).1) ::
            rest.1 := by
  obtain ⟨⟨size, sized⟩, hbetween, hrest⟩ := bind_eq_ok_iff.1 hok
  obtain ⟨rest, hsets, rfl⟩ := map_eq_ok_iff.1 hrest
  exact ⟨size, sized, hbetween, rest, hsets, rfl⟩

theorem length_drawSets {population : List Item} {largest : ℕ} : ∀ {count : ℕ} {state : σ}
    {drawn : List (Candidate K) × σ},
    drawSets sampler range population largest count state = .ok drawn → drawn.1.length = count
  | 0, _, _, hok => by
    obtain rfl := Except.ok.inj hok
    rfl
  | count + 1, _, _, hok => by
    obtain ⟨_, _, -, rest, hrest, hdrawn⟩ := exists_of_drawSets_succ sampler range hok
    rw [hdrawn, List.length_cons, length_drawSets hrest]

theorem map_fst_drawSingletons : ∀ (items : List Item) (state : σ),
    (drawSingletons sampler range items state).1.map Prod.fst =
      items.map fun i => SortedSet.ofList [i]
  | [], _ => rfl
  | _ :: items, _ => congrArg _ (map_fst_drawSingletons items _)

theorem nodup_drawSingletons {items : List Item} (hnodup : items.Nodup) (state : σ) :
    ((drawSingletons sampler range items state).1.map Prod.fst).Nodup := by
  rw [map_fst_drawSingletons]
  refine hnodup.map fun i j h => ?_
  have hi : i ∈ SortedSet.ofList [i] := SortedSet.mem_ofList.2 List.mem_cons_self
  rw [h] at hi
  exact List.mem_singleton.1 (SortedSet.mem_ofList.1 hi)

variable [LE K] {sampler range} (h : sampler.IsFaithful range)

include h

theorem mem_drawSingletons : ∀ (items : List Item) (state : σ),
    ∀ c ∈ (drawSingletons sampler range items state).1, range.low ≤ c.2 ∧ c.2 ≤ range.high
  | [], _ => by simp [drawSingletons]
  | _ :: items, state =>
    List.forall_mem_cons.2 ⟨h.uniform_mem state, mem_drawSingletons items _⟩

theorem mem_drawSets {population : List Item} {largest : ℕ} (hnodup : population.Nodup)
    (hle : largest ≤ population.length) : ∀ {count : ℕ} {state : σ}
      {drawn : List (Candidate K) × σ},
      drawSets sampler range population largest count state = .ok drawn →
        ∀ c ∈ drawn.1, (range.low ≤ c.2 ∧ c.2 ≤ range.high) ∧ 2 ≤ c.1.size ∧
          c.1.size ≤ largest ∧ ∀ i ∈ c.1, i ∈ population
  | 0, _, _, hok => by
    obtain rfl := Except.ok.inj hok
    simp
  | count + 1, _, _, hok => by
    obtain ⟨size, sized, hbetween, rest, hrest, hdrawn⟩ := exists_of_drawSets_succ _ _ hok
    obtain ⟨hlow, hhigh⟩ := h.between_mem hbetween
    obtain ⟨hlength, hdistinct, hmem⟩ := h.sample_mem hnodup (hhigh.trans hle) sized
    rw [hdrawn]
    refine List.forall_mem_cons.2 ⟨⟨h.uniform_mem _, ?_⟩, mem_drawSets hnodup hle hrest⟩
    rw [SortedSet.size_ofList_of_nodup hdistinct, hlength]
    exact ⟨hlow, hhigh, fun i hi => hmem i (SortedSet.mem_ofList.1 hi)⟩

theorem drawSets_eq_error {population : List Item} {largest : ℕ} {fault : Fault} :
    ∀ {count : ℕ} {state : σ},
      drawSets sampler range population largest count state = .error fault →
        largest < 2 ∧ 0 < count ∧ fault = .emptyRange 2 (largest + 1)
  | 0, _, herror => by cases herror
  | count + 1, state, herror => by
    rcases bind_eq_error_iff.1 herror with hbetween | ⟨⟨size, sized⟩, hbetween, hrest⟩
    · obtain ⟨hempty, heq⟩ := h.between_fault hbetween
      exact ⟨hempty, count.succ_pos, heq⟩
    · have hsize := h.between_mem hbetween
      have hlarge := (drawSets_eq_error (map_eq_error_iff.1 hrest)).1
      omega

/-- Random itemsets are drawn unless there is no size for one. -/
theorem drawSets_eq_error_iff {population : List Item} {largest count : ℕ} {state : σ}
    {fault : Fault} :
    drawSets sampler range population largest count state = .error fault ↔
      largest < 2 ∧ 0 < count ∧ fault = .emptyRange 2 (largest + 1) := by
  refine ⟨drawSets_eq_error h, fun ⟨hsmall, hcount, heq⟩ => ?_⟩
  rcases hdrawn : drawSets sampler range population largest count state with fault' | drawn
  · rw [heq, (drawSets_eq_error h hdrawn).2.2]
  · obtain ⟨n, rfl⟩ := Nat.exists_eq_succ_of_ne_zero hcount.ne'
    obtain ⟨size, sized, hbetween, -⟩ := exists_of_drawSets_succ _ _ hdrawn
    have hsize := h.between_mem hbetween
    omega

end Draws

section Pools

variable {σ : Type} {K : Type u} {sampler : Sampler σ K} {range : ProbabilityRange K}
  {itemCount setCount : ℤ} {state : σ} {problem : Instance K}

/-- The draws of a random instance: its singletons and its random itemsets. -/
def draws (sampler : Sampler σ K) (range : ProbabilityRange K) (itemCount setCount : ℤ)
    (state : σ) : Except Fault (List (Candidate K) × List (Candidate K)) :=
  let population := rangeTo (itemCount + 2)
  let (singletons, state) := drawSingletons sampler range (rangeTo itemCount) state
  (drawSets sampler range population (min 4 population.length) setCount.toNat state).map
    fun sets => (singletons, sets.1)

theorem random_eq (sampler : Sampler σ K) (range : ProbabilityRange K) (itemCount setCount : ℤ)
    (state : σ) :
    random sampler range itemCount setCount state =
      (draws sampler range itemCount setCount state).map fun drawn =>
        ⟨rangeTo itemCount, drawn.2.foldl (fun pool c => pool.putNew c.1 c.2)
          (Pool.ofList drawn.1)⟩ := by
  unfold random draws
  simp only [addSingletons_eq, addRandomSets_eq]
  rcases drawSets sampler range _ _ _ (drawSingletons sampler range (rangeTo itemCount) state).2
    with fault | sets <;> rfl

variable [LE K]

/-- What a random instance is made of.  Its pool has the singletons that were drawn, in the order of
the transaction, and then every larger itemset that was drawn, once, with the probability that was
drawn when it first came. -/
structure IsDrawn (problem : Instance K) (range : ProbabilityRange K)
    (drawn : List (Candidate K) × List (Candidate K)) (itemCount setCount : ℤ) : Prop where
  transaction_eq : problem.transaction = (List.range itemCount.toNat).map Int.ofNat
  singletons_eq : drawn.1.map Prod.fst = problem.transaction.map fun i => SortedSet.ofList [i]
  candidates_eq : ∃ larger, problem.pool.candidates = drawn.1 ++ larger ∧
    ∀ c ∈ larger, 2 ≤ c.1.size ∧ (c.1.size : ℤ) ≤ min 4 (itemCount + 2) ∧
      (∀ i ∈ c.1, 0 ≤ i ∧ i < itemCount + 2) ∧
      drawn.2.find? (fun d => decide (d.1 = c.1)) = some c
  probability_mem : ∀ c ∈ problem.pool.candidates, range.low ≤ c.2 ∧ c.2 ≤ range.high
  length_eq : drawn.2.length = setCount.toNat
  itemset_mem : ∀ c ∈ drawn.2, c.1 ∈ problem.pool.itemsets
  size_le : (problem.pool.size : ℤ) ≤ max 0 itemCount + max 0 setCount

omit [LE K] in
theorem exists_of_draws {drawn : List (Candidate K) × List (Candidate K)}
    (hok : draws sampler range itemCount setCount state = .ok drawn) :
    drawn.1 = (drawSingletons sampler range (rangeTo itemCount) state).1 ∧
      ∃ last, drawSets sampler range (rangeTo (itemCount + 2))
        (min 4 (rangeTo (itemCount + 2)).length) setCount.toNat
        (drawSingletons sampler range (rangeTo itemCount) state).2 = .ok (drawn.2, last) := by
  obtain ⟨⟨sets, last⟩, hsets, rfl⟩ := map_eq_ok_iff.1 hok
  exact ⟨rfl, last, hsets⟩

/-- Random itemsets cannot be drawn from fewer than two items, and nothing else fails. -/
theorem random_eq_error_iff (h : sampler.IsFaithful range) {fault : Fault} :
    random sampler range itemCount setCount state = .error fault ↔
      itemCount < 0 ∧ 0 < setCount ∧ fault = .emptyRange 2 ((itemCount + 2).toNat + 1) := by
  rw [random_eq, map_eq_error_iff, draws, map_eq_error_iff, drawSets_eq_error_iff h,
    length_rangeTo]
  constructor
  · rintro ⟨hsmall, hcount, rfl⟩
    rw [min_eq_right (by omega)]
    exact ⟨by omega, by omega, rfl⟩
  · rintro ⟨hneg, hcount, rfl⟩
    rw [min_eq_right (by omega)]
    exact ⟨by omega, by omega, rfl⟩

theorem random_isDrawn (h : sampler.IsFaithful range)
    (hok : random sampler range itemCount setCount state = .ok problem) :
    ∃ drawn, draws sampler range itemCount setCount state = .ok drawn ∧
      problem.IsDrawn range drawn itemCount setCount := by
  rw [random_eq] at hok
  obtain ⟨drawn, hdraws, rfl⟩ := map_eq_ok_iff.1 hok
  refine ⟨drawn, hdraws, ?_⟩
  obtain ⟨hfirst, last, hsets⟩ := exists_of_draws hdraws
  have hpopulation := length_rangeTo (itemCount + 2)
  have hlength : drawn.2.length = setCount.toNat := length_drawSets sampler range hsets
  have hdrawn := mem_drawSets h (nodup_rangeTo (itemCount + 2)) (min_le_right 4 _) hsets
  have hkeys : drawn.1.map Prod.fst = (rangeTo itemCount).map fun i => SortedSet.ofList [i] := by
    rw [hfirst, map_fst_drawSingletons]
  have hpool : (Pool.ofList drawn.1).candidates = drawn.1 := by
    rw [hfirst]
    exact Pool.candidates_ofList
      (nodup_drawSingletons sampler range (nodup_rangeTo itemCount) state)
  obtain ⟨larger, hlarger, hsub⟩ := Pool.exists_candidates_eq_append drawn.2 (Pool.ofList drawn.1)
  rw [hpool] at hlarger
  refine ⟨rfl, hkeys, ⟨larger, hlarger, fun c hc => ?_⟩, ?_, hlength, ?_, ?_⟩
  · obtain ⟨-, hsize, hlargest, hitems⟩ := hdrawn c (hsub.subset hc)
    refine ⟨hsize, by omega, fun i hi => mem_rangeTo.1 (hitems i hi), ?_⟩
    exact Pool.find?_eq_of_mem_new (hlarger.trans (by rw [hpool])) hc
  · rw [hlarger, List.forall_mem_append]
    refine ⟨?_, fun c hc => (hdrawn c (hsub.subset hc)).1⟩
    rw [hfirst]
    exact mem_drawSingletons h _ state
  · exact fun c hc => Pool.mem_itemsets_foldl_putNew.2 (.inl (List.mem_map_of_mem hc))
  · have hitems : drawn.1.length = itemCount.toNat := by
      rw [← List.length_map Prod.fst, hkeys, List.length_map, length_rangeTo]
    have hle := hsub.length_le
    rw [Pool.size, hlarger, List.length_append]
    omega

theorem IsDrawn.singleton_mem {drawn : List (Candidate K) × List (Candidate K)}
    (h : problem.IsDrawn range drawn itemCount setCount) {i : Item}
    (hi : i ∈ problem.transaction) : SortedSet.ofList [i] ∈ problem.pool.itemsets := by
  obtain ⟨larger, hlarger, -⟩ := h.candidates_eq
  rw [Pool.itemsets, hlarger, List.map_append, h.singletons_eq]
  exact List.mem_append_left _ (List.mem_map_of_mem hi)

end Pools

end Instance

end NoisyCover
