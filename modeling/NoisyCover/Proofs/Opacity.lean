import Mathlib
import NoisyCover.Inference
import NoisyCover.Proofs.Decoding
import NoisyCover.Proofs.Greedy.Steps
import NoisyCover.Proofs.Optimality
import NoisyCover.Proofs.PrimalDual.Progress
import NoisyCover.Proofs.Renaming

/-!
# Items are opaque

Every algorithm treats items as names.  A loop that is run on renamed data passes through the
renamed states of the loop on the original data, whatever the order, the size or the sign of the new
names: each choice compares costs, and positions in the pool and in the transaction, which renaming
keeps.  So inference commutes with renaming, log and all.
-/

namespace NoisyCover

section Renamed

variable {K : Type u} (f : Item → Item)

def Greedy.Pick.rename (p : Greedy.Pick K) : Greedy.Pick K := ⟨p.itemset.image f, p.price⟩

def Greedy.Note.rename : Greedy.Note K → Greedy.Note K
  | .selected pick => .selected (pick.rename f)
  | .incomplete left => .incomplete (left.image f)

def PrimalDual.Visit.rename (v : PrimalDual.Visit K) : PrimalDual.Visit K :=
  ⟨f v.item, v.itemset.image f, v.dual⟩

/-- The same run, with the items renamed in the visits and in the residual costs. -/
def PrimalDual.Run.rename {σ : Type} (r : PrimalDual.Run K σ) : PrimalDual.Run K σ :=
  { r with
    visits := r.visits.map (PrimalDual.Visit.rename f)
    residuals := r.residuals.map (List.map (Candidate.rename f))
    stuck := r.stuck.map fun s => (f s.1, s.2) }

def PrimalDual.Note.rename : PrimalDual.Note K → PrimalDual.Note K
  | .selected visit => .selected (visit.rename f)
  | .incomplete item uncovered => .incomplete (f item) uncovered

def Exact.Note.rename : Exact.Note → Exact.Note
  | .noCovering uncoverable => .noCovering (uncoverable.map f)

def LogEntry.rename : LogEntry K → LogEntry K
  | .greedy note => .greedy (note.rename f)
  | .primalDual note => .primalDual (note.rename f)
  | .solver note => .solver note
  | .exact note => .exact (note.rename f)
  | .randomInstance items itemsets admissible frequency =>
    .randomInstance items itemsets admissible frequency

/-- The same inference, with the items renamed in the covering and in the log. -/
def Inference.rename (r : Inference K) : Inference K :=
  { r with covering := r.covering.rename f, log := r.log.map (LogEntry.rename f) }

end Renamed

theorem Covering.rename_ofList (f : Item → Item) (sets : List Itemset) :
    Covering.rename f (SortedSet.ofList sets) =
      SortedSet.ofList (sets.map (SortedSet.image f)) :=
  SortedSet.image_ofList sets

theorem Covering.rename_union (f : Item → Item) (a b : Covering) :
    Covering.rename f (a ∪ b) = a.rename f ∪ b.rename f :=
  SortedSet.image_union a b

theorem firstLeast_map_congr {K : Type u} [Arithmetic K] {α : Type v} {β : Type w}
    {key : β → Option K} {key' : α → Option K} {f : α → β} {l : List α}
    (h : ∀ a ∈ l, key (f a) = key' a) :
    firstLeast key (l.map f) =
      (firstLeast key' l).map fun found => (f found.1, found.2) := by
  have hsame : firstLeast (fun a => key (f a)) l = firstLeast key' l :=
    List.foldl_ext _ _ none fun best a ha => by rw [better, better, h a ha]
  rw [firstLeast_map, hsame]

namespace Greedy

variable {K : Type u} [Arithmetic K] {f : Item → Item} {U : Set Item} (hf : Set.InjOn f U)
  {candidates : List (Candidate K)} (hcandidates : ∀ c ∈ candidates, c.1.Among U)

include hf hcandidates

theorem choose_rename {covered : SortedSet Item} (hcovered : covered.Among U) :
    choose (candidates.map (Candidate.rename f)) (covered.image f) =
      (choose candidates covered).map fun found => (found.1.rename f, found.2) := by
  refine firstLeast_map_congr fun c hc => ?_
  have hfresh : (c.1.image f \ covered.image f).size = (c.1 \ covered).size := by
    rw [← SortedSet.image_sdiff hf (hcandidates c hc) hcovered]
    exact SortedSet.size_image hf fun i hi => hcandidates c hc i (SortedSet.mem_sdiff.1 hi).1
  simp only [costPerItem, Offer.costPerItem, offer, Candidate.rename, hfresh]
  rfl

theorem picksFrom_rename {items covered : SortedSet Item} (hitems : items.Among U)
    (hcovered : covered.Among U) :
    picksFrom (candidates.map (Candidate.rename f)) (items.image f) (covered.image f) =
      (picksFrom candidates items covered).map (Pick.rename f) := by
  have hsub : ∀ {covered : SortedSet Item}, covered.Among U →
      (items.image f ⊆ covered.image f ↔ items ⊆ covered) :=
    SortedSet.image_subset_image_iff hf hitems
  fun_induction picksFrom candidates items covered with
  | case1 covered h => rw [picksFrom, if_pos ((hsub hcovered).2 h), List.map_nil]
  | case2 covered h hnone =>
    have hchoose := choose_rename hf hcandidates hcovered
    rw [hnone, Option.map_none] at hchoose
    rw [picksFrom_of_choose_eq_none (mt (hsub hcovered).1 h) hchoose, List.map_nil]
  | case3 covered h found hsome ih =>
    have hchoose := choose_rename hf hcandidates hcovered
    rw [hsome, Option.map_some] at hchoose
    have hmem := (firstLeast_mem hsome).1
    have hnext : (covered ∪ found.1.1).Among U := by
      intro i hi
      rcases SortedSet.mem_union.1 hi with hi | hi
      · exact hcovered i hi
      · exact hcandidates _ hmem i hi
    rw [picksFrom_of_choose_eq_some (mt (hsub hcovered).1 h) hchoose, List.map_cons, ← ih hnext,
      SortedSet.image_union]
    rfl

omit [Arithmetic K] hcandidates in
theorem leftover_rename {picks : List (Pick K)} {t : Transaction} (ht : ∀ i ∈ t, i ∈ U)
    (hpicks : ∀ p ∈ picks, p.itemset.Among U) :
    leftover (t.rename f) (picks.map (Pick.rename f)) = (leftover t picks).image f := by
  have hunion : unionOf ((picks.map (Pick.rename f)).map Pick.itemset) =
      (unionOf (picks.map Pick.itemset)).image f := by
    refine unionOf_image fun s => ?_
    rw [List.map_map]
    simp only [List.mem_map, Function.comp_apply, exists_exists_and_eq_and]
    rfl
  have hpicked : (unionOf (picks.map Pick.itemset)).Among U := by
    intro i hi
    obtain ⟨s, hs, hi⟩ := mem_unionOf.1 hi
    obtain ⟨p, hp, rfl⟩ := List.mem_map.1 hs
    exact hpicks p hp i hi
  rw [leftover, hunion, Transaction.items_rename]
  exact (SortedSet.image_sdiff hf (fun i hi => ht i (Transaction.mem_items.1 hi)) hpicked).symm

omit [Arithmetic K] hcandidates in
theorem notes_rename {picks : List (Pick K)} {t : Transaction} (ht : ∀ i ∈ t, i ∈ U)
    (hpicks : ∀ p ∈ picks, p.itemset.Among U) :
    notes (t.rename f) (picks.map (Pick.rename f)) = (notes t picks).map (Note.rename f) := by
  have hleft : (leftover t picks).Among U :=
    fun i hi => ht i (Transaction.mem_items.1 (SortedSet.mem_sdiff.1 hi).1)
  unfold notes
  simp only [leftover_rename hf ht hpicks, SortedSet.size_image hf hleft, List.map_append,
    List.map_map]
  congr 1
  split <;> rfl

end Greedy

namespace PrimalDual

variable {K : Type u} [Arithmetic K] {f : Item → Item} {U : Set Item} (hf : Set.InjOn f U)
  {residuals : List (Candidate K)}

include hf

theorem tightest_rename (hresiduals : ∀ c ∈ residuals, c.1.Among U) {item : Item}
    (hitem : item ∈ U) :
    tightest (f item) (residuals.map (Candidate.rename f)) =
      (tightest item residuals).map fun found => (found.1.rename f, found.2) := by
  refine firstLeast_map_congr fun c hc => ?_
  simp only [residualFor, Candidate.rename,
    SortedSet.mem_image_iff hf hitem (hresiduals c hc)]

theorem lower_rename (hresiduals : ∀ c ∈ residuals, c.1.Among U) {item : Item}
    (hitem : item ∈ U) (dual : K) :
    lower (f item) dual (residuals.map (Candidate.rename f)) =
      (lower item dual residuals).map (Candidate.rename f) := by
  unfold lower
  rw [List.map_map, List.map_map]
  refine List.map_congr_left fun c hc => ?_
  simp only [Function.comp_apply, Candidate.rename,
    SortedSet.mem_image_iff hf hitem (hresiduals c hc)]
  split <;> rfl

theorem dropCovered_rename {s : Itemset} (hs : s.Among U) {uncovered : List Item}
    (huncovered : ∀ i ∈ uncovered, i ∈ U) :
    dropCovered (s.image f) (uncovered.map f) = (dropCovered s uncovered).map f :=
  filter_notMem_rename hf huncovered hs

omit hf [Arithmetic K] in
theorem drawn_map {σ : Type} (source : RandomSource σ) (state : σ) (first : Item)
    (others : List Item) :
    (f first :: others.map f)[(source.index (others.map f).length state).1] =
        f (first :: others)[(source.index others.length state).1] ∧
      (source.index (others.map f).length state).2 = (source.index others.length state).2 := by
  have hdrawn : ∀ {m n : ℕ}, m = n →
      (source.index m state).1.val = (source.index n state).1.val ∧
        (source.index m state).2 = (source.index n state).2 := by
    rintro m _ rfl
    exact ⟨rfl, rfl⟩
  obtain ⟨hindex, hstate⟩ := hdrawn (show (others.map f).length = others.length by simp)
  simp only [← List.map_cons, Fin.getElem_fin, List.getElem_map, hindex, hstate, and_self]

/-- The visits of a renamed run are the renamed visits, and both runs draw alike. -/
theorem visitFrom_rename {σ : Type} (source : RandomSource σ) (state : σ)
    {uncovered : List Item} (huncovered : ∀ i ∈ uncovered, i ∈ U)
    (hresiduals : ∀ c ∈ residuals, c.1.Among U) :
    visitFrom source (uncovered.map f) (residuals.map (Candidate.rename f)) state =
      (visitFrom source uncovered residuals state).rename f := by
  fun_induction visitFrom source uncovered residuals state with
  | case1 residuals state => simp [visitFrom, Run.rename]
  | case2 first others residuals state drawn item hnone =>
    obtain ⟨hitem, hstate⟩ := drawn_map (f := f) source state first others
    have htight := tightest_rename hf hresiduals (huncovered item (List.getElem_mem _))
    rw [hnone, Option.map_none, ← hitem] at htight
    rw [List.map_cons, visitFrom_of_tightest_eq_none source htight, hitem, hstate,
      List.length_map]
    rfl
  | case3 first others residuals state drawn item found hsome ih =>
    obtain ⟨hitem, hstate⟩ := drawn_map (f := f) source state first others
    have hmem := huncovered item (List.getElem_mem _)
    have htight := tightest_rename hf hresiduals hmem
    rw [hsome, Option.map_some, ← hitem] at htight
    have hfound : found.1.1.Among U := hresiduals _ (firstLeast_mem hsome).1
    have hdrop : ∀ i ∈ dropCovered found.1.1 (first :: others), i ∈ U :=
      fun i hi => huncovered i (mem_dropCovered.1 hi).1
    have hlower : ∀ c ∈ lower item found.2 residuals, c.1.Among U := by
      intro c hc
      obtain ⟨c', hc', hfst⟩ := List.mem_map.1 (map_fst_lower item found.2 residuals ▸
        List.mem_map_of_mem (f := Prod.fst) hc)
      rw [← hfst]
      exact hresiduals c' hc'
    rw [List.map_cons, visitFrom_of_tightest_eq_some source htight, hitem, hstate,
      lower_rename hf hresiduals hmem, ← List.map_cons]
    simp only [Candidate.rename]
    rw [dropCovered_rename hf hfound huncovered, ih hdrop hlower]
    rfl

omit [Arithmetic K] hf in
theorem rename_selection {σ : Type} (r : Run K σ) :
    (r.rename f).selection = r.selection.rename f := by
  unfold Run.selection
  rw [Covering.rename_ofList, Run.rename, List.map_map, List.map_map]
  rfl

theorem cost_rename {σ : Type} {r : Run K σ} {candidates : List (Candidate K)}
    (hcandidates : ∀ c ∈ candidates, c.1.Among U)
    (hselection : r.selection.Among {s | s.Among U}) :
    (r.rename f).cost (candidates.map (Candidate.rename f)) = r.cost candidates := by
  have hdual : (r.rename f).dualTotal = r.dualTotal := List.foldl_map
  unfold Run.cost
  rw [hdual, rename_selection]
  refine foldlM_map_congr _ fun c hc x => ?_
  simp only [Candidate.rename,
    Covering.mem_rename_iff hf (hcandidates c hc) hselection]

omit [Arithmetic K] hf in
theorem rename_notes {σ : Type} (r : Run K σ) :
    (r.rename f).notes = r.notes.map (Note.rename f) := by
  unfold Run.notes
  rw [List.map_append, List.map_map, List.map_map, Run.rename, List.map_map]
  rcases r.stuck with _ | s <;> rfl

end PrimalDual

namespace Exact

variable {K : Type u} [Arithmetic K] (f : Item → Item)

theorem decode_rename : ∀ (candidates : List (Candidate K)) (values : List K),
    decode (candidates.map (Candidate.rename f)) values =
      (decode candidates values).map (List.map (SortedSet.image f))
  | [], _ | _ :: _, [] => rfl
  | c :: candidates, v :: values => by
    rw [List.map_cons, decode, decode, decode_rename candidates values]
    rcases Arithmetic.nearestInt v with _ | n
    · rfl
    · rcases decode candidates values with _ | sets
      · rfl
      · show Except.ok _ = Except.ok _
        split_ifs <;> rfl

theorem selection_rename (candidates : List (Candidate K)) (values : Option (List K)) :
    selection (candidates.map (Candidate.rename f)) values =
      (selection candidates values).map (Option.map (Covering.rename f)) := by
  rcases values with _ | values
  · rfl
  · unfold selection
    simp only [decode_rename]
    rcases decode candidates values with _ | sets
    · rfl
    · simp only [Except.map, Option.map_some, Covering.rename_ofList]

end Exact

/-- The solver answers programs with the same numbers alike, whatever items stand behind the
rows. -/
def Solver.DependsOnNumbers {m : Type u → Type v} {K : Type u} (solve : Solver m K) : Prop :=
  ∀ p q : BinaryProgram K, p.objective = q.objective → p.rows = q.rows →
    p.integrality = q.integrality → p.items.length = q.items.length → solve p = solve q

/-- The solver that asks an optimiser depends on numbers only, with or without a log. -/
theorem MilpSolver.solver_dependsOnNumbers {m : Type → Type v} [Monad m] {K : Type}
    [Arithmetic K] (s : MilpSolver) (now : m K) (optimise : Optimiser m K) :
    Solver.DependsOnNumbers (s.solver now optimise) := by
  intro p q hobjective hrows hintegrality hitems
  have hattempt : s.attempt optimise p = s.attempt optimise q := by
    simp only [attempt, BinaryProgram.hasEmptyRow, BinaryProgram.constraintCount,
      BinaryProgram.variableCount, request, hobjective, hrows, hintegrality, hitems]
    rfl
  funext solves
  simp only [solver, solve, hattempt, BinaryProgram.variableCount, hobjective]

section Infer

variable {K : Type u} [Arithmetic K] {f : Item → Item} {U : Set Item} (hf : Set.InjOn f U)
  {pool : Pool K} (hpool : ∀ c ∈ pool.candidates, c.1.Among U) {t : Transaction}
  (ht : ∀ i ∈ t, i ∈ U)

include hf hpool ht

theorem Greedy.picks_rename :
    picks (pool.rename f) (t.rename f) = (picks pool t).map (Pick.rename f) := by
  have hwithin := Pool.among_within hpool t
  rw [picks_eq, picks_eq, within_rename hf hpool ht, Pool.candidates_rename hf hwithin,
    Transaction.items_rename]
  exact picksFrom_rename hf hwithin (fun i hi => ht i (Transaction.mem_items.1 hi))
    fun i hi => absurd hi (SortedSet.notMem_empty i)

theorem Greedy.infer_rename (covering : Covering) :
    infer (covering.rename f) (pool.rename f) (t.rename f) =
      (infer covering pool t).rename f := by
  have hwithin := Pool.among_within hpool t
  have hselection : (selected (picks pool t)).Among {s | s.Among U} :=
    fun s hs => Pool.among_of_mem_itemsets hwithin (mem_itemsets_of_mem_selection hs)
  have hpicks : ∀ p ∈ picks pool t, p.itemset.Among U :=
    fun p hp => hselection _ (mem_selected.2 ⟨p, hp, rfl⟩)
  have hselected : selected ((picks pool t).map (Pick.rename f)) =
      Covering.rename f (selected (picks pool t)) := by
    rw [selected, List.map_map, selected, Covering.rename_ofList, List.map_map]
    rfl
  unfold infer conclude
  simp only [picks_rename hf hpool ht, hselected, within_rename hf hpool ht,
    cost_rename hf hwithin hselection, notes_rename hf ht hpicks, Inference.rename,
    Covering.rename_union, List.map_map]
  rfl

theorem PrimalDual.run_rename {σ : Type} (source : RandomSource σ) (state : σ) :
    run source (pool.rename f) (t.rename f) state = (run source pool t state).rename f := by
  have hwithin := Pool.among_within hpool t
  have hresiduals : ∀ c ∈ initialResiduals (pool.within t).candidates, c.1.Among U := by
    intro r hr
    obtain ⟨c, hc, rfl⟩ := List.mem_map.1 hr
    exact hwithin c hc
  have hinitial : initialResiduals ((pool.within t).candidates.map (Candidate.rename f)) =
      (initialResiduals (pool.within t).candidates).map (Candidate.rename f) := by
    rw [initialResiduals, initialResiduals, List.map_map, List.map_map]
    rfl
  unfold run
  rw [within_rename hf hpool ht, Pool.candidates_rename hf hwithin, hinitial]
  exact visitFrom_rename hf source state ht hresiduals

theorem PrimalDual.infer_rename {σ : Type} (source : RandomSource σ) (state : σ)
    (covering : Covering) :
    infer source (covering.rename f) (pool.rename f) (t.rename f) state =
      ((infer source covering pool t state).1.rename f,
        (infer source covering pool t state).2) := by
  have hwithin := Pool.among_within hpool t
  have hselection : (run source pool t state).selection.Among {s | s.Among U} :=
    fun s hs => Pool.among_of_mem_itemsets hwithin
      (mem_itemsets_of_mem_selection (run_course source pool t state) hs)
  have hcost := cost_rename hf hwithin hselection
  unfold infer conclude
  simp only [run_rename hf hpool ht, within_rename hf hpool ht, Pool.candidates_rename hf hwithin,
    hcost, rename_selection, rename_notes, Inference.rename, List.map_map]
  rcases (run source pool t state).cost (pool.within t).candidates with _ | x
  · rfl
  · simp only [Covering.rename_union]
    rfl

theorem Exact.conclude_rename (covering : Covering) (answer : SolverAnswer K) :
    conclude (covering.rename f) (pool.rename f) (t.rename f) answer =
      (conclude covering pool t answer).rename f := by
  have hwithin := Pool.among_within hpool t
  have hdecoded : answer.values.bind (selection ((pool.within t).rename f).candidates) =
      (answer.values.bind (selection (pool.within t).candidates)).map
        (Option.map (Covering.rename f)) := by
    rw [Pool.candidates_rename hf hwithin]
    rcases answer.values with _ | values
    · rfl
    · exact selection_rename f _ values
  unfold conclude
  simp only [within_rename hf hpool ht, hdecoded]
  rcases hresult : answer.values.bind (selection (pool.within t).candidates)
    with fault | _ | selected
  · simp only [Except.map, Inference.rename, List.map_map]
    rfl
  · have hisolated := isolatedItems_rename hf hwithin ht
    simp only [Except.map, Option.map_none, hisolated, Inference.rename, List.map_append,
      List.map_map]
    rfl
  · have hselected : selected.Among {s | s.Among U} := by
      rcases hvalues : answer.values with _ | values
      · rw [hvalues] at hresult
        cases hresult
      · rw [hvalues] at hresult
        exact fun s hs => Pool.among_of_mem_itemsets hwithin (selection_subset hresult s hs)
    simp only [Except.map, Option.map_some, Inference.rename, Covering.rename_union, List.map_map]
    rw [cost, within_rename hf hpool ht, NoisyCover.cost_rename hf hwithin hselected]
    rfl

theorem Exact.infer_rename {m : Type u → Type v} [Monad m] [LawfulMonad m] {solve : Solver m K}
    (hsolve : Solver.DependsOnNumbers solve) (covering : Covering) :
    infer solve (covering.rename f) (pool.rename f) (t.rename f) =
      Inference.rename f <$> infer solve covering pool t := by
  have hanswer : answer solve (pool.rename f) (t.rename f) = answer solve pool t := by
    unfold answer
    rw [within_rename hf hpool ht, build_rename hf (Pool.among_within hpool t) ht]
    rcases BinaryProgram.build (pool.within t) t with fault | p
    · rfl
    · exact hsolve _ _ rfl rfl rfl (List.length_map f)
  unfold infer
  rw [hanswer, map_bind]
  simp only [conclude_rename hf hpool ht, map_pure]

end Infer

/-- Items are opaque.  A renaming that keeps apart the items of a pool and a transaction gives the
same candidates in the same order with the same probabilities.  It commutes with leaving out what is
not admissible, and changes neither the numbers of the covering program nor the largest degree.
Every algorithm runs on the renamed data as on the original: it reports the same cost or the same
fault, draws alike, and leaves the renamed covering and the renamed log.  If the renaming also keeps
apart the items of a covering, the checks find of the renamed covering what they find of the
original. -/
theorem items_opaque {K : Type u} [Arithmetic K] (pool : Pool K) (t : Transaction)
    (f : Item → Item) (hf : Set.InjOn f (occurring pool t)) :
    (pool.rename f).candidates = pool.candidates.map (Candidate.rename f) ∧
      (pool.rename f).within (t.rename f) = (pool.within t).rename f ∧
      BinaryProgram.build (pool.rename f) (t.rename f) =
        (BinaryProgram.build pool t).map (BinaryProgram.rename f) ∧
      BinaryProgram.build ((pool.rename f).within (t.rename f)) (t.rename f) =
        (BinaryProgram.build (pool.within t) t).map (BinaryProgram.rename f) ∧
      largestItemDegree (pool.rename f) (t.rename f) = largestItemDegree pool t ∧
      (∀ covering : Covering,
        Greedy.infer (covering.rename f) (pool.rename f) (t.rename f) =
          (Greedy.infer covering pool t).rename f) ∧
      (∀ {σ : Type} (source : RandomSource σ) (state : σ) (covering : Covering),
        PrimalDual.infer source (covering.rename f) (pool.rename f) (t.rename f) state =
          ((PrimalDual.infer source covering pool t state).1.rename f,
            (PrimalDual.infer source covering pool t state).2)) ∧
      (∀ {m : Type u → Type v} [Monad m] [LawfulMonad m] (solve : Solver m K),
        Solver.DependsOnNumbers solve → ∀ covering : Covering,
          Exact.infer solve (covering.rename f) (pool.rename f) (t.rename f) =
            Inference.rename f <$> Exact.infer solve covering pool t) ∧
      ∀ covering : Covering, Set.InjOn f (occurring pool t ∪ covering.occurring) →
        isComplete (covering.rename f) (pool.rename f) (t.rename f) = isComplete covering pool t ∧
          audit (covering.rename f) (pool.rename f) (t.rename f) =
            (audit covering pool t).map (Audit.rename f) := by
  have hpool : ∀ c ∈ pool.candidates, c.1.Among (occurring pool t) :=
    fun c hc i hi => .inr ⟨c.1, List.mem_map_of_mem hc, hi⟩
  have ht : ∀ i ∈ t, i ∈ occurring pool t := fun i hi => .inl hi
  refine ⟨Pool.candidates_rename hf hpool, within_rename hf hpool ht, build_rename hf hpool ht, ?_,
    largestItemDegree_rename hf hpool ht, Greedy.infer_rename hf hpool ht,
    PrimalDual.infer_rename hf hpool ht,
    fun solve hsolve => Exact.infer_rename hf hpool ht hsolve, fun covering hchecked => ?_⟩
  · rw [within_rename hf hpool ht]
    exact build_rename hf (Pool.among_within hpool t) ht
  · have hpool' : ∀ c ∈ pool.candidates, c.1.Among (occurring pool t ∪ covering.occurring) :=
      fun c hc i hi => .inl (hpool c hc i hi)
    have ht' : ∀ i ∈ t, i ∈ occurring pool t ∪ covering.occurring := fun i hi => .inl (ht i hi)
    have hcovering : covering.Among {s | s.Among (occurring pool t ∪ covering.occurring)} :=
      fun s hs i hi => .inr ⟨s, hs, hi⟩
    exact ⟨isComplete_rename hchecked hpool' ht' hcovering,
      audit_rename hchecked hpool' ht' hcovering⟩

theorem occurring_overlapping {i : Item} (hi : i ∈ occurring overlapping [1, 2, 3, 4]) :
    1 ≤ i ∧ i ≤ 4 := by
  have hpool : ∀ s ∈ overlapping.itemsets, ∀ j ∈ s.toList, 1 ≤ j ∧ j ≤ 4 := by decide
  rcases hi with hi | ⟨s, hs, hi⟩
  · have ht : ∀ j ∈ ([1, 2, 3, 4] : List Int), 1 ≤ j ∧ j ≤ 4 := by decide
    exact ht i hi
  · exact hpool s hs i hi

theorem exhaustiveSolver_dependsOnNumbers :
    Solver.DependsOnNumbers (exhaustiveSolver : Solver Id ℝ) := by
  intro p q hobjective hrows _ _
  simp only [exhaustiveSolver, feasibleAssignments, BinaryProgram.variableCount, hobjective, hrows]

/-- Four items with their order reversed, by a renaming that is not injective elsewhere. -/
theorem items_opaque_reversed :
    let f : Item → Item := fun i => 5 - min i 5
    ¬ Function.Injective f ∧
      isComplete (halves.rename f) (overlapping.rename f) [4, 3, 2, 1] = true ∧
      (Greedy.infer ∅ (overlapping.rename f) [4, 3, 2, 1]).covering =
        (Greedy.infer ∅ overlapping [1, 2, 3, 4]).covering.rename f ∧
      (PrimalDual.infer RandomSource.last ∅ (overlapping.rename f) [4, 3, 2, 1] ()).1.cost =
        (PrimalDual.infer RandomSource.last ∅ overlapping [1, 2, 3, 4] ()).1.cost ∧
      (Exact.infer (m := Id) exhaustiveSolver ∅ (overlapping.rename f) [4, 3, 2, 1]).cost =
        (Exact.infer (m := Id) exhaustiveSolver ∅ overlapping [1, 2, 3, 4]).cost := by
  intro f
  have hinj : Set.InjOn f {i | 1 ≤ i ∧ i ≤ 4} := by
    intro (i : ℤ) (hi : 1 ≤ i ∧ i ≤ 4) (j : ℤ) (hj : 1 ≤ j ∧ j ≤ 4)
      (h : 5 - min i 5 = 5 - min j 5)
    show (i : ℤ) = j
    omega
  have hoccurring : occurring overlapping [1, 2, 3, 4] ⊆ {i | 1 ≤ i ∧ i ≤ 4} :=
    fun i hi => occurring_overlapping hi
  have hhalves : ∀ s ∈ halves.toList, ∀ i ∈ s.toList, 1 ≤ i ∧ i ≤ 4 := by decide
  have hchecked : occurring overlapping [1, 2, 3, 4] ∪ halves.occurring ⊆
      {i | 1 ≤ i ∧ i ≤ 4} :=
    Set.union_subset hoccurring fun i ⟨s, hs, hi⟩ => hhalves s hs i hi
  obtain ⟨-, -, -, -, -, hgreedy, hprimalDual, hexact, hcheck⟩ :=
    items_opaque overlapping [1, 2, 3, 4] f (hinj.mono hoccurring)
  have hnames : Transaction.rename f [1, 2, 3, 4] = [4, 3, 2, 1] := by decide
  rw [hnames] at hgreedy hprimalDual hexact hcheck
  refine ⟨fun h => absurd (@h 5 6 (by decide)) (by decide), ?_, ?_, ?_, ?_⟩
  · rw [(hcheck halves (hinj.mono hchecked)).1, halves_isComplete]
  · exact congrArg Inference.covering (hgreedy ∅)
  · exact congrArg (fun r => r.1.cost) (hprimalDual RandomSource.last () ∅)
  · have hrun := hexact (m := Id) exhaustiveSolver exhaustiveSolver_dependsOnNumbers ∅
    exact (congrArg Inference.cost hrun :)

end NoisyCover
