import NoisyCover.Cost
import NoisyCover.FirstLeast

/-!
# Greedy covering

Each step selects the candidate that is cheapest per item it newly covers, and the first such
candidate in pool order.  The steps end when every item is covered or no candidate covers anything
new; what is left over then stays unexplained.
-/

namespace NoisyCover.Greedy

variable {K : Type u}

/-- One step: the itemset selected and its cost per newly covered item. -/
structure Pick (K : Type u) where
  itemset : Itemset
  price : K

def selected (picks : List (Pick K)) : Covering := SortedSet.ofList (picks.map Pick.itemset)

/-- A candidate with those of its items that are still uncovered. -/
structure Offer (K : Type u) where
  candidate : Candidate K
  fresh : SortedSet Item

def offer (covered : SortedSet Item) (c : Candidate K) : Offer K := ⟨c, c.1 \ covered⟩

section Steps
variable [Arithmetic K]

/-- The cost of an offer per item it newly covers; nothing if it covers nothing new. -/
def Offer.costPerItem (o : Offer K) : Option K :=
  if o.fresh.size = 0 then none
  else some (selectionCost o.candidate.2 / (o.fresh.size : K))

/-- The cost of a candidate per item it newly covers. -/
def costPerItem (covered : SortedSet Item) (c : Candidate K) : Option K :=
  (offer covered c).costPerItem

/-- The candidate a step selects, with its cost per newly covered item. -/
def choose (candidates : List (Candidate K)) (covered : SortedSet Item) :
    Option (Candidate K × K) :=
  firstLeast (costPerItem covered) candidates

/-- The candidates that still cover something new. -/
def useful (candidates : List (Candidate K)) (covered : SortedSet Item) : List (Candidate K) :=
  candidates.filter (fun c => decide ((c.1 \ covered).size ≠ 0))

omit [Arithmetic K] in
private theorem size_sdiff_union {s t covered : SortedSet Item}
    (h : (s \ (covered ∪ t)).size ≠ 0) : (s \ covered).size ≠ 0 := by
  intro e
  refine h (SortedSet.size_eq_zero_iff.2 fun a ha => SortedSet.size_eq_zero_iff.1 e a ?_)
  simp only [SortedSet.mem_sdiff, SortedSet.mem_union, not_or] at ha
  simp [ha.1, ha.2.1]

omit [Arithmetic K] in
private theorem size_sdiff_union_self (s covered : SortedSet Item) :
    (s \ (covered ∪ s)).size = 0 := by
  refine SortedSet.size_eq_zero_iff.2 fun a ha => ?_
  simp only [SortedSet.mem_sdiff, SortedSet.mem_union, not_or] at ha
  exact ha.2.2 ha.1

omit [Arithmetic K] in
private theorem length_filter_lt {α : Type u} {p q : α → Bool} {l : List α}
    (hsub : ∀ x, q x = true → p x = true) {a : α} (ha : a ∈ l) (hp : p a = true)
    (hq : q a = false) : (l.filter q).length < (l.filter p).length := by
  have hle : ∀ m : List α, (m.filter q).length ≤ (m.filter p).length := by
    intro m
    induction m with
    | nil => simp
    | cons x m ih =>
      by_cases hx : q x = true
      · simp [hx, hsub x hx, ih]
      · by_cases hy : p x = true <;> simp [hx, hy] <;> omega
  induction l with
  | nil => simp at ha
  | cons x l ih =>
    rcases List.mem_cons.1 ha with rfl | ha
    · have := hle l
      simp [hp, hq]
      omega
    · have := ih ha
      by_cases hx : q x = true
      · simp [hx, hsub x hx, this]
      · by_cases hy : p x = true <;> simp [hx, hy] <;> omega

/-- A selected candidate covers something new before its step and nothing new after it. -/
theorem length_useful_lt {candidates : List (Candidate K)} {covered : SortedSet Item}
    {found : Candidate K × K} (h : choose candidates covered = some found) :
    (useful candidates (covered ∪ found.1.1)).length < (useful candidates covered).length := by
  obtain ⟨hm, hk⟩ := firstLeast_mem h
  have hnew : (found.1.1 \ covered).size ≠ 0 := by
    intro e
    simp [costPerItem, Offer.costPerItem, offer, e] at hk
  refine length_filter_lt (fun c hc => ?_) hm ?_ ?_
  · simp only [decide_eq_true_eq] at hc ⊢
    exact size_sdiff_union hc
  · simpa using hnew
  · simp [size_sdiff_union_self]

/-- The steps taken from a set of items covered so far. -/
def picksFrom (candidates : List (Candidate K)) (items covered : SortedSet Item) :
    List (Pick K) :=
  if items ⊆ covered then []
  else
    match _h : choose candidates covered with
    | none => []
    | some found =>
      ⟨found.1.1, found.2⟩ :: picksFrom candidates items (covered ∪ found.1.1)
termination_by (useful candidates covered).length
decreasing_by exact length_useful_lt _h

/-- Takes items off what the offers newly cover. -/
def withdraw (items : SortedSet Item) (offers : List (Offer K)) : List (Offer K) :=
  offers.map (fun o => { o with fresh := o.fresh \ items })

/-- A selected offer covers something new before its step and nothing new after it. -/
theorem length_withdraw_lt {offers : List (Offer K)} {found : Offer K × K}
    (h : firstLeast Offer.costPerItem offers = some found) :
    ((withdraw found.1.fresh offers).filter (fun o => decide (o.fresh.size ≠ 0))).length <
      (offers.filter (fun o => decide (o.fresh.size ≠ 0))).length := by
  obtain ⟨hm, hk⟩ := firstLeast_mem h
  have hnew : found.1.fresh.size ≠ 0 := by
    intro e
    simp [Offer.costPerItem, e] at hk
  rw [withdraw, List.filter_map, List.length_map]
  refine length_filter_lt (fun o ho => ?_) hm ?_ ?_
  · simp only [Function.comp_apply, decide_eq_true_eq] at ho ⊢
    intro e
    refine ho (SortedSet.size_eq_zero_iff.2 fun a ha => SortedSet.size_eq_zero_iff.1 e a ?_)
    exact (SortedSet.mem_sdiff.1 ha).1
  · simpa using hnew
  · simp only [Function.comp_apply, decide_eq_false_iff_not, Decidable.not_not]
    exact SortedSet.size_eq_zero_iff.2 fun a ha =>
      (SortedSet.mem_sdiff.1 ha).2 (SortedSet.mem_sdiff.1 ha).1

/-- The steps taken among offers, which carry along what each candidate newly covers. -/
def picksAmong (offers : List (Offer K)) (uncovered : SortedSet Item) : List (Pick K) :=
  if uncovered.size = 0 then []
  else
    match _h : firstLeast Offer.costPerItem offers with
    | none => []
    | some found =>
      ⟨found.1.candidate.1, found.2⟩ ::
        picksAmong (withdraw found.1.fresh offers) (uncovered \ found.1.fresh)
termination_by (offers.filter (fun o => decide (o.fresh.size ≠ 0))).length
decreasing_by exact length_withdraw_lt _h

omit [Arithmetic K] in
private theorem sdiff_sdiff_sdiff (s t covered : SortedSet Item) :
    (s \ covered) \ (t \ covered) = s \ (covered ∪ t) := by
  refine SortedSet.ext_mem fun a => ?_
  simp only [SortedSet.mem_sdiff, SortedSet.mem_union, not_or, not_and]
  constructor
  · rintro ⟨⟨hs, hc⟩, h⟩
    exact ⟨hs, hc, fun ht => h ht hc⟩
  · rintro ⟨hs, hc, ht⟩
    exact ⟨⟨hs, hc⟩, fun h => absurd h ht⟩

omit [Arithmetic K] in
theorem withdraw_offers (candidates : List (Candidate K)) (covered s : SortedSet Item) :
    withdraw (s \ covered) (candidates.map (offer covered)) =
      candidates.map (offer (covered ∪ s)) := by
  rw [withdraw, List.map_map]
  refine List.map_congr_left fun c _ => ?_
  simp only [Function.comp_apply, offer, sdiff_sdiff_sdiff]

/-- The steps taken among what the candidates offer are the steps taken from the candidates. -/
theorem picksAmong_offers (candidates : List (Candidate K)) (items covered : SortedSet Item) :
    picksAmong (candidates.map (offer covered)) (items \ covered) =
      picksFrom candidates items covered := by
  have hdone : ∀ covered : SortedSet Item, (items \ covered).size = 0 ↔ items ⊆ covered := by
    intro covered
    rw [SortedSet.size_eq_zero_iff, SortedSet.subset_def]
    refine forall_congr' fun a => ?_
    rw [SortedSet.mem_sdiff, not_and, Decidable.not_not]
  have hchoose : ∀ covered : SortedSet Item,
      firstLeast Offer.costPerItem (candidates.map (offer covered)) =
        (choose candidates covered).map (fun found => (offer covered found.1, found.2)) :=
    fun _ => firstLeast_map
  fun_induction picksFrom candidates items covered with
  | case1 covered h =>
    rw [picksAmong, if_pos ((hdone covered).2 h)]
  | case2 covered h hnone =>
    rw [picksAmong, if_neg (fun e => h ((hdone covered).1 e))]
    have := hchoose covered
    rw [hnone] at this
    split
    · rfl
    · rename_i found hfound
      rw [this] at hfound
      simp at hfound
  | case3 covered h found hsome ih =>
    rw [picksAmong, if_neg (fun e => h ((hdone covered).1 e))]
    have := hchoose covered
    rw [hsome] at this
    split
    · rename_i hfound
      rw [this] at hfound
      simp at hfound
    · rename_i found' hfound
      rw [this] at hfound
      obtain rfl := Option.some.inj hfound
      show _ :: picksAmong (withdraw (found.1.1 \ covered) _) (_ \ (found.1.1 \ covered)) = _
      rw [withdraw_offers, sdiff_sdiff_sdiff, ih]
      rfl

def picks (pool : Pool K) (transaction : Transaction) : List (Pick K) :=
  picksAmong ((pool.within transaction).candidates.map (offer ∅)) transaction.items

/-- The steps are those taken when nothing is covered yet. -/
theorem picks_eq (pool : Pool K) (transaction : Transaction) :
    picks pool transaction =
      picksFrom (pool.within transaction).candidates transaction.items ∅ := by
  have h : transaction.items \ ∅ = transaction.items :=
    SortedSet.ext_mem fun a => by simp
  rw [← picksAmong_offers, h, picks]

def selection (pool : Pool K) (transaction : Transaction) : Covering :=
  selected (picks pool transaction)

def cost (pool : Pool K) (transaction : Transaction) : Except Fault K :=
  (pool.within transaction).cost (selection pool transaction)

end Steps

/-- The items of a transaction that no selected itemset contains. -/
def leftover (transaction : Transaction) (picks : List (Pick K)) : SortedSet Item :=
  transaction.items \ unionOf (picks.map Pick.itemset)

inductive Note (K : Type u) where
  | selected (pick : Pick K)
  /-- The run stopped with these items uncovered. -/
  | incomplete (left : SortedSet Item)

/-- The notes of a run: its steps, then what is left over, if anything. -/
def notes (transaction : Transaction) (picks : List (Pick K)) : List (Note K) :=
  let left := leftover transaction picks
  picks.map .selected ++ (if left.size = 0 then [] else [.incomplete left])

end NoisyCover.Greedy
