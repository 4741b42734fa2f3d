import NoisyCover.SortedSet

/-!
# Items, itemsets, transactions, coverings

An item is an integer, an itemset is a finite set of items, and a covering is a finite set of
itemsets.  A transaction is a list of items: its order and its repeats are kept, since reports show
them, but what has to be explained is the set of its items.
-/

namespace NoisyCover

abbrev Item := Int

abbrev Itemset := SortedSet Item

abbrev Transaction := List Item

abbrev Covering := SortedSet Itemset

def Transaction.items (t : Transaction) : SortedSet Item := SortedSet.ofList t

@[simp] theorem Transaction.mem_items {t : Transaction} {i : Item} : i ∈ t.items ↔ i ∈ t :=
  SortedSet.mem_ofList

def unionOf (sets : List Itemset) : SortedSet Item :=
  sets.foldl (fun covered s => covered ∪ s) ∅

private theorem mem_foldl_union {sets : List Itemset} {start : SortedSet Item} {i : Item} :
    i ∈ sets.foldl (fun covered s => covered ∪ s) start ↔ i ∈ start ∨ ∃ s ∈ sets, i ∈ s := by
  induction sets generalizing start with
  | nil => simp
  | cons s rest ih =>
    rw [List.foldl_cons, ih, SortedSet.mem_union]
    constructor
    · rintro ((h | h) | ⟨t, ht, h⟩)
      · exact .inl h
      · exact .inr ⟨s, by simp, h⟩
      · exact .inr ⟨t, by simp [ht], h⟩
    · rintro (h | ⟨t, ht, h⟩)
      · exact .inl (.inl h)
      · rcases List.mem_cons.1 ht with rfl | ht
        · exact .inl (.inr h)
        · exact .inr ⟨t, ht, h⟩

@[simp] theorem mem_unionOf {sets : List Itemset} {i : Item} :
    i ∈ unionOf sets ↔ ∃ s ∈ sets, i ∈ s := by
  simp [unionOf, mem_foldl_union]

/-- A list of items in brackets, with a comma and a blank between them. -/
def itemsText (items : List Item) : String :=
  "[" ++ ", ".intercalate (items.map toString) ++ "]"

/-- An itemset as the list of its items in ascending order. -/
def itemsetText (s : Itemset) : String := itemsText s.toList

end NoisyCover
