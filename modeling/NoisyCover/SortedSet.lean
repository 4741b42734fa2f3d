/-!
# Finite sets as ascending lists

A `SortedSet` is a strictly ascending list.  Two of them are equal as soon as they have the same
members (`SortedSet.ext_mem`), so equality of sets is equality of values, and listing a set in order
costs nothing.  Sets of sets are ordered by comparing their lists from the left.
-/

namespace NoisyCover

/-- A finite set, kept as the strictly ascending list of its members. -/
structure SortedSet (α : Type u) [Ord α] where
  /-- The members in ascending order. -/
  toList : List α
  ascending : toList.Pairwise (fun a b => compare a b = .lt)

namespace SortedSet

variable {α : Type u} [Ord α]

@[ext] theorem ext_toList {s t : SortedSet α} (h : s.toList = t.toList) : s = t := by
  cases s; cases t; cases h; rfl

instance [DecidableEq α] : DecidableEq (SortedSet α) := fun s t =>
  decidable_of_iff (s.toList = t.toList) ⟨ext_toList, fun h => h ▸ rfl⟩

instance : Membership α (SortedSet α) := ⟨fun s a => a ∈ s.toList⟩

theorem mem_def {a : α} {s : SortedSet α} : a ∈ s ↔ a ∈ s.toList := Iff.rfl

instance [DecidableEq α] (a : α) (s : SortedSet α) : Decidable (a ∈ s) :=
  inferInstanceAs (Decidable (a ∈ s.toList))

instance : HasSubset (SortedSet α) := ⟨fun s t => ∀ a, a ∈ s → a ∈ t⟩

theorem subset_def {s t : SortedSet α} : s ⊆ t ↔ ∀ a, a ∈ s → a ∈ t := Iff.rfl

instance [DecidableEq α] (s t : SortedSet α) : Decidable (s ⊆ t) :=
  inferInstanceAs (Decidable (∀ a, a ∈ s.toList → a ∈ t.toList))

/-- Sets are compared as their ascending lists are, from the left. -/
instance : Ord (SortedSet α) := ⟨fun s t => compare s.toList t.toList⟩

theorem compare_def (s t : SortedSet α) : compare s t = compare s.toList t.toList := rfl

instance [Std.TransOrd α] : Std.TransOrd (SortedSet α) where
  eq_swap {s t} :=
    (Std.OrientedCmp.eq_swap : compare s.toList t.toList = (compare t.toList s.toList).swap)
  isLE_trans {s t u} h h' :=
    (Std.TransCmp.isLE_trans :
      (compare s.toList t.toList).isLE → (compare t.toList u.toList).isLE →
        (compare s.toList u.toList).isLE) h h'

instance [Std.LawfulEqOrd α] : Std.LawfulEqOrd (SortedSet α) where
  compare_self {s} := (Std.ReflCmp.compare_self : compare s.toList s.toList = .eq)
  eq_of_compare {s t} h :=
    ext_toList ((Std.LawfulEqCmp.eq_of_compare :
      compare s.toList t.toList = .eq → s.toList = t.toList) h)

def size (s : SortedSet α) : Nat := s.toList.length

def empty : SortedSet α := ⟨[], .nil⟩

instance : EmptyCollection (SortedSet α) := ⟨empty⟩

@[simp] theorem toList_empty : (∅ : SortedSet α).toList = [] := rfl

@[simp] theorem notMem_empty (a : α) : ¬ a ∈ (∅ : SortedSet α) := by simp [mem_def]

theorem size_eq_zero_iff {s : SortedSet α} : s.size = 0 ↔ ∀ a, ¬ a ∈ s :=
  List.length_eq_zero_iff.trans List.eq_nil_iff_forall_not_mem

def filter (s : SortedSet α) (p : α → Bool) : SortedSet α :=
  ⟨s.toList.filter p, s.ascending.filter p⟩

@[simp] theorem mem_filter {s : SortedSet α} {p : α → Bool} {a : α} :
    a ∈ s.filter p ↔ a ∈ s ∧ p a = true := by
  simp [mem_def, filter]

section Difference
variable [DecidableEq α]

instance : SDiff (SortedSet α) := ⟨fun s t => s.filter (fun a => !decide (a ∈ t))⟩

instance : Inter (SortedSet α) := ⟨fun s t => s.filter (fun a => decide (a ∈ t))⟩

@[simp] theorem mem_sdiff {s t : SortedSet α} {a : α} : a ∈ s \ t ↔ a ∈ s ∧ ¬ a ∈ t := by
  show a ∈ s.filter _ ↔ _
  simp

@[simp] theorem mem_inter {s t : SortedSet α} {a : α} : a ∈ s ∩ t ↔ a ∈ s ∧ a ∈ t := by
  show a ∈ s.filter _ ↔ _
  simp

end Difference

section Insertion
variable [Std.TransOrd α] [Std.LawfulEqOrd α]

/-- Puts a value into an ascending list at its place, once. -/
def place (a : α) : List α → List α
  | [] => [a]
  | b :: bs =>
    match compare a b with
    | .lt => a :: b :: bs
    | .eq => b :: bs
    | .gt => b :: place a bs

omit [Std.TransOrd α] in
theorem mem_place {a x : α} {l : List α} : x ∈ place a l ↔ x = a ∨ x ∈ l := by
  induction l with
  | nil => simp [place]
  | cons b bs ih =>
    unfold place
    cases h : compare a b with
    | lt => simp
    | eq =>
      have hab : a = b := Std.LawfulEqCmp.eq_of_compare h
      simp [hab]
    | gt =>
      simp only [List.mem_cons, ih]
      constructor
      · rintro (h | h | h) <;> simp [h]
      · rintro (h | h | h) <;> simp [h]

theorem pairwise_place {a : α} {l : List α} (hl : l.Pairwise (fun a b => compare a b = .lt)) :
    (place a l).Pairwise (fun a b => compare a b = .lt) := by
  induction l with
  | nil => simp [place]
  | cons b bs ih =>
    have hb := List.pairwise_cons.1 hl
    unfold place
    cases h : compare a b with
    | lt =>
      refine List.pairwise_cons.2 ⟨fun x hx => ?_, hl⟩
      rcases List.mem_cons.1 hx with rfl | hx
      · exact h
      · exact Std.TransCmp.lt_trans h (hb.1 x hx)
    | eq => exact hl
    | gt =>
      refine List.pairwise_cons.2 ⟨fun x hx => ?_, ih hb.2⟩
      rcases mem_place.1 hx with rfl | hx
      · exact Std.OrientedCmp.lt_of_gt h
      · exact hb.1 x hx

def insert (s : SortedSet α) (a : α) : SortedSet α := ⟨place a s.toList, pairwise_place s.ascending⟩

@[simp] theorem mem_insert {s : SortedSet α} {a x : α} : x ∈ s.insert a ↔ x = a ∨ x ∈ s :=
  mem_place

def insertMany (s : SortedSet α) (l : List α) : SortedSet α := l.foldl insert s

@[simp] theorem mem_insertMany {s : SortedSet α} {l : List α} {x : α} :
    x ∈ s.insertMany l ↔ x ∈ l ∨ x ∈ s := by
  induction l generalizing s with
  | nil => simp [insertMany]
  | cons a l ih =>
    show x ∈ (s.insert a).insertMany l ↔ _
    rw [ih, mem_insert, List.mem_cons]
    constructor
    · rintro (h | h | h) <;> simp [h]
    · rintro ((h | h) | h) <;> simp [h]

/-- The set of the values of a list; repeats collapse. -/
def ofList (l : List α) : SortedSet α := (∅ : SortedSet α).insertMany l

@[simp] theorem mem_ofList {l : List α} {x : α} : x ∈ ofList l ↔ x ∈ l := by
  simp [ofList]

instance : Union (SortedSet α) := ⟨fun s t => s.insertMany t.toList⟩

@[simp] theorem mem_union {s t : SortedSet α} {x : α} : x ∈ s ∪ t ↔ x ∈ s ∨ x ∈ t := by
  show x ∈ s.insertMany t.toList ↔ _
  rw [mem_insertMany, or_comm]
  exact Iff.rfl

end Insertion

section Extensionality
variable [Std.TransOrd α]

theorem nodup (s : SortedSet α) : s.toList.Nodup := by
  refine s.ascending.imp (fun {a b} h => ?_)
  rintro rfl
  have hself : compare a a = .eq := Std.ReflCmp.compare_self
  rw [hself] at h
  exact absurd h (by decide)

private theorem ascending_eq_of_mem_iff {l m : List α}
    (hl : l.Pairwise (fun a b => compare a b = .lt))
    (hm : m.Pairwise (fun a b => compare a b = .lt)) (h : ∀ a, a ∈ l ↔ a ∈ m) : l = m := by
  have asymm : ∀ {a b : α}, compare a b = .lt → compare b a = .lt → False := by
    intro a b hab hba
    rw [Std.OrientedCmp.gt_of_lt hab] at hba
    exact absurd hba (by decide)
  have irrefl : ∀ {a : α}, compare a a = .lt → False := fun h => asymm h h
  induction l generalizing m with
  | nil =>
    cases m with
    | nil => rfl
    | cons b bs => exact absurd ((h b).2 (by simp)) (by simp)
  | cons a as ih =>
    cases m with
    | nil => exact absurd ((h a).1 (by simp)) (by simp)
    | cons b bs =>
      have hl' := List.pairwise_cons.1 hl
      have hm' := List.pairwise_cons.1 hm
      have hab : a = b := by
        rcases List.mem_cons.1 ((h a).1 (by simp)) with e | e
        · exact e
        · rcases List.mem_cons.1 ((h b).2 (by simp)) with e' | e'
          · exact e'.symm
          · exact (asymm (hm'.1 a e) (hl'.1 b e')).elim
      subst hab
      congr 1
      refine ih hl'.2 hm'.2 (fun x => ⟨fun hx => ?_, fun hx => ?_⟩)
      · rcases List.mem_cons.1 ((h x).1 (by simp [hx])) with rfl | e
        · exact (irrefl (hl'.1 _ hx)).elim
        · exact e
      · rcases List.mem_cons.1 ((h x).2 (by simp [hx])) with rfl | e
        · exact (irrefl (hm'.1 _ hx)).elim
        · exact e

theorem ext_mem {s t : SortedSet α} (h : ∀ a, a ∈ s ↔ a ∈ t) : s = t :=
  ext_toList (ascending_eq_of_mem_iff s.ascending t.ascending h)

@[simp] theorem union_empty [Std.LawfulEqOrd α] (s : SortedSet α) : s ∪ ∅ = s :=
  ext_mem fun a => by simp

@[simp] theorem empty_union [Std.LawfulEqOrd α] (s : SortedSet α) : ∅ ∪ s = s :=
  ext_mem fun a => by simp

end Extensionality

end SortedSet

end NoisyCover
