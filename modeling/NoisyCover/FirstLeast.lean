import NoisyCover.Arithmetic

/-!
# The first element with the least key

`firstLeast` goes through a list once and keeps the best element so far.  A later element replaces
it only with a strictly smaller key, so of several elements with the least key the first one wins.
An element may have no key, and a key that is not below positive infinity never wins.
-/

namespace NoisyCover

variable {K : Type u} [Arithmetic K] {α : Type v}

/-- Whether a key beats the best one so far. -/
def beats (k : K) : Option (α × K) → Bool
  | none => Arithmetic.bounded k
  | some best => decide (k < best.2)

/-- The better of the best element so far and the next one. -/
def better (key : α → Option K) (best : Option (α × K)) (a : α) : Option (α × K) :=
  match key a with
  | none => best
  | some k => if beats k best then some (a, k) else best

/-- The first element with the least key, together with that key. -/
def firstLeast (key : α → Option K) (l : List α) : Option (α × K) := l.foldl (better key) none

private theorem foldl_better_mem {key : α → Option K} {l : List α} {start : Option (α × K)}
    {found : α × K} (h : l.foldl (better key) start = some found) :
    start = some found ∨ found.1 ∈ l ∧ key found.1 = some found.2 := by
  induction l generalizing start with
  | nil => exact .inl h
  | cons a l ih =>
    rcases ih h with hb | ⟨hm, hk⟩
    · unfold better at hb
      split at hb
      · exact .inl hb
      · rename_i k hk
        split at hb
        · cases hb
          exact .inr ⟨by simp, hk⟩
        · exact .inl hb
    · exact .inr ⟨by simp [hm], hk⟩

private theorem foldl_better_map {β : Type w} (key : β → Option K) (f : α → β) (l : List α)
    (start : Option (α × K)) :
    (l.map f).foldl (better key) (start.map (fun found => (f found.1, found.2))) =
      (l.foldl (better (fun a => key (f a))) start).map (fun found => (f found.1, found.2)) := by
  induction l generalizing start with
  | nil => rfl
  | cons a l ih =>
    rw [List.map_cons, List.foldl_cons, List.foldl_cons, ← ih]
    congr 1
    cases hk : key (f a) with
    | none => simp [better, hk]
    | some k =>
      have hb : beats k (start.map (fun found => (f found.1, found.2))) = beats k start := by
        cases start <;> rfl
      simp only [better, hk, hb]
      split <;> rfl

/-- Searching through the images of a list finds the image of what a search through the list
finds. -/
theorem firstLeast_map {β : Type w} {key : β → Option K} {f : α → β} {l : List α} :
    firstLeast key (l.map f) =
      (firstLeast (fun a => key (f a)) l).map (fun found => (f found.1, found.2)) :=
  foldl_better_map key f l none

/-- What is found is an element of the list, with its own key. -/
theorem firstLeast_mem {key : α → Option K} {l : List α} {found : α × K}
    (h : firstLeast key l = some found) : found.1 ∈ l ∧ key found.1 = some found.2 := by
  rcases foldl_better_mem h with h | h
  · exact absurd h (by simp)
  · exact h

end NoisyCover
