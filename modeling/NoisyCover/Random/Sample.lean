import NoisyCover.Random.Source

/-!
# Drawing without replacement

A few members are drawn from a list, each at most once.  Short lists shrink with every draw: the
last element takes the place of the drawn one.  Long lists stay as they are, and a position that was
drawn before is drawn again.
-/

namespace NoisyCover.RandomSource

variable {σ : Type} {α : Type u}

/-- A list is short when it has at most so many elements. -/
def shortLength : Nat := 21

/-- Draws `count` elements from a list that shrinks. -/
def sampleShrinking (source : RandomSource σ) : (count : Nat) → List α → σ → List α × σ
  | 0, _, state => ([], state)
  | _ + 1, [], state => ([], state)
  | count + 1, a :: rest, state =>
    let (k, state) := source.index rest.length state
    let remaining := ((a :: rest).set k ((a :: rest).getLastD a)).dropLast
    let (drawn, state) := sampleShrinking source count remaining state
    ((a :: rest)[k] :: drawn, state)

/-- Draws a position that was not drawn before, in at most `patience` draws. -/
def freshIndex (source : RandomSource σ) (n : Nat) (taken : List (Fin (n + 1))) :
    (patience : Nat) → σ → Fin (n + 1) × σ
  | 0, state => (((List.finRange (n + 1)).find? (fun k => !taken.contains k)).getD 0, state)
  | patience + 1, state =>
    let (k, state) := source.index n state
    if taken.contains k then freshIndex source n taken patience state else (k, state)

/-- Draws `count` distinct positions. -/
def freshIndices (source : RandomSource σ) (n : Nat) :
    (count : Nat) → (taken : List (Fin (n + 1))) → σ → List (Fin (n + 1)) × σ
  | 0, _, state => ([], state)
  | count + 1, taken, state =>
    let (k, state) := freshIndex source n taken 1024 state
    let (more, state) := freshIndices source n count (k :: taken) state
    (k :: more, state)

/-- Draws `count` members of a list, each position at most once. -/
def sample (source : RandomSource σ) (population : List α) (count : Nat) (state : σ) :
    List α × σ :=
  match population with
  | [] => ([], state)
  | a :: rest =>
    if (a :: rest).length ≤ shortLength then source.sampleShrinking count (a :: rest) state
    else
      let (positions, state) := source.freshIndices rest.length count [] state
      (positions.map (fun k => (a :: rest)[k]), state)

end NoisyCover.RandomSource
