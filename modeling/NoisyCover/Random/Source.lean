/-!
# Sources of random indices

A random source is a state machine that draws an index into a list.  Algorithms take an arbitrary
one, so what is shown of them holds for every sequence of draws.
-/

namespace NoisyCover

/-- A random source: draws an index into a list of `n + 1` elements. -/
structure RandomSource (σ : Type) where
  index : (n : Nat) → σ → Fin (n + 1) × σ

namespace RandomSource

variable {σ : Type}

def first : RandomSource σ := ⟨fun _ state => (0, state)⟩

def last : RandomSource σ := ⟨fun n state => (Fin.last n, state)⟩

/-- Draws by a list of integers, used round and round and taken modulo the length; the state counts
the draws. -/
def cycling (answers : List Int) : RandomSource Nat where
  index n count :=
    let answer := answers.getD (count % answers.length) 0
    (Fin.ofNat (n + 1) (answer % ((n : Int) + 1)).toNat, count + 1)

end RandomSource

end NoisyCover
