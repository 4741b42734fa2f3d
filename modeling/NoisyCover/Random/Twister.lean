import NoisyCover.Random.Source

/-!
# A Mersenne twister

The generator with 624 words of 32 bits.  It is seeded with the words of an integer, the lowest
first, and gives one tempered word after the other, renewing all its words when they are used up.
-/

namespace NoisyCover

/-- The state of the generator: its words, and the place of the next one to be used. -/
structure Twister where
  words : Array UInt32
  next : Nat

namespace Twister

def size : Nat := 624

/-- How far ahead the word lies that each word is renewed with. -/
def stride : Nat := 397

/-- A word with its high bits folded into the low ones. -/
def folded (w : UInt32) : UInt32 := w ^^^ (w >>> 30)

def spread (seed : UInt32) : Array UInt32 :=
  (List.range (size - 1)).foldl
    (fun words k => words.push (1812433253 * folded (words.getD k 0) + UInt32.ofNat (k + 1)))
    #[seed]

/-- The number of different words. -/
def wordRange : Nat := 4294967296

/-- The words of a natural number, the lowest first; zero has one word. -/
def seedWords (n : Nat) : List UInt32 :=
  if n < wordRange then [UInt32.ofNat n]
  else UInt32.ofNat (n % wordRange) :: seedWords (n / wordRange)
termination_by n
decreasing_by
  exact Nat.div_lt_self (by unfold wordRange at *; omega) (by decide)

/-- The place after `k`, where the first place stands for the last one as well. -/
def advance (words : Array UInt32) (k : Nat) : Array UInt32 × Nat :=
  if k + 1 < size then (words, k + 1)
  else (words.setIfInBounds 0 (words.getD (size - 1) 0), 1)

/-- Mixes the words of the seed in, going round once or as long as the seed has words. -/
def mixKey (key : List UInt32) (words : Array UInt32) : Array UInt32 × Nat :=
  (List.range (max size key.length)).foldl
    (fun (words, k) step =>
      let j := step % key.length
      let mixed := (words.getD k 0 ^^^ (folded (words.getD (k - 1) 0) * 1664525)) +
        key.getD j 0 + UInt32.ofNat j
      advance (words.setIfInBounds k mixed) k)
    (words, 1)

/-- Mixes the places in, going round once more. -/
def mixPlaces (start : Array UInt32 × Nat) : Array UInt32 × Nat :=
  (List.range (size - 1)).foldl
    (fun (words, k) _ =>
      let mixed := (words.getD k 0 ^^^ (folded (words.getD (k - 1) 0) * 1566083941)) -
        UInt32.ofNat k
      advance (words.setIfInBounds k mixed) k)
    start

/-- The generator seeded with the magnitude of an integer. -/
def ofSeed (seed : Int) : Twister :=
  let key := seedWords seed.natAbs
  let mixed := mixPlaces (mixKey key (spread 19650218))
  { words := mixed.1.setIfInBounds 0 0x80000000, next := size }

/-- Renews the word at a place from its successor and the word ahead of it. -/
def renewWord (words : Array UInt32) (k : Nat) : Array UInt32 :=
  let joined := (words.getD k 0 &&& 0x80000000) ||| (words.getD ((k + 1) % size) 0 &&& 0x7fffffff)
  let twist : UInt32 := if joined &&& 1 = 0 then 0 else 0x9908b0df
  words.setIfInBounds k (words.getD ((k + stride) % size) 0 ^^^ (joined >>> 1) ^^^ twist)

/-- Renews all words, from the first on. -/
def renew (words : Array UInt32) : Array UInt32 := (List.range size).foldl renewWord words

/-- Spreads the bits of a word that is given out. -/
def temper (w : UInt32) : UInt32 :=
  let w := w ^^^ (w >>> 11)
  let w := w ^^^ ((w <<< 7) &&& 0x9d2c5680)
  let w := w ^^^ ((w <<< 15) &&& 0xefc60000)
  w ^^^ (w >>> 18)

def word (t : Twister) : UInt32 × Twister :=
  let ready := if t.next < size then t else ⟨renew t.words, 0⟩
  (temper (ready.words.getD ready.next 0), { ready with next := ready.next + 1 })

/-- The next random number of so many bits, at most 32. -/
def bits (count : Nat) (t : Twister) : Nat × Twister :=
  let (w, t) := t.word
  (w.toNat >>> (32 - count), t)

/-- Draws numbers of so many bits until one lies in range.  After `patience` draws it gives up and
takes the least one; every draw lies in range at least every second time. -/
def drawIndex (n count : Nat) : (patience : Nat) → Twister → Fin (n + 1) × Twister
  | 0, t => (0, t)
  | patience + 1, t =>
    let (k, t) := t.bits count
    if h : k < n + 1 then (⟨k, h⟩, t) else drawIndex n count patience t

def source : RandomSource Twister where
  index n t := drawIndex n (Nat.log2 (n + 1) + 1) 1024 t

/-- The next random number from zero up to, but without, one; it has 53 random bits. -/
def unit (t : Twister) : Float × Twister :=
  let (a, t) := t.word
  let (b, t) := t.word
  (Float.ofNat ((a >>> 5).toNat * 67108864 + (b >>> 6).toNat) / 9007199254740992.0, t)

def uniform (low high : Float) (t : Twister) : Float × Twister :=
  let (x, t) := t.unit
  (low + (high - low) * x, t)

end Twister

end NoisyCover
