import Mathlib
import NoisyCover.Arithmetic

/-!
# Sums that count

A sum is taken in blocks and by halves, but nothing depends on that when all that is known of a
number is a count that adds up (`Additive`): the sum of a list then has the sum of the counts
(`Tally.pairwiseSum`).
-/

namespace NoisyCover

open Arithmetic

variable {K : Type u} {Counts : K → ℕ → Prop}

theorem sum_map_ite_one {α : Type*} (p : α → Bool) : ∀ l : List α,
    (l.map fun a => if p a then 1 else 0).sum = l.countP p
  | [] => rfl
  | a :: l => by
    rw [List.map_cons, List.sum_cons, sum_map_ite_one p l, List.countP_cons, add_comm]

/-- A count of numbers that adds up. -/
structure Additive [Arithmetic K] (Counts : K → ℕ → Prop) : Prop where
  zero : Counts 0 0
  add : ∀ {x y : K} {m n : ℕ}, Counts x m → Counts y n → Counts (x + y) (m + n)

/-- The counts of the numbers of a list, added up. -/
inductive Tally (Counts : K → ℕ → Prop) : List K → ℕ → Prop
  | nil : Tally Counts [] 0
  | cons {x : K} {xs : List K} {m n : ℕ} :
    Counts x m → Tally Counts xs n → Tally Counts (x :: xs) (m + n)

namespace Tally

variable {xs sums block : List K} {x : K} {m n k : ℕ}

theorem map {α : Type*} {f : α → K} {g : α → ℕ} : ∀ {l : List α},
    (∀ a ∈ l, Counts (f a) (g a)) → Tally Counts (l.map f) (l.map g).sum
  | [], _ => .nil
  | _ :: _, h => .cons (h _ List.mem_cons_self) (map fun a ha => h a (List.mem_cons_of_mem _ ha))

theorem take_drop (h : Tally Counts xs n) (k : ℕ) :
    ∃ a b, Tally Counts (xs.take k) a ∧ Tally Counts (xs.drop k) b ∧ a + b = n := by
  induction h generalizing k with
  | nil => exact ⟨0, 0, by simpa using .nil, by simpa using .nil, rfl⟩
  | cons hx hxs ih =>
    cases k with
    | zero => exact ⟨0, _, .nil, .cons hx hxs, Nat.zero_add _⟩
    | succ k =>
      obtain ⟨a, b, ha, hb, rfl⟩ := ih k
      exact ⟨_, b, .cons hx ha, hb, Nat.add_assoc ..⟩

section Sums

variable [Arithmetic K] (hadd : Additive Counts)

include hadd

theorem foldl (h : Tally Counts xs n) (hx : Counts x m) :
    Counts (xs.foldl (· + ·) x) (m + n) := by
  induction h generalizing x m with
  | nil => exact hx
  | cons hy _ ih =>
    rw [← Nat.add_assoc]
    exact ih (hadd.add hx hy)

theorem sumFromLeft (h : Tally Counts xs n) : Counts (sumFromLeft xs) n := by
  cases h with
  | nil => exact hadd.zero
  | cons hx hxs => exact hxs.foldl hadd hx

theorem addBlock (hs : Tally Counts sums m) (hb : Tally Counts block n)
    (hlength : sums.length = block.length) : Tally Counts (addBlock sums block) (m + n) := by
  induction hs generalizing block n with
  | nil =>
    cases hb with
    | nil => exact .nil
    | cons => cases hlength
  | cons hx _ ih =>
    cases hb with
    | nil => cases hlength
    | cons hy hys =>
      rw [Nat.add_add_add_comm]
      exact .cons (hadd.add hx hy) (ih hys (Nat.succ.inj hlength))

theorem runBlocks (sums xs : List K) (hlength : sums.length = 8) (hs : Tally Counts sums m)
    (hx : Tally Counts xs n) :
    (runBlocks sums xs).1.length = 8 ∧ ∃ a b, Tally Counts (runBlocks sums xs).1 a ∧
      Tally Counts (runBlocks sums xs).2 b ∧ a + b = m + n := by
  induction sums, xs using Arithmetic.runBlocks.induct generalizing m n with
  | case1 sums xs hlong ih =>
    obtain ⟨a, b, ha, hb, rfl⟩ := hx.take_drop 8
    have htake : sums.length = (xs.take 8).length := by
      rw [List.length_take, hlength]
      omega
    have hblock : (Arithmetic.addBlock sums (xs.take 8)).length = 8 := by
      rw [Arithmetic.addBlock, List.length_zipWith, ← htake, hlength]
      rfl
    rw [Arithmetic.runBlocks, if_pos hlong, ← Nat.add_assoc]
    exact ih hblock (hs.addBlock hadd ha htake) hb
  | case2 sums xs hshort =>
    rw [Arithmetic.runBlocks, if_neg hshort]
    exact ⟨hlength, m, n, hs, hx, rfl⟩

theorem joinEight (hlength : sums.length = 8) (h : Tally Counts sums n) :
    Counts (joinEight sums) n := by
  obtain ⟨a, b, c, d, e, f, g, i, rfl⟩ : ∃ a b c d e f g i, sums = [a, b, c, d, e, f, g, i] := by
    match sums, hlength with
    | [a, b, c, d, e, f, g, i], _ => exact ⟨a, b, c, d, e, f, g, i, rfl⟩
  obtain _ | ⟨ha, _ | ⟨hb, _ | ⟨hc, _ | ⟨hd, _ | ⟨he, _ | ⟨hf, _ | ⟨hg, _ | ⟨hi, _ | _⟩⟩⟩⟩⟩⟩⟩⟩ := h
  have hsum := hadd.add (hadd.add (hadd.add ha hb) (hadd.add hc hd))
    (hadd.add (hadd.add he hf) (hadd.add hg hi))
  simp only [Nat.add_assoc, Nat.add_zero] at hsum ⊢
  exact hsum

theorem blockSum (h : Tally Counts xs n) : Counts (blockSum xs) n := by
  unfold Arithmetic.blockSum
  split_ifs with hshort
  · exact h.sumFromLeft hadd
  · obtain ⟨a, b, ha, hb, rfl⟩ := h.take_drop 8
    have htake : (xs.take 8).length = 8 := by
      rw [List.length_take]
      omega
    obtain ⟨hlength, c, d, hc, hd, hcd⟩ := Tally.runBlocks hadd _ _ htake ha hb
    rw [← hcd]
    exact hd.foldl hadd (hc.joinEight hadd hlength)

/-- A sum by halves has the sum of the counts. -/
theorem pairwiseSum (xs : List K) (h : Tally Counts xs n) : Counts (pairwiseSum xs) n := by
  induction xs using Arithmetic.pairwiseSum.induct generalizing n with
  | case1 xs hshort =>
    rw [Arithmetic.pairwiseSum, if_pos hshort]
    exact h.blockSum hadd
  | case2 xs hlong ihleft ihright =>
    obtain ⟨a, b, ha, hb, rfl⟩ := h.take_drop (splitPoint xs.length)
    rw [Arithmetic.pairwiseSum, if_neg hlong]
    exact hadd.add (ihleft ha) (ihright hb)

end Sums

end Tally

end NoisyCover
