import Mathlib
import NoisyCover.Random.Sample

/-!
# Samples are drawn without replacement

Whatever source the draws come from, a sample has as many elements as it was asked for, and with a
copy of every drawn element taken off the list each time: it is a part of the list in another order
(`sample_subperm`).  A short list shrinks by exactly the drawn element (`cons_perm`).  A long list
stays as it is, and a position that was drawn before is drawn again until a fresh one comes; when
patience runs out some position is still left, because there are more positions than draws.
-/

namespace NoisyCover.RandomSource

variable {σ : Type} {α : Type u} (source : RandomSource σ)

/-- Moving the last element to the place of another one takes that one off the list. -/
theorem cons_perm (l : List α) {k : ℕ} (hk : k < l.length) (d : α) :
    (l[k] :: (l.set k (l.getLastD d)).dropLast).Perm l := by
  rcases List.eq_nil_or_concat' l with rfl | ⟨init, last, rfl⟩
  · simp at hk
  rw [List.length_append, List.length_singleton] at hk
  by_cases hinit : k < init.length
  · rw [List.getLastD_concat, List.set_append_left _ _ hinit, List.dropLast_concat,
      List.getElem_append_left hinit]
    have hset := (List.set_perm_cons_eraseIdx hinit last).cons init[k]
    have hget := (List.getElem_cons_eraseIdx_perm hinit).cons last
    exact (hset.trans (.swap ..)).trans (hget.trans (List.perm_append_singleton last init).symm)
  · obtain rfl : k = init.length := by omega
    simpa using (List.perm_append_singleton last init).symm

theorem sampleShrinking_subperm : ∀ (count : ℕ) (l : List α) (state : σ),
    count ≤ l.length → (source.sampleShrinking count l state).1.length = count ∧
      (source.sampleShrinking count l state).1.Subperm l
  | 0, l, state, _ => by simp [sampleShrinking]
  | count + 1, [], state, h => by simp at h
  | count + 1, a :: rest, state, h => by
    have hperm := cons_perm (a :: rest) (source.index rest.length state).1.2 a
    have hlength := hperm.length_eq
    obtain ⟨hcount, hsub⟩ := sampleShrinking_subperm count
      ((a :: rest).set (source.index rest.length state).1 ((a :: rest).getLastD a)).dropLast
      (source.index rest.length state).2 (by simp at h hlength ⊢; omega)
    rw [sampleShrinking]
    exact ⟨congrArg _ hcount, ((List.subperm_cons _).2 hsub).trans hperm.subperm⟩

theorem exists_notMem {n : ℕ} {taken : List (Fin (n + 1))} (h : taken.length < n + 1) :
    ∃ k, k ∉ taken := by
  by_contra hall
  push Not at hall
  have hle : (Finset.univ : Finset (Fin (n + 1))).card ≤ taken.length :=
    (Finset.card_le_card fun k _ => List.mem_toFinset.2 (hall k)).trans taken.toFinset_card_le
  rw [Finset.card_univ, Fintype.card_fin] at hle
  omega

theorem freshIndex_notMem {n : ℕ} {taken : List (Fin (n + 1))} (h : taken.length < n + 1) :
    ∀ (patience : ℕ) (state : σ), (source.freshIndex n taken patience state).1 ∉ taken
  | 0, state => by
    -- patience has run out, but not all positions are taken
    obtain ⟨k, hk⟩ := exists_notMem h
    show ((List.finRange (n + 1)).find? fun k => !taken.contains k).getD 0 ∉ taken
    rcases hfind : (List.finRange (n + 1)).find? fun k => !taken.contains k with _ | found
    · simp only [List.find?_eq_none] at hfind
      simpa [hk] using hfind k (List.mem_finRange k)
    · simpa using List.find?_some hfind
  | patience + 1, state => by
    show (if taken.contains (source.index n state).1 then
      source.freshIndex n taken patience (source.index n state).2
      else source.index n state).1 ∉ taken
    split
    · exact freshIndex_notMem h patience _
    · simp_all

theorem freshIndices_nodup {n : ℕ} : ∀ (count : ℕ) (taken : List (Fin (n + 1))) (state : σ),
    taken.length + count ≤ n + 1 →
      (source.freshIndices n count taken state).1.length = count ∧
        (source.freshIndices n count taken state).1.Nodup ∧
        ∀ k ∈ (source.freshIndices n count taken state).1, k ∉ taken
  | 0, taken, state, _ => by simp [freshIndices]
  | count + 1, taken, state, h => by
    have hfresh := source.freshIndex_notMem (by omega : taken.length < n + 1) 1024 state
    obtain ⟨hcount, hnodup, hmore⟩ := freshIndices_nodup count
      ((source.freshIndex n taken 1024 state).1 :: taken) (source.freshIndex n taken 1024 state).2
      (by simp; omega)
    rw [freshIndices]
    refine ⟨congrArg _ hcount, List.nodup_cons.2 ⟨fun hmem => ?_, hnodup⟩, ?_⟩
    · exact hmore _ hmem List.mem_cons_self
    · exact List.forall_mem_cons.2 ⟨hfresh, fun k hk hin => hmore k hk (List.mem_cons_of_mem _ hin)⟩

/-- A sample has as many elements as it was asked for, and is a part of the list. -/
theorem sample_subperm (population : List α) (count : ℕ) (state : σ)
    (h : count ≤ population.length) :
    (source.sample population count state).1.length = count ∧
      (source.sample population count state).1.Subperm population := by
  unfold sample
  split
  · simp_all
  · rename_i a rest
    split
    · exact source.sampleShrinking_subperm count (a :: rest) state h
    · -- different positions, but the elements there may be equal
      obtain ⟨hcount, hnodup, -⟩ := source.freshIndices_nodup (n := rest.length) count [] state
        (by simpa using h)
      refine ⟨by simpa using hcount, ?_⟩
      obtain ⟨positions, hperm, hsub⟩ := hnodup.subperm fun k _ => List.mem_finRange k
      have hmap := hsub.map fun k => (a :: rest)[k]
      rw [show (List.finRange (rest.length + 1)).map (fun k => (a :: rest)[k]) = a :: rest from
        List.map_getElem_finRange (a :: rest)] at hmap
      exact ⟨_, hperm.map _, hmap⟩

end NoisyCover.RandomSource
