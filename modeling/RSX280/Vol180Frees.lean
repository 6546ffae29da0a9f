import RSX280.Vol180Extend
import Mathlib.Data.Nat.Count

/-!
# Free clusters in vol180

`alloc_cluster` takes one of the free clusters as long as there are any (`alloc_cluster_free`). What it marks
is in the bitmap, and what `file_extend` writes is in blocks apart from it (`Mine`).
-/

namespace RSX280.Vol180

open Bitmap (vb hp Blocks)
open Search (first)

/-- How many clusters are free. -/
def free_clusters (v : Vol) (s : St) : ℕ := Nat.count (fun c => (s.bits v).used c = false) v.clusters

/-- What `alloc_cluster` does with the bit of a cluster. -/
def taken (v : Vol) (s : St) (c : ℕ) : St :=
  s.put (v.bmblock + vb c) (hp c) (s.data (v.bmblock + vb c) (hp c) ||| Bitmap.mask (c % 8))

/-- A block in a cluster that has none of the blocks with the first `n` bits of the bitmap. -/
structure Mine (v : Vol) (n b : ℕ) : Prop where
  whole : b >>> v.clfactor < v.clusters
  apart : ∀ i < n, b >>> v.clfactor ≠ (v.bmblock + vb i) >>> v.clfactor

/-- The boot block and the blocks with the first `n` bits of the bitmap are in clusters that are in use. -/
structure Kept (v : Vol) (n : ℕ) (s : St) : Prop where
  boot : (s.bits v).used 0 = true
  map : ∀ i < n, (v.bmblock + vb i) >>> v.clfactor < v.clusters →
    (s.bits v).used ((v.bmblock + vb i) >>> v.clfactor) = true

/-- There are no free bits behind the last cluster. -/
def Tail (v : Vol) (s : St) : Prop :=
  ∀ i, v.clusters ≤ i → i < v.nblocks → v.bmblock + vb i < v.nblocks → (s.bits v).used i = true

section

variable {v : Vol} {s s' : St} {n b c i : ℕ} {h : List ℕ}

/-! ### Bits -/

theorem used_congr (same : s'.data (v.bmblock + vb i) = s.data (v.bmblock + vb i)) :
    (s'.bits v).used i = (s.bits v).used i := by
  rw [Blocks.used, Blocks.used, St.bits, St.bits, same]

theorem used_taken (v : Vol) (s : St) (c i : ℕ) :
    ((taken v s c).bits v).used i = (decide (i = c) || (s.bits v).used i) := by
  have marked := mark_put v s c (s.data (v.bmblock + vb c) (hp c))
  rw [put_self] at marked
  rw [taken, ← marked, Bitmap.used_mark]

theorem taken_data (hb : b ≠ v.bmblock + vb c) : (taken v s c).data b = s.data b :=
  Function.update_of_ne hb _ _

theorem Mine.ne (mine : Mine v n b) (hi : i < n) : v.bmblock + vb i ≠ b := by
  intro same
  exact mine.apart i hi (congrArg (· >>> v.clfactor) same.symm)

/-- What is written to a block of a file is not in the bitmap. -/
theorem Mine.used (mine : Mine v n b) (only : ∀ b' ≠ b, s'.data b' = s.data b') (hi : i < n) :
    (s'.bits v).used i = (s.bits v).used i := used_congr (only _ (mine.ne hi))

theorem Mine.lt (mine : Mine v n b) : b < v.nblocks := by
  by_contra outside
  have mono : v.nblocks >>> v.clfactor ≤ b >>> v.clfactor := by
    rw [Nat.shiftRight_eq_div_pow, Nat.shiftRight_eq_div_pow]
    exact Nat.div_le_div_right (Nat.le_of_not_lt outside)
  exact Nat.not_lt_of_le mono mine.whole

/-! ### The number of free clusters -/

theorem free_congr (same : ∀ c < v.clusters, (s'.bits v).used c = (s.bits v).used c) :
    free_clusters v s' = free_clusters v s := by
  rw [free_clusters, free_clusters, Nat.count_eq_card_filter_range, Nat.count_eq_card_filter_range]
  congr 1
  refine Finset.filter_congr fun c hc => ?_
  rw [same c (Finset.mem_range.mp hc)]

theorem free_pos : 0 < free_clusters v s ↔ ∃ c < v.clusters, (s.bits v).used c = false := by
  rw [free_clusters, Nat.count_eq_card_filter_range, Finset.card_pos]
  constructor
  · rintro ⟨c, hc⟩
    obtain ⟨inside, free⟩ := Finset.mem_filter.mp hc
    exact ⟨c, Finset.mem_range.mp inside, free⟩
  · rintro ⟨c, inside, free⟩
    exact ⟨c, Finset.mem_filter.mpr ⟨Finset.mem_range.mpr inside, free⟩⟩

theorem free_taken (hc : c < v.clusters) (free : (s.bits v).used c = false) :
    free_clusters v s = free_clusters v (taken v s c) + 1 := by
  have split : (Finset.range v.clusters).filter (fun i => (s.bits v).used i = false)
      = insert c ((Finset.range v.clusters).filter fun i => ((taken v s c).bits v).used i = false) := by
    ext i
    rw [Finset.mem_insert, Finset.mem_filter, Finset.mem_filter, used_taken, Bool.or_eq_false_iff,
      decide_eq_false_iff_not]
    constructor
    · rintro ⟨inside, free⟩
      exact or_iff_not_imp_left.mpr fun other => ⟨inside, other, free⟩
    · rintro (rfl | ⟨inside, -, free⟩)
      · exact ⟨Finset.mem_range.mpr hc, free⟩
      · exact ⟨inside, free⟩
  rw [free_clusters, free_clusters, Nat.count_eq_card_filter_range, Nat.count_eq_card_filter_range, split,
    Finset.card_insert_of_notMem]
  rw [Finset.mem_filter, used_taken, decide_eq_true rfl]
  rintro ⟨-, used⟩
  cases used

/-! ### `alloc_cluster` -/

/-- The first free cluster is taken. -/
theorem alloc_cluster_free (room : s.held.dedup.length < NBUFFERS) (some_free : 0 < free_clusters v s) :
    ∃ c < v.clusters, (s.bits v).used c = false ∧ alloc_cluster v s = (c <<< v.clfactor, taken v s c) := by
  obtain ⟨c, hc, free⟩ := free_pos.mp some_free
  have le := v.clusters_le
  have scanned := alloc_cluster_scanned (v := v) room
  generalize alloc_cluster v s = r at scanned
  cases scanned with
  | @found c' here there =>
    obtain ⟨-, lt, free', min⟩ := Search.first_eq_some here
    refine ⟨c', ?_, free', rfl⟩
    by_contra outside
    cases (min c (Nat.zero_le c) (by omega)).symm.trans free
  | full none there =>
    cases (Search.first_eq_none none c (Nat.zero_le c) (by omega)).symm.trans free
  | @ends m hm none outside =>
    rw [Nat.zero_add] at outside
    have inside := v.there (Nat.le_of_lt hc)
    have before : c < m := by
      by_contra behind
      have mono : vb m ≤ vb c := vb_mono (Nat.le_of_not_lt behind)
      omega
    cases (Search.first_eq_none none c (Nat.zero_le c) (by omega)).symm.trans free

/-- The data is the same, and perhaps one more buffer is held. -/
structure Still (s : St) (h : List ℕ) (s' : St) : Prop where
  data : s'.data = s.data
  held : s'.held = h ∨ ∃ b, s'.held = b :: h

/-- There is nothing free as far as the search goes. -/
def Full (v : Vol) (s : St) : Prop :=
  ∀ i < v.nblocks, v.bmblock + vb i < v.nblocks → (s.bits v).used i = true

theorem alloc_cluster_full (room : s.held.dedup.length < NBUFFERS) (full : Full v s) :
    ∃ s', alloc_cluster v s = (0, s') ∧ Still s s.held s' := by
  have scanned := alloc_cluster_scanned (v := v) room
  generalize alloc_cluster v s = r at scanned
  cases scanned with
  | @found c here there =>
    obtain ⟨-, lt, free, -⟩ := Search.first_eq_some here
    cases (full c (by omega) there).symm.trans free
  | full => exact ⟨_, rfl, rfl, Or.inr ⟨_, rfl⟩⟩
  | ends => exact ⟨_, rfl, rfl, Or.inl rfl⟩

theorem Tail.full (tail : Tail v s) (none : free_clusters v s = 0) : Full v s := by
  intro i hi there
  by_cases inside : i < v.clusters
  · by_contra free
    have some_free := free_pos.mpr ⟨i, inside, Bool.eq_false_of_not_eq_true free⟩
    omega
  · exact tail i (Nat.le_of_not_lt inside) hi there

end

end RSX280.Vol180
