import Mathlib.Data.List.Nodup
import Mathlib.Data.List.TakeWhile
import Mathlib.Tactic.Common

/-!
# Priority queues as lists

`enqueue key x l` puts `x` behind all the elements of `l` of at least its
priority. `Ordered key stamp l` says that the priorities of `l` do not rise and
that among equals the stamps do: with stamps handed out in order of insertion it
is "by descending priority, first in first out among equals". `Falling key l` says only
that the priorities do not rise.
-/

namespace RSX280.Queue

universe u

variable {α : Type u} {key key' stamp stamp' : α → ℕ} {x : α} {l : List α}

/-- Insert `x` behind the elements of at least its priority. -/
def enqueue (key : α → ℕ) (x : α) (l : List α) : List α :=
  l.takeWhile (fun a => decide (key x ≤ key a)) ++
    x :: l.dropWhile (fun a => decide (key x ≤ key a))

/-- By descending priority, and by rising stamp among equals. -/
def Ordered (key stamp : α → ℕ) (l : List α) : Prop :=
  l.Pairwise fun a b => key b < key a ∨ key a = key b ∧ stamp a < stamp b

@[simp] theorem mem_enqueue {a : α} : a ∈ enqueue key x l ↔ a = x ∨ a ∈ l := by
  conv_rhs => rw [← List.takeWhile_append_dropWhile (p := fun a => decide (key x ≤ key a)) (l := l)]
  simp only [enqueue, List.mem_append, List.mem_cons]
  exact or_left_comm

theorem Ordered.nil : Ordered key stamp ([] : List α) := List.Pairwise.nil

theorem Ordered.sublist {l' : List α} (h : Ordered key stamp l) (hs : l'.Sublist l) :
    Ordered key stamp l' :=
  List.Pairwise.sublist hs h

theorem Ordered.congr (h : Ordered key stamp l) (hk : ∀ a ∈ l, key' a = key a)
    (hs : ∀ a ∈ l, stamp' a = stamp a) : Ordered key' stamp' l := by
  refine List.Pairwise.imp_of_mem (fun ha hb hab => ?_) h
  rwa [hk _ ha, hk _ hb, hs _ ha, hs _ hb]

/-- Behind the first element of lower priority all are of lower priority. -/
theorem Ordered.lt_of_mem_dropWhile (h : Ordered key stamp l) {n : ℕ} {a : α}
    (ha : a ∈ l.dropWhile fun b => decide (n ≤ key b)) : key a < n := by
  induction l with
  | nil => cases ha
  | cons b l ih =>
    obtain ⟨hb, hl⟩ := List.pairwise_cons.mp h
    by_cases hn : n ≤ key b
    · rw [List.dropWhile_cons_of_pos (by simpa using hn)] at ha
      exact ih hl ha
    · rw [List.dropWhile_cons_of_neg (by simpa using hn)] at ha
      rcases List.mem_cons.mp ha with rfl | ha'
      · omega
      · have := hb a ha'
        omega

/-- Inserting an element with the latest stamp keeps the order. -/
theorem Ordered.enqueue (h : Ordered key stamp l) (hx : ∀ a ∈ l, stamp a < stamp x) :
    Ordered key stamp (Queue.enqueue key x l) := by
  have hsplit := List.takeWhile_append_dropWhile (p := fun a => decide (key x ≤ key a)) (l := l)
  have hl := hsplit ▸ h
  obtain ⟨h₁, h₂, h₁₂⟩ := List.pairwise_append.mp hl
  refine List.pairwise_append.mpr ⟨h₁, List.pairwise_cons.mpr ⟨?_, h₂⟩, ?_⟩
  · intro b hb
    exact Or.inl (h.lt_of_mem_dropWhile hb)
  · intro a ha b hb
    rcases List.mem_cons.mp hb with rfl | hb'
    · -- `a` was passed, so it is of at least the priority of `x`, and older
      have hka : key b ≤ key a := by simpa using List.mem_takeWhile_imp ha
      have hsa := hx a ((List.takeWhile_sublist _).mem ha)
      omega
    · exact h₁₂ a ha b hb'

/-! ## Without stamps -/

/-- By descending priority. -/
def Falling (key : α → ℕ) (l : List α) : Prop := l.Pairwise fun a b => key b ≤ key a

theorem Falling.sublist {l' : List α} (h : Falling key l) (hs : l'.Sublist l) : Falling key l' :=
  List.Pairwise.sublist hs h

theorem Falling.congr (h : Falling key l) (hk : ∀ a ∈ l, key' a = key a) : Falling key' l := by
  refine List.Pairwise.imp_of_mem (fun ha hb hab => ?_) h
  rwa [hk _ ha, hk _ hb]

theorem Falling.enqueue (h : Falling key l) : Falling key (Queue.enqueue key x l) := by
  induction l with
  | nil => exact List.pairwise_singleton ..
  | cons a l ih =>
    obtain ⟨ha, hl⟩ := List.pairwise_cons.mp h
    by_cases hx : key x ≤ key a
    · have he : Queue.enqueue key x (a :: l) = a :: Queue.enqueue key x l := by
        simp [Queue.enqueue, hx]
      rw [he]
      refine List.pairwise_cons.mpr ⟨fun b hb => ?_, ih hl⟩
      rcases mem_enqueue.mp hb with rfl | hb
      · exact hx
      · exact ha b hb
    · have he : Queue.enqueue key x (a :: l) = x :: a :: l := by
        simp [Queue.enqueue, hx]
      rw [he]
      refine List.pairwise_cons.mpr ⟨fun b hb => ?_, h⟩
      rcases List.mem_cons.mp hb with rfl | hb
      · omega
      · exact (ha b hb).trans (by omega)

theorem nodup_enqueue (h : l.Nodup) (hx : x ∉ l) : (enqueue key x l).Nodup := by
  have hsplit := List.takeWhile_append_dropWhile (p := fun a => decide (key x ≤ key a)) (l := l)
  rw [enqueue]
  refine List.nodup_middle.mpr (List.nodup_cons.mpr ⟨?_, ?_⟩)
  · rwa [hsplit]
  · rwa [hsplit]

end RSX280.Queue
