import Mathlib.Data.Nat.ModEq
import Mathlib.Logic.Function.Basic
import Mathlib.Tactic.Common
import Mathlib.Tactic.TypeStar

/-!
# A queue in a circle of places

The places `0 .. N - 1` follow each other in a circle. `run N f o n` are the `n` values from place `o` on, and
`Holds N f o i l` says that the values from the place `o` of the oldest one up to the place `i` of the next one are
`l`. At least one place is left, so that `o = i` is the empty queue.
-/

namespace RSX280.Fifo

universe u

variable {α : Type u} {N : ℕ} {f : ℕ → α} {o i n : ℕ} {l : List α} {c : α}

/-- The `n` values from place `o` on. -/
def run (N : ℕ) (f : ℕ → α) : ℕ → ℕ → List α
  | _, 0 => []
  | o, n + 1 => f o :: run N f ((o + 1) % N) n

theorem run_zero (f : ℕ → α) (o : ℕ) : run N f o 0 = [] := rfl

theorem run_succ (f : ℕ → α) (o n : ℕ) : run N f o (n + 1) = f o :: run N f ((o + 1) % N) n := rfl

theorem run_snoc (f : ℕ → α) (ho : o < N) (n : ℕ) : run N f o (n + 1) = run N f o n ++ [f ((o + n) % N)] := by
  induction n generalizing o with
  | zero => rw [run_succ, run_zero, run_zero, Nat.add_zero, Nat.mod_eq_of_lt ho, List.nil_append]
  | succ n ih =>
    have next : (o + 1) % N < N := Nat.mod_lt _ (Nat.zero_lt_of_lt ho)
    have place : ((o + 1) % N + n) % N = (o + (n + 1)) % N := by
      rw [Nat.mod_add_mod, Nat.add_assoc, Nat.add_comm 1 n]
    rw [run_succ, ih next, run_succ, List.cons_append, place]

/-- Places that follow each other are different. -/
theorem place_ne (o : ℕ) {j m : ℕ} (hj : j < m) (hm : m < N) : (o + j) % N ≠ (o + m) % N := by
  intro same
  have : j % N = m % N := Nat.ModEq.add_left_cancel' o same
  rw [Nat.mod_eq_of_lt (by omega), Nat.mod_eq_of_lt hm] at this
  omega

/-- A place that the run does not reach can be changed. -/
theorem run_update {p : ℕ} (ho : o < N) (h : ∀ j < n, (o + j) % N ≠ p) :
    run N (Function.update f p c) o n = run N f o n := by
  induction n generalizing o with
  | zero => rfl
  | succ n ih =>
    have here : o ≠ p := by
      have := h 0 (Nat.zero_lt_succ n)
      rwa [Nat.add_zero, Nat.mod_eq_of_lt ho] at this
    have rest : ∀ j < n, ((o + 1) % N + j) % N ≠ p := by
      intro j hj
      have := h (j + 1) (Nat.succ_lt_succ hj)
      rwa [Nat.mod_add_mod, Nat.add_assoc, Nat.add_comm 1 j]
    rw [run_succ, run_succ, Function.update_of_ne here, ih (Nat.mod_lt _ (Nat.zero_lt_of_lt ho)) rest]

/-- The queue from `o` up to `i` is `l`. -/
structure Holds (N : ℕ) (f : ℕ → α) (o i : ℕ) (l : List α) : Prop where
  out_lt : o < N
  next : i = (o + l.length) % N
  room : l.length < N
  values : run N f o l.length = l

theorem holds_nil (f : ℕ → α) (ho : o < N) : Holds N f o o [] where
  out_lt := ho
  next := (Nat.mod_eq_of_lt ho).symm
  room := Nat.zero_lt_of_lt ho
  values := rfl

namespace Holds

theorem in_lt (h : Holds N f o i l) : i < N := by
  rw [h.next]
  exact Nat.mod_lt _ (Nat.zero_lt_of_lt h.out_lt)

/-- The queue is empty when the places meet. -/
theorem out_eq_iff (h : Holds N f o i l) : o = i ↔ l = [] := by
  constructor
  · intro same
    by_contra some
    have pos : 0 < l.length := List.length_pos_iff.mpr some
    apply place_ne o pos h.room
    rw [← h.next, Nat.add_zero, Nat.mod_eq_of_lt h.out_lt, same]
  · rintro rfl
    rw [h.next, List.length_nil, Nat.add_zero, Nat.mod_eq_of_lt h.out_lt]

/-- It is full when the next place but one is that of the oldest value. -/
theorem succ_eq_iff (h : Holds N f o i l) : (i + 1) % N = o ↔ l.length + 1 = N := by
  have place : (i + 1) % N = (o + (l.length + 1)) % N := by rw [h.next, Nat.mod_add_mod, Nat.add_assoc]
  have room := h.room
  rw [place]
  constructor
  · intro same
    by_contra less
    have more : l.length + 1 < N := by omega
    apply place_ne o (Nat.zero_lt_succ l.length) more
    rw [same, Nat.add_zero, Nat.mod_eq_of_lt h.out_lt]
  · intro full
    rw [full, Nat.add_mod_right, Nat.mod_eq_of_lt h.out_lt]

/-- One more value. -/
theorem push (h : Holds N f o i l) (c : α) (room : l.length + 1 < N) :
    Holds N (Function.update f i c) o ((i + 1) % N) (l ++ [c]) where
  out_lt := h.out_lt
  next := by rw [h.next, Nat.mod_add_mod, List.length_append, List.length_singleton, Nat.add_assoc]
  room := by rwa [List.length_append]
  values := by
    have old : run N (Function.update f i c) o l.length = l := by
      refine (run_update h.out_lt fun j hj => ?_).trans h.values
      rw [h.next]
      exact place_ne o hj h.room
    rw [List.length_append, List.length_singleton, run_snoc _ h.out_lt, old, ← h.next, Function.update_self]

/-- The oldest value. -/
theorem head (h : Holds N f o i (c :: l)) : f o = c := by
  have values := h.values
  rw [List.length_cons, run_succ] at values
  exact (List.cons.inj values).1

/-- The queue without the oldest value. -/
theorem pop (h : Holds N f o i (c :: l)) : Holds N f ((o + 1) % N) i l where
  out_lt := Nat.mod_lt _ (Nat.zero_lt_of_lt h.out_lt)
  next := by rw [h.next, Nat.mod_add_mod, List.length_cons, Nat.add_assoc, Nat.add_comm 1]
  room := Nat.lt_of_succ_lt h.room
  values := by
    have values := h.values
    rw [List.length_cons, run_succ] at values
    exact (List.cons.inj values).2

/-- The number of values, from the places. -/
theorem length_eq (h : Holds N f o i l) : l.length = if o ≤ i then i - o else i + N - o := by
  have out := h.out_lt
  have room := h.room
  have next := h.next
  rcases Nat.lt_or_ge (o + l.length) N with less | more
  · rw [Nat.mod_eq_of_lt less] at next
    rw [if_pos (by omega)]
    omega
  · rw [Nat.mod_eq_sub_mod more, Nat.mod_eq_of_lt (by omega)] at next
    rw [if_neg (by omega)]
    omega

end Holds

end RSX280.Fifo
