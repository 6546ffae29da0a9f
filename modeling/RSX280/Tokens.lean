import Mathlib.Algebra.Order.BigOperators.Group.Finset
import Mathlib.Algebra.Order.Group.Multiset
import Mathlib.Data.Fintype.Basic
import Mathlib.Data.Multiset.UnionInter
import Mathlib.Tactic.Abel

/-!
# Tokens in places

Tokens are taken from a pool, lie in places, move from one place to another, and are given back to the pool. Equal tokens
are told apart by nothing, so what lies in a place is a multiset. `Flow` says what becomes of the tokens in a step, and
steps add up.
-/

namespace RSX280.Tokens

universe u v

variable {P : Type u} {α : Type v}

/-! ### Places -/

section Places

variable [Fintype P]

/-- What lies in all places together. -/
def total (f : P → Multiset α) : Multiset α := ∑ p, f p

theorem le_total (f : P → Multiset α) (p : P) : f p ≤ total f := by
  apply Finset.single_le_sum (fun x _ => Multiset.zero_le (f x))
  simp

theorem mem_total {f : P → Multiset α} {a : α} : a ∈ total f ↔ ∃ p, a ∈ f p := by
  simp [total, Multiset.mem_sum]

theorem total_congr {f g : P → Multiset α} (h : ∀ p, g p = f p) : total g = total f := by
  simp [total, h]

theorem total_zero {f : P → Multiset α} (h : ∀ p, f p = 0) : total f = 0 := by
  simp [total, h]

/-- One place is changed. -/
theorem total_update {f g : P → Multiset α} (p : P) (h : ∀ q, q ≠ p → g q = f q) :
    total g + f p = total f + g p := by
  classical
  have hg := Finset.add_sum_erase Finset.univ g (Finset.mem_univ p)
  have hf := Finset.add_sum_erase Finset.univ f (Finset.mem_univ p)
  have rest : ∑ x ∈ Finset.univ.erase p, g x = ∑ x ∈ Finset.univ.erase p, f x := by
    apply Finset.sum_congr rfl
    intro q hq
    exact h q (Finset.ne_of_mem_erase hq)
  rw [total, total, ← hg, ← hf, rest]
  abel

end Places

/-! ### What becomes of them -/

/-- The tokens that the pool has given and not got back, and those that lie in places. -/
structure Books (α : Type v) where
  pool : Multiset α
  placed : Multiset α

/-- Tokens are `made` and laid down, taken up and `spent`, and `lost`: those are in no place, and the pool does not get
them back. -/
structure Flow (a b : Books α) (made spent lost : Multiset α) : Prop where
  pool : b.pool + spent = a.pool + made
  placed : b.placed + spent + lost = a.placed + made

variable {a b c : Books α} {made made' spent spent' lost lost' : Multiset α}

theorem Flow.refl (a : Books α) : Flow a a 0 0 0 := by constructor <;> simp

theorem Flow.trans (h : Flow a b made spent lost) (h' : Flow b c made' spent' lost') :
    Flow a c (made + made') (spent + spent') (lost + lost') := by
  constructor
  · calc c.pool + (spent + spent') = (c.pool + spent') + spent := by abel
      _ = (b.pool + spent) + made' := by rw [h'.pool]; abel
      _ = a.pool + (made + made') := by rw [h.pool]; abel
  · calc c.placed + (spent + spent') + (lost + lost')
        = (c.placed + spent' + lost') + (spent + lost) := by abel
      _ = (b.placed + spent + lost) + made' := by rw [h'.placed]; abel
      _ = a.placed + (made + made') := by rw [h.placed]; abel

/-- What lies in places has come from the pool: nothing that has been given back lies anywhere. -/
theorem Flow.sound (h : Flow a b made spent lost) (ha : a.placed ≤ a.pool) : b.placed ≤ b.pool := by
  have le : b.placed + lost + spent ≤ b.pool + spent := by
    calc b.placed + lost + spent = b.placed + spent + lost := by abel
      _ = a.placed + made := h.placed
      _ ≤ a.pool + made := by gcongr
      _ = b.pool + spent := h.pool.symm
  exact le_trans (Multiset.le_add_right _ _) (le_of_add_le_add_right le)

/-- When nothing is lost, all that the pool has given lies somewhere. -/
theorem Flow.full (h : Flow a b made spent 0) (ha : a.placed = a.pool) : b.placed = b.pool := by
  apply add_right_cancel (b := spent)
  have := h.placed
  rw [add_zero, ha] at this
  rw [this, h.pool]

/-- The tokens of a history: each that has been made is spent or not given back yet. -/
theorem Flow.history {m s : Multiset α} (h : Flow a b made spent lost) (ha : a.pool + s = m) :
    b.pool + (s + spent) = m + made := by
  calc b.pool + (s + spent) = (b.pool + spent) + s := by abel
    _ = (a.pool + s) + made := by rw [h.pool]; abel
    _ = m + made := by rw [ha]

/-- Tokens that are not lost are in a place that they were in or that they have been made for. -/
theorem Flow.mem (h : Flow a b made spent lost) {x : α} (hx : x ∈ b.placed) : x ∈ a.placed ∨ x ∈ made := by
  have : x ∈ a.placed + made := by
    rw [← h.placed]
    simp [hx]
  simpa using this

end RSX280.Tokens
