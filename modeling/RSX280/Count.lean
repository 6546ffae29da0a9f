import Mathlib.Data.Nat.Notation
import Mathlib.Order.Nat
import Mathlib.Tactic.Common

/-!
# Counting the unset bits of a range

`zeros f i m` is the number of unset bits among the `m` from `i` on. A run that is filled takes
as many off it as it is long.
-/

namespace RSX280.Count

variable {f g : ℕ → Bool} {i m s n : ℕ}

def zeros (f : ℕ → Bool) : ℕ → ℕ → ℕ
  | _, 0 => 0
  | i, m + 1 => (if f i then 0 else 1) + zeros f (i + 1) m

theorem zeros_zero (f : ℕ → Bool) (i : ℕ) : zeros f i 0 = 0 := rfl

theorem zeros_succ (f : ℕ → Bool) (i m : ℕ) : zeros f i (m + 1) = (if f i then 0 else 1) + zeros f (i + 1) m := rfl

theorem zeros_le (f : ℕ → Bool) (i m : ℕ) : zeros f i m ≤ m := by
  induction m generalizing i with
  | zero => exact le_rfl
  | succ m ih =>
    have h := ih (i + 1)
    rw [zeros_succ]
    split <;> omega

theorem zeros_append (f : ℕ → Bool) (i m m' : ℕ) :
    zeros f i (m + m') = zeros f i m + zeros f (i + m) m' := by
  induction m generalizing i with
  | zero => rw [Nat.zero_add, zeros_zero, Nat.zero_add, Nat.add_zero]
  | succ m ih =>
    rw [Nat.add_right_comm, zeros_succ, zeros_succ, ih, show i + (m + 1) = i + 1 + m by omega,
      ← Nat.add_assoc]

theorem zeros_congr (h : ∀ j, i ≤ j → j < i + m → f j = g j) : zeros f i m = zeros g i m := by
  induction m generalizing i with
  | zero => rfl
  | succ m ih =>
    rw [zeros_succ, zeros_succ, h i le_rfl (by omega), ih fun j h₁ h₂ => h j (by omega) (by omega)]

theorem zeros_eq_zero : zeros f i m = 0 ↔ ∀ j, i ≤ j → j < i + m → f j = true := by
  induction m generalizing i with
  | zero => exact iff_of_true rfl fun j h₁ h₂ => absurd h₁ (by omega)
  | succ m ih =>
    rw [zeros_succ, Nat.add_eq_zero_iff, ih]
    constructor
    · rintro ⟨hi, h⟩ j h₁ h₂
      rcases eq_or_lt_of_le h₁ with rfl | h₁
      · by_contra hne
        rw [if_neg hne] at hi
        cases hi
      · exact h j h₁ (by omega)
    · exact fun h => ⟨if_pos (h i le_rfl (by omega)), fun j h₁ h₂ => h j (by omega) (by omega)⟩

theorem zeros_free (h : ∀ j, i ≤ j → j < i + m → f j = false) : zeros f i m = m := by
  induction m generalizing i with
  | zero => rfl
  | succ m ih =>
    rw [zeros_succ, h i le_rfl (by omega), ih fun j h₁ h₂ => h j (by omega) (by omega)]
    exact Nat.add_comm 1 m

/-- The bits from `s` on are filled. -/
theorem zeros_fill (hg : ∀ j, g j = (decide (s ≤ j ∧ j < s + n) || f j))
    (hf : ∀ j, s ≤ j → j < s + n → f j = false) (hm : s + n ≤ m) :
    zeros f 0 m = zeros g 0 m + n := by
  obtain ⟨r, rfl⟩ : ∃ r, m = s + n + r := ⟨m - (s + n), by omega⟩
  have hbefore : zeros g 0 s = zeros f 0 s := zeros_congr fun j _ h₂ => by
    rw [hg, decide_eq_false (by omega), Bool.false_or]
  have hbehind : zeros g (s + n) r = zeros f (s + n) r := zeros_congr fun j h₁ _ => by
    rw [hg, decide_eq_false (by omega), Bool.false_or]
  have hin : zeros g s n = 0 := zeros_eq_zero.mpr fun j h₁ h₂ => by
    rw [hg, decide_eq_true ⟨h₁, h₂⟩, Bool.true_or]
  rw [zeros_append, zeros_append, zeros_append g, zeros_append g, Nat.zero_add, Nat.zero_add,
    hbefore, hbehind, hin, zeros_free hf]
  omega

/-- A bit is unset. -/
theorem zeros_clear (hg : ∀ j, g j = (decide (j ≠ s) && f j)) (hs : f s = true) (hm : s < m) :
    zeros g 0 m = zeros f 0 m + 1 := by
  refine zeros_fill (s := s) (fun j => ?_) (fun j h₁ h₂ => ?_) (by omega)
  · rw [hg]
    rcases eq_or_ne j s with rfl | hne
    · rw [hs, decide_eq_true (show j ≤ j ∧ j < j + 1 by omega), Bool.true_or]
    · rw [decide_eq_true hne, Bool.true_and, decide_eq_false (by omega), Bool.false_or]
  · rw [hg, decide_eq_false (by omega), Bool.false_and]

end RSX280.Count
