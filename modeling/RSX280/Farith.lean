import RSX280.Fadd
import RSX280.Fdiv

/-!
# The four operations on decimal numbers (`libs/bcdflt`)

`arithmetic` has the results of all four for all normal numbers. The smallest result has the exponent 15, and
the largest one the exponent 112, so that with the exponent 113 there is a carry. A sum that has six bytes
loses the last one. The exponent of a product or a quotient is computed with seven bits before the number is
known; where it is not positive, nothing is said here.
-/

namespace RSX280.Bcdflt

open Bcd (num dec)

/-- The difference with the smaller number cut at the last byte of the larger one. -/
def difference (a b : Fp) : ℚ :=
  if b.exp % 128 ≤ a.exp % 128 then value a - trunc (ulp a) (value b) else trunc (ulp b) (value a) - value b

/-- What the operations return for `a` in `FR0` and `b` in `FR1`. -/
structure Arithmetic (a b : Fp) : Prop where
  add : Sum (sum a b) (top a b) (FADD a b)
  sub : Sum (difference a b) (top a b) (FSUB a b)
  mul : a = ZFR0 ∨ b = ZFR0 ∨ 63 < a.exp % 128 + b.exp % 128 → Result (value a * value b) (FMUL a b)
  div : b ≠ ZFR0 → a = ZFR0 ∨ b.exp % 128 < a.exp % 128 + 64 → Result (value a / value b) (FDIV a b)

section

variable {a b : Fp}

theorem trunc_neg (u x : ℚ) : trunc u (-x) = -trunc u x := by
  unfold trunc
  rw [abs_neg]
  rcases lt_trichotomy x 0 with neg | rfl | pos
  · rw [if_pos (by linarith), if_neg (not_le.mpr neg)]
    ring
  · rw [abs_zero, zero_div, Nat.floor_zero, Nat.cast_zero, zero_mul, mul_zero, mul_zero, neg_zero]
  · rw [if_neg (by linarith), if_pos pos.le]
    ring

theorem sum_negated (byte : b.exp < 256) : sum a ⟨negated b.exp, b.man⟩ = difference a b := by
  have mod : negated b.exp % 128 = b.exp % 128 := by
    unfold negated
    omega
  rw [sum, difference, value_negated byte, trunc_neg, ulp_negated b.man b.man]
  dsimp only
  rw [mod]
  split <;> ring

theorem Normal.byte (h : Normal a) : a.exp < 256 := h.arg.byte

/-- The four operations on normal numbers. -/
theorem arithmetic (ha : Normal a) (hb : Normal b) : Arithmetic a b where
  add := FADD_sum ha hb
  sub := by
    have sub := FSUB_sum ha hb
    rwa [sum_negated hb.byte] at sub
  mul := FMUL_result ha hb
  div nonzero room := FDIV_result ha (hb.resolve_left nonzero) room

end

/-- One third is 0.3333333333 with a carry that is clear. -/
theorem arithmetic_third :
    Result (value ⟨64, [1, 0, 0, 0, 0]⟩ / value ⟨64, [3, 0, 0, 0, 0]⟩)
      (FDIV ⟨64, [1, 0, 0, 0, 0]⟩ ⟨64, [3, 0, 0, 0, 0]⟩) := by
  have one : Normal ⟨64, [1, 0, 0, 0, 0]⟩ := Or.inr ⟨by decide, by decide, by decide, by decide, rfl, by decide⟩
  have three : Normal ⟨64, [3, 0, 0, 0, 0]⟩ := Or.inr ⟨by decide, by decide, by decide, by decide, rfl, by decide⟩
  exact (arithmetic one three).div (by decide) (Or.inr (by decide))

/-- A number with the exponent 113 and zero have a carry, and of 99.00000001 and 1 only 100 is left. -/
theorem sum_not_exact :
    (Nonzero ⟨113, [1, 0, 0, 0, 0]⟩ ∧ FADD ⟨113, [1, 0, 0, 0, 0]⟩ ZFR0 = (⟨113, [1, 0, 0, 0, 0]⟩, true)) ∧
      (Nonzero ⟨64, [0x99, 0, 0, 0, 1]⟩ ∧ Nonzero ⟨64, [1, 0, 0, 0, 0]⟩ ∧
        FADD ⟨64, [0x99, 0, 0, 0, 1]⟩ ⟨64, [1, 0, 0, 0, 0]⟩ = (⟨65, [1, 0, 0, 0, 0]⟩, false) ∧
        value ⟨64, [0x99, 0, 0, 0, 1]⟩ + value ⟨64, [1, 0, 0, 0, 0]⟩ ≠ value ⟨65, [1, 0, 0, 0, 0]⟩) := by
  refine ⟨⟨⟨by decide, by decide, by decide, by decide, rfl, by decide⟩, by decide⟩,
    ⟨by decide, by decide, by decide, by decide, rfl, by decide⟩,
    ⟨by decide, by decide, by decide, by decide, rfl, by decide⟩, by decide, ?_⟩
  have left : num [0x99, 0, 0, 0, 1] = 9900000001 := by decide
  have right : num [1, 0, 0, 0, 0] = 100000000 := by decide
  simp only [value, left, right]
  norm_num

end RSX280.Bcdflt
