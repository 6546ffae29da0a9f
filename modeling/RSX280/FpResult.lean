import Mathlib.Algebra.Order.Floor.Semifield
import RSX280.Bcdflt

/-!
# What the decimal operations return

The result of an operation is the exact one without the digits that are behind the mantissa. It is zero where
the exact result is below the smallest number, and there is a carry where it is above the largest one.
-/

namespace RSX280.Bcdflt

open Bcd (AllBcd IsBcd num dec)

/-- What the last byte of the mantissa counts. -/
def ulp (fr : Fp) : ℚ := 100 ^ (((fr.exp % 128 : ℕ) : ℤ) - 68)

/-- The number `q` without the digits behind the mantissa. -/
structure Cut (q : ℚ) (fr : Fp) : Prop where
  normal : Nonzero fr
  sign : 0 < q ↔ fr.exp < 128
  le : |value fr| ≤ |q|
  lt : |q| < |value fr| + ulp fr

/-- A register and a carry for the exact result `q`. -/
structure Result (q : ℚ) (r : Fp × Bool) : Prop where
  zero : |q| < 100 ^ (-49 : ℤ) → r = (ZFR0, false)
  huge : 100 ^ 49 ≤ |q| → r.2 = true
  cut : 100 ^ (-49 : ℤ) ≤ |q| → |q| < 100 ^ 49 → r.2 = false ∧ Cut q r.1

section

variable {fr : Fp} {q : ℚ} {m : List ℕ} {e x : ℕ}

theorem ulp_pos (fr : Fp) : 0 < ulp fr := by
  unfold ulp
  positivity

theorem abs_value (fr : Fp) : |value fr| = num fr.man * ulp fr := by
  have sign : |(if fr.exp < 128 then 1 else -1 : ℚ)| = 1 := by
    split <;> norm_num
  have pos := ulp_pos fr
  have nonneg : (0 : ℚ) ≤ num fr.man := Nat.cast_nonneg _
  change |(if fr.exp < 128 then 1 else -1 : ℚ) * num fr.man * ulp fr| = _
  rw [abs_mul, abs_mul, sign, one_mul, abs_of_nonneg nonneg, abs_of_pos pos]

theorem result_zero : Result 0 (ZFR0, false) := by
  have zero : |(0 : ℚ)| = 0 := abs_zero
  refine ⟨fun _ => rfl, fun huge => ?_, fun above _ => ?_⟩
  · rw [zero] at huge
    norm_num at huge
  · rw [zero] at above
    norm_num at above

theorem hundred_zpow (a b : ℤ) : (100 : ℚ) ^ (a + b) = 100 ^ a * 100 ^ b := zpow_add₀ (by norm_num) a b

/-- The exponent of a number tells how large it is. -/
theorem bounds (hm : Mantissa m) (first : m.headD 0 ≠ 0) (le : num m * ulp ⟨e, m⟩ ≤ |q|)
    (lt : |q| < (num m + 1) * ulp ⟨e, m⟩) :
    100 ^ (((e % 128 : ℕ) : ℤ) - 64) ≤ |q| ∧ |q| < 100 ^ (((e % 128 : ℕ) : ℤ) - 63) := by
  have low : (100 ^ 4 : ℚ) ≤ num m := by exact_mod_cast hm.first.mp first
  have high : (num m + 1 : ℚ) ≤ 100 ^ 5 := by exact_mod_cast hm.lt
  have pos := ulp_pos ⟨e, m⟩
  have unfolded : ulp ⟨e, m⟩ = 100 ^ (((e % 128 : ℕ) : ℤ) - 68) := rfl
  constructor
  · calc (100 : ℚ) ^ (((e % 128 : ℕ) : ℤ) - 64) = 100 ^ 4 * ulp ⟨e, m⟩ := by
          rw [unfolded, show ((e % 128 : ℕ) : ℤ) - 64 = 4 + (((e % 128 : ℕ) : ℤ) - 68) by ring, hundred_zpow]
          norm_num
      _ ≤ num m * ulp ⟨e, m⟩ := mul_le_mul_of_nonneg_right low pos.le
      _ ≤ |q| := le
  · calc |q| < (num m + 1) * ulp ⟨e, m⟩ := lt
      _ ≤ 100 ^ 5 * ulp ⟨e, m⟩ := mul_le_mul_of_nonneg_right high pos.le
      _ = 100 ^ (((e % 128 : ℕ) : ℤ) - 63) := by
          rw [unfolded, show ((e % 128 : ℕ) : ℤ) - 63 = 5 + (((e % 128 : ℕ) : ℤ) - 68) by ring, hundred_zpow]
          norm_num

/-- A mantissa that has no zero in front is cut off as it should be. -/
theorem dc2_result (hm : Mantissa m) (first : m.headD 0 ≠ 0) (byte : e < 256) (sign : 0 < q ↔ e < 128)
    (le : num m * ulp ⟨e, m⟩ ≤ |q|) (lt : |q| < (num m + 1) * ulp ⟨e, m⟩) : Result q (dc2 ⟨e, m⟩) := by
  obtain ⟨low, high⟩ := bounds hm first le lt
  have one : (1 : ℚ) < 100 := by norm_num
  rcases Nat.lt_or_ge (e % 128) 15 with small | least
  · have run : dc2 ⟨e, m⟩ = (ZFR0, false) := by
      rw [dc2, if_neg (by dsimp only; omega), if_pos small]
    have below : |q| < 100 ^ (-49 : ℤ) :=
      high.trans_le (zpow_le_zpow_right₀ one.le (by omega))
    have under : |q| < 100 ^ 49 := below.trans (by norm_num)
    rw [run]
    exact ⟨fun _ => rfl, fun huge => absurd huge (not_le.mpr under), fun above => absurd above (not_le.mpr below)⟩
  rcases Nat.lt_or_ge (e % 128) 113 with most | large
  · have run : dc2 ⟨e, m⟩ = (⟨e, m⟩, false) := by
      rw [dc2, if_neg (by dsimp only; omega), if_neg (by dsimp only; omega)]
    have above : (100 : ℚ) ^ (-49 : ℤ) ≤ |q| :=
      (zpow_le_zpow_right₀ one.le (by omega)).trans low
    have under : |q| < 100 ^ (49 : ℤ) := high.trans_le (zpow_le_zpow_right₀ one.le (by omega))
    have under : |q| < 100 ^ 49 := by exact_mod_cast under
    rw [run]
    refine ⟨fun below => absurd above (not_le.mpr below), fun huge => absurd huge (not_le.mpr under), fun _ _ =>
      ⟨rfl, ⟨byte, least, by dsimp only; omega, hm.bcd, hm.length, first⟩, sign, ?_, ?_⟩⟩
    · rw [abs_value]
      exact le
    · rw [abs_value]
      linarith
  · have run : dc2 ⟨e, m⟩ = (⟨e, m⟩, true) := by rw [dc2, if_pos large]
    have huge : (100 : ℚ) ^ (49 : ℤ) ≤ |q| := (zpow_le_zpow_right₀ one.le (by omega)).trans low
    have huge : (100 : ℚ) ^ 49 ≤ |q| := by exact_mod_cast huge
    have above : (100 : ℚ) ^ (-49 : ℤ) ≤ |q| := le_trans (by norm_num) huge
    rw [run]
    exact ⟨fun below => absurd above (not_le.mpr below), fun _ => rfl, fun _ under => absurd huge (not_le.mpr under)⟩

/-- `?NORM` with an exact result that has five bytes where the first byte is zero. -/
theorem NORM_result (hm : Mantissa m) (byte : e < 256) (room : 4 ≤ e % 128) (sign : q ≠ 0 → (0 < q ↔ e < 128))
    (le : num m * ulp ⟨e, m⟩ ≤ |q|) (lt : |q| < (num m + 1) * ulp ⟨e, m⟩)
    (exact_below : num m < 100 ^ 4 → |q| = num m * ulp ⟨e, m⟩) : Result q (NORM ⟨e, m⟩) := by
  rcases Nat.eq_zero_or_pos (num m) with zero | pos
  · have none : |q| = 0 := by
      rw [exact_below (by rw [zero]; norm_num), zero]
      push_cast
      ring
    rw [NORM_zero hm zero]
    refine ⟨fun _ => rfl, fun huge => ?_, fun above _ => ?_⟩
    · rw [none] at huge
      norm_num at huge
    · rw [none] at above
      norm_num at above
  obtain ⟨k, hk, m', moved, eq⟩ := NORM_spec hm pos byte room
  have mod : (e - k) % 128 = e % 128 - k := by
    have := moved.le
    omega
  have same : e - k < 128 ↔ e < 128 := by
    have := moved.le
    omega
  have nonzero : q ≠ 0 := by
    rintro rfl
    have : (0 : ℚ) < num m * ulp ⟨e, m⟩ := mul_pos (by exact_mod_cast pos) (ulp_pos _)
    rw [abs_zero] at le
    linarith
  have whole : (num m' : ℚ) * ulp ⟨e - k, m'⟩ = num m * ulp ⟨e, m⟩ := by
    have := congrArg abs (moved.value byte)
    rwa [abs_value, abs_value] at this
  rw [eq]
  refine dc2_result moved.mantissa moved.first (by omega) ((sign nonzero).trans same.symm) (whole.le.trans le) ?_
  rcases Nat.eq_zero_or_pos k with rfl | some
  · have same : num m' = num m := by
      rw [moved.num, pow_zero, Nat.one_mul]
    rw [same]
    exact lt
  · have small : num m < 100 ^ 4 := by
      have bound := moved.mantissa.lt
      rw [moved.num] at bound
      have : 100 ^ 1 ≤ 100 ^ k := Nat.pow_le_pow_right (by decide) some
      nlinarith
    rw [exact_below small, ← whole]
    have := ulp_pos ⟨e - k, m'⟩
    linarith

/-- The sign of a register. -/
def sgn (e : ℕ) : ℚ := if e < 128 then 1 else -1

theorem value_sgn (fr : Fp) : value fr = sgn fr.exp * (num fr.man * ulp fr) := mul_assoc _ _ _

theorem sgn_ne_zero (e : ℕ) : sgn e ≠ 0 := by
  unfold sgn
  split <;> norm_num

theorem sgn_spec (e : ℕ) {x : ℚ} (hx : 0 ≤ x) :
    |sgn e * x| = x ∧ (sgn e * x ≠ 0 → (0 < sgn e * x ↔ e < 128)) := by
  unfold sgn
  split
  · next plus =>
    rw [one_mul]
    exact ⟨abs_of_nonneg hx, fun ne => iff_of_true (lt_of_le_of_ne hx ne.symm) plus⟩
  · next minus =>
    rw [neg_one_mul, abs_neg]
    exact ⟨abs_of_nonneg hx, fun _ => iff_of_false (by linarith) minus⟩

/-- Where all digits of the exact result are in the mantissa, none is cut off. -/
theorem NORM_exact (hm : Mantissa m) (byte : e < 256) (room : 4 ≤ e % 128)
    (hq : q = sgn e * (num m * ulp ⟨e, m⟩)) (result : Result q (NORM ⟨e, m⟩))
    (low : 100 ^ (-49 : ℤ) ≤ |q|) (high : |q| < 100 ^ 49) : value (NORM ⟨e, m⟩).1 = q := by
  obtain ⟨-, cut⟩ := result.cut low high
  have pos : 0 < num m := by
    rw [Nat.pos_iff_ne_zero]
    intro zero
    rw [NORM_zero hm zero] at cut
    exact cut.normal.first rfl
  obtain ⟨k, hk, m', moved, eq⟩ := NORM_spec hm pos byte room
  have run : (dc2 ⟨e - k, m'⟩).1 = ⟨e - k, m'⟩ := by
    rw [eq] at cut
    rw [dc2] at cut ⊢
    split_ifs with large small
    · rfl
    · rw [if_neg large, if_pos small] at cut
      exact absurd rfl cut.normal.first
    · rfl
  rw [eq, run, moved.value byte, value_sgn, hq]

/-- `?NORMX` with the next byte of the exact result, where one of the first two bytes is not zero. -/
theorem NORMX_result (hm : Mantissa m) (hx : IsBcd x) (byte : e < 256) (room : 1 ≤ e % 128)
    (sign : 0 < q ↔ e < 128) (large : 100 ^ 4 ≤ 100 * num m + dec x)
    (le : ((100 * num m + dec x : ℕ) : ℚ) * ulp ⟨e - 1, m⟩ ≤ |q|)
    (lt : |q| < ((100 * num m + dec x : ℕ) + 1 : ℚ) * ulp ⟨e - 1, m⟩) : Result q (NORMX ⟨e, m⟩ x) := by
  have pos := ulp_pos ⟨e - 1, m⟩
  have mod : ((e - 1) % 128 : ℕ) = e % 128 - 1 := by omega
  have step : ulp ⟨e, m⟩ = 100 * ulp ⟨e - 1, m⟩ := by
    have exps : ((e % 128 : ℕ) : ℤ) - 68 = 1 + ((((e - 1) % 128 : ℕ) : ℤ) - 68) := by
      rw [mod]
      omega
    change (100 : ℚ) ^ (((e % 128 : ℕ) : ℤ) - 68) = _
    rw [exps, hundred_zpow, zpow_one]
    rfl
  have digit : (dec x : ℚ) + 1 ≤ 100 := by exact_mod_cast hx.lt
  have digit0 : (0 : ℚ) ≤ dec x := Nat.cast_nonneg _
  rw [NORMX, if_neg (by dsimp only; omega)]
  push_cast at le lt
  by_cases first : m.headD 0 ≠ 0
  · rw [dc1, if_pos first]
    refine dc2_result hm first byte sign ?_ ?_
    · rw [step]
      nlinarith
    · rw [step]
      nlinarith
  · have zero : m.headD 0 = 0 := not_not.mp first
    have shifted := num_shift x zero hm.ne_nil
    have hm' := hm.shift hx
    have first' : (m.tail ++ [x]).headD 0 ≠ 0 := hm'.first.mpr (by rw [shifted]; exact large)
    have before : (e + 255) % 256 = e - 1 := by omega
    have same : e - 1 < 128 ↔ e < 128 := by omega
    rw [dc1, if_neg first, before, dc1, if_pos first']
    refine dc2_result hm' first' (by omega) (sign.trans same.symm) ?_ ?_
    · rw [shifted]
      push_cast
      exact le
    · rw [shifted]
      push_cast
      exact lt

end

end RSX280.Bcdflt
