import Mathlib.Data.Nat.Notation
import Mathlib.Tactic.Ring
import Mathlib.Tactic.Linarith

/-!
# The arithmetic of the assembler's expressions

`zsm/eval.mac` multiplies and divides 16-bit words by shifting registers through the carry. `DE` is
the first operand and `HL` the second; the multiplier leaves `DE` bit by bit while the upper half of
the product comes in behind it, and so does the dividend while the quotient comes in.
-/

namespace RSX280.Eval

/-- `MU1`: `a` bits of `DE` to go, `HL` is the lower half of the product. -/
def MU1 (bc : ℕ) : ℕ → ℕ → ℕ → ℕ
  | 0, _, hl => hl
  | a + 1, de, hl =>
    let hl₂ := 2 * hl
    let de₂ := 2 * de + hl₂ / 65536
    if de₂ / 65536 = 0 then MU1 bc a (de₂ % 65536) (hl₂ % 65536)
    else
      let sum := hl₂ % 65536 + bc
      MU1 bc a (if sum / 65536 = 0 then de₂ % 65536 else (de₂ % 65536 + 1) % 65536) (sum % 65536)

/-- `MULT`. -/
def MULT (de hl : ℕ) : ℕ := MU1 hl 16 de 0

/-- `DIV1`: `a` bits of the dividend in `DE` to go, `HL` is the remainder so far and `cy` the bit of
the quotient that comes in next. -/
def DIV1 (bc : ℕ) : ℕ → ℕ → ℕ → ℕ → ℕ × ℕ
  | 0, cy, de, hl => ((2 * de + cy) % 65536, hl)
  | a + 1, cy, de, hl =>
    let de₂ := 2 * de + cy
    let hl₂ := 2 * hl + de₂ / 65536
    let cy₂ := hl₂ / 65536
    if hl₂ % 65536 < bc + cy₂ then
      -- it did not go in: the divisor is added back
      let sum := (hl₂ % 65536 + 65536 - bc - cy₂) % 65536 + bc
      DIV1 bc a (1 - sum / 65536) (de₂ % 65536) (sum % 65536)
    else DIV1 bc a 1 (de₂ % 65536) (hl₂ % 65536 - bc - cy₂)

/-- `BDIV0`: the quotient and the remainder. -/
def BDIV0 (de hl : ℕ) : ℕ × ℕ := DIV1 hl 16 0 de 0

/-- `BSHR1`: as many times as `DE` counts down. -/
def BSHR1 : ℕ → ℕ → ℕ
  | 0, hl => hl
  | de + 1, hl => BSHR1 de (hl / 2)

def BSHL1 : ℕ → ℕ → ℕ
  | 0, hl => hl
  | de + 1, hl => BSHL1 de (2 * hl % 65536)

/-- The multiplier bits still to come are `r`, those gone gave the product `p`. -/
theorem MU1_eq {bc a m r p de hl : ℕ} (hm : 2 ^ a * m = 65536) (hr : r < 2 ^ a) (hbc : bc < 65536)
    (hp : p ≤ (m - 1) * 65535) (hx : de * 65536 + hl = r * m * 65536 + p) (hh : hl < 65536) : MU1 bc a de hl = (p * 2 ^ a + r * bc) % 65536 := by
  induction a generalizing m r p de hl with
  | zero =>
    obtain rfl : r = 0 := by omega
    rw [MU1, Nat.pow_zero, Nat.mul_one, Nat.zero_mul, Nat.add_zero]
    omega
  | succ a ih =>
    rw [Nat.pow_succ] at hm hr
    have half : 2 ^ a * m = 32768 := by
      have two : 2 ^ a * 2 * m = 2 * (2 ^ a * m) := by ring
      omega
    have pos : 0 < m := by
      rcases Nat.eq_zero_or_pos m with h | h
      · rw [h] at half
        omega
      · exact h
    -- the next bit and the ones behind it
    obtain ⟨b, r', hb2, hr', rfl⟩ : ∃ b r', b ≤ 1 ∧ r' < 2 ^ a ∧ r = b * 2 ^ a + r' := by
      rcases Nat.lt_or_ge r (2 ^ a) with h | h
      · exact ⟨0, r, by omega, h, by omega⟩
      · exact ⟨1, r - 2 ^ a, by omega, by omega, by omega⟩
    have low : r' * m + m ≤ 32768 := by
      have le := Nat.mul_le_mul_right m (Nat.succ_le_of_lt hr')
      rw [half, Nat.succ_mul] at le
      exact le
    have high : (b * 2 ^ a + r') * m = b * 32768 + r' * m := by
      rw [Nat.add_mul, Nat.mul_assoc, half]
    rw [high] at hx
    have double : r' * (2 * m) = 2 * (r' * m) := by ring
    have m2 : 2 ^ a * (2 * m) = 65536 := by
      rw [Nat.mul_left_comm, half]
    generalize r' * m = q at hx low double
    have shift : 2 * hl = 65536 * (2 * hl / 65536) + 2 * hl % 65536 :=
      (Nat.div_add_mod (2 * hl) 65536).symm
    have lower : 2 * hl % 65536 < 65536 := Nat.mod_lt _ (by decide)
    rw [MU1]
    dsimp only
    generalize 2 * hl / 65536 = x at shift ⊢
    generalize 2 * hl % 65536 = y at shift lower ⊢
    have out : (2 * de + x) / 65536 = b := by omega
    have upper : 65536 * ((2 * de + x) / 65536) + (2 * de + x) % 65536 = 2 * de + x :=
      Nat.div_add_mod (2 * de + x) 65536
    rw [out] at upper ⊢
    generalize (2 * de + x) % 65536 = z at upper ⊢
    rcases Nat.le_one_iff_eq_zero_or_eq_one.mp hb2 with h | h
    · have product : 2 * p * 2 ^ a + r' * bc = p * (2 ^ a * 2) + (b * 2 ^ a + r') * bc := by
        rw [h]
        ring
      have shifted : z * 65536 + y = 2 * q * 65536 + 2 * p := by
        rw [h] at upper hx
        linarith
      have here := shifted.trans (congrArg (fun k => k * 65536 + 2 * p) double.symm)
      rw [if_pos h, ih m2 hr' (by omega) here lower, Nat.pow_succ, product]
    · have product : (2 * p + bc) * 2 ^ a + r' * bc = p * (2 ^ a * 2) + (b * 2 ^ a + r') * bc := by
        rw [h]
        ring
      have shifted : (if (y + bc) / 65536 = 0 then z else (z + 1) % 65536) * 65536
          + (y + bc) % 65536 = 2 * q * 65536 + (2 * p + bc) := by
        have split := Nat.div_add_mod (y + bc) 65536
        have carry : (y + bc) / 65536 ≤ 1 := by omega
        rw [h] at upper hx
        split
        · next c =>
          rw [c] at split
          linarith
        · next c =>
          have one : (y + bc) / 65536 = 1 := by omega
          have room : z + 1 < 65536 := by omega
          rw [one] at split
          rw [Nat.mod_eq_of_lt room]
          linarith
      have here := shifted.trans (congrArg (fun k => k * 65536 + (2 * p + bc)) double.symm)
      rw [if_neg (h ▸ Nat.one_ne_zero), ih m2 hr' (by omega) here (Nat.mod_lt _ (by decide)),
        Nat.pow_succ, product]

theorem MULT_eq {de hl : ℕ} (hd : de < 65536) (hh : hl < 65536) :
    MULT de hl = de * hl % 65536 := by
  have start : de * 65536 + 0 = de * 1 * 65536 + 0 := by rw [Nat.mul_one]
  have product := MU1_eq (a := 16) (m := 1) rfl hd hh (Nat.zero_le _) start (Nat.zero_lt_succ _)
  rw [Nat.zero_mul, Nat.zero_add] at product
  exact product

/-- The dividend bits still to come are `d`; those gone gave the quotient `q` and the remainder. -/
theorem DIV1_eq {bc a m d q cy de hl n : ℕ} (hm : 2 ^ a * m = 65536) (hd : d < 2 ^ a)
    (hbc : bc < 65536) (hq : q < m) (hw : 2 * de + cy = d * (2 * m) + q)
    (hn : n = (q * bc + hl) * 2 ^ a + d) (lt : hl < bc) (small : hl < m) :
    DIV1 bc a cy de hl = (n / bc % 65536, n % bc) := by
  induction a generalizing m d q cy de hl with
  | zero =>
    obtain rfl : d = 0 := by omega
    rw [Nat.pow_zero, Nat.mul_one, Nat.add_zero] at hn
    rw [Nat.zero_mul, Nat.zero_add] at hw
    have quotient : (q * bc + hl) / bc = q := by
      rw [Nat.add_comm, Nat.add_mul_div_right _ _ (by omega), Nat.div_eq_of_lt lt, Nat.zero_add]
    have remainder : (q * bc + hl) % bc = hl := by
      rw [Nat.add_comm, Nat.add_mul_mod_self_right, Nat.mod_eq_of_lt lt]
    rw [DIV1, hw, hn, quotient, remainder]
  | succ a ih =>
    rw [Nat.pow_succ] at hm hd hn
    have half : 2 ^ a * m = 32768 := by
      have two : 2 ^ a * 2 * m = 2 * (2 ^ a * m) := by ring
      omega
    obtain ⟨b, d', hb2, hd', rfl⟩ : ∃ b d', b ≤ 1 ∧ d' < 2 ^ a ∧ d = b * 2 ^ a + d' := by
      rcases Nat.lt_or_ge d (2 ^ a) with h | h
      · exact ⟨0, d, by omega, h, by omega⟩
      · exact ⟨1, d - 2 ^ a, by omega, by omega, by omega⟩
    have low : d' * m + m ≤ 32768 := by
      have le := Nat.mul_le_mul_right m (Nat.succ_le_of_lt hd')
      rw [half, Nat.succ_mul] at le
      exact le
    have high : (b * 2 ^ a + d') * (2 * m) = b * 65536 + 2 * (d' * m) := by
      have ring : (b * 2 ^ a + d') * (2 * m) = 2 * b * (2 ^ a * m) + 2 * (d' * m) := by ring
      rw [ring, half]
      omega
    have double : d' * (2 * (2 * m)) = 4 * (d' * m) := by ring
    have m2 : 2 ^ a * (2 * m) = 65536 := by
      rw [Nat.mul_left_comm, half]
    rw [high] at hw
    generalize d' * m = w at hw low double
    have out : (2 * de + cy) / 65536 = b := by omega
    have fits : (2 * hl + b) / 65536 = 0 := by omega
    rw [DIV1]
    dsimp only
    rw [out, fits, Nat.mod_eq_of_lt (by omega : 2 * hl + b < 65536)]
    split
    · -- the divisor does not go in
      next lt' =>
      have back : (2 * hl + b + 65536 - bc - 0) % 65536 + bc = 2 * hl + b + 65536 := by omega
      have same : (2 * hl + b + 65536) % 65536 = 2 * hl + b := by omega
      have no : 1 - (2 * hl + b + 65536) / 65536 = 0 := by omega
      rw [back, same, no]
      refine ih (m := 2 * m) (d := d') (q := 2 * q) m2 hd' (by omega) (by omega) ?_ (by omega)
        (by omega)
      rw [hn]
      ring
    · next ge =>
      refine ih (m := 2 * m) (d := d') (q := 2 * q + 1) m2 hd' (by omega) (by omega) ?_ (by omega)
        (by omega)
      obtain ⟨k, hk⟩ : ∃ k, 2 * hl + b = bc + k := ⟨2 * hl + b - bc, by omega⟩
      have rest : 2 * hl + b - bc - 0 = k := by omega
      rw [rest, hn]
      have scaled : 2 * hl * 2 ^ a + b * 2 ^ a = (bc + k) * 2 ^ a := by rw [← hk, Nat.add_mul]
      calc (q * bc + hl) * (2 ^ a * 2) + (b * 2 ^ a + d')
          = 2 * q * bc * 2 ^ a + (2 * hl * 2 ^ a + b * 2 ^ a) + d' := by ring
        _ = ((2 * q + 1) * bc + k) * 2 ^ a + d' := by
          rw [scaled]
          ring

theorem BDIV0_eq {de hl : ℕ} (hd : de < 65536) (hh : hl < 65536) (h : 0 < hl) :
    BDIV0 de hl = (de / hl, de % hl) := by
  have quotient : DIV1 hl 16 0 de 0 = (de / hl % 65536, de % hl) :=
    DIV1_eq (m := 1) (q := 0) rfl hd hh Nat.one_pos (by omega) (by omega) h Nat.one_pos
  have small : de / hl % 65536 = de / hl :=
    Nat.mod_eq_of_lt (Nat.lt_of_le_of_lt (Nat.div_le_self _ _) hd)
  rw [BDIV0, quotient, small]

theorem BSHR1_eq (de hl : ℕ) : BSHR1 de hl = hl / 2 ^ de := by
  induction de generalizing hl with
  | zero => rw [BSHR1, Nat.pow_zero, Nat.div_one]
  | succ de ih => rw [BSHR1, ih, Nat.div_div_eq_div_mul, Nat.pow_succ, Nat.mul_comm]

theorem BSHL1_eq (de : ℕ) {hl : ℕ} (hh : hl < 65536) : BSHL1 de hl = hl * 2 ^ de % 65536 := by
  induction de generalizing hl with
  | zero => rw [BSHL1, Nat.pow_zero, Nat.mul_one, Nat.mod_eq_of_lt hh]
  | succ de ih =>
    have product : 2 * hl * 2 ^ de = hl * 2 ^ (de + 1) := by ring
    rw [BSHL1, ih (Nat.mod_lt _ (by decide)), Nat.mod_mul_mod, product]

end RSX280.Eval
