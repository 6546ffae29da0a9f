import Mathlib.Algebra.Order.Field.Power
import Mathlib.Data.Rat.Floor
import RSX280.Bcd

/-!
# Decimal floating point numbers (`libs/bcdflt`)

A number is six bytes: the sign and the exponent, which is 64 in excess, and a mantissa of ten decimal digits
with the point behind its first byte. The exponent counts pairs of digits. `FR0` and `FR1` are the registers
of the library, and `?NORM` moves the mantissa of `FR0` to the left until its first byte is not zero.
-/

namespace RSX280.Bcdflt

open Bcd (AllBcd IsBcd num dec)

/-- The six bytes of a register. -/
structure Fp where
  exp : ℕ
  man : List ℕ
  deriving DecidableEq, Repr

/-! ### Normal numbers -/

/-- `ZFR0`. -/
def ZFR0 : Fp := ⟨0, List.replicate 5 0⟩

/-- From `dc2` on: the exponent is checked. -/
def dc2 (fr : Fp) : Fp × Bool :=
  if 113 ≤ fr.exp % 128 then (fr, true)
  else if fr.exp % 128 < 15 then (ZFR0, false)
  else (fr, false)

/-- The loop `dc1`, with the byte `x` behind the mantissa. -/
def dc1 (x : ℕ) : ℕ → Fp → Fp × Bool
  | 0, fr => if fr.man.headD 0 ≠ 0 then dc2 fr else (⟨0, fr.man⟩, false)
  | b + 1, fr =>
    if fr.man.headD 0 ≠ 0 then dc2 fr else dc1 x b ⟨(fr.exp + 255) % 256, fr.man.tail ++ [x]⟩

/-- `?NORMX`: the number and the carry. -/
def NORMX (fr : Fp) (x : ℕ) : Fp × Bool := if fr.exp = 0 then (fr, false) else dc1 x 4 fr

/-- `?NORM`. -/
def NORM (fr : Fp) : Fp × Bool := NORMX fr 0

/-- The value of a register. -/
def value (fr : Fp) : ℚ :=
  (if fr.exp < 128 then 1 else -1) * num fr.man * 100 ^ (((fr.exp % 128 : ℕ) : ℤ) - 68)

/-- A number that is not zero and has a byte that is not zero in front. -/
structure Nonzero (fr : Fp) : Prop where
  byte : fr.exp < 256
  least : 15 ≤ fr.exp % 128
  most : fr.exp % 128 ≤ 113
  bcd : AllBcd fr.man
  length : fr.man.length = 5
  first : fr.man.headD 0 ≠ 0

/-- The normal numbers. -/
def Normal (fr : Fp) : Prop := fr = ZFR0 ∨ Nonzero fr

section

variable {fr : Fp} {m : List ℕ} {a e n x : ℕ}

theorem value_ZFR0 : value ZFR0 = 0 := by
  have zero : num ZFR0.man = 0 := Bcd.num_replicate_zero 5
  rw [value, zero]
  ring

theorem num_of_first (h : m.length = 5) (first : m.headD 0 ≠ 0) : 100 ^ 4 ≤ num m := by
  cases m with
  | nil => cases h
  | cons a m =>
    have len : m.length = 4 := Nat.succ.inj h
    have pos : 1 ≤ dec a := Nat.pos_of_ne_zero fun zero => first (Bcd.IsBcd.dec_eq_zero.mp zero)
    rw [num, len]
    omega

theorem num_shift (x : ℕ) (first : m.headD 0 = 0) (hne : m ≠ []) :
    num (m.tail ++ [x]) = 100 * num m + dec x := by
  cases m with
  | nil => exact absurd rfl hne
  | cons a m =>
    obtain rfl : a = 0 := first
    have zero : dec 0 = 0 := rfl
    simp only [List.tail_cons, Bcd.num_append, num, zero, List.length_singleton, List.length_nil]
    ring

/-! ### `?NORM` -/

/-- A mantissa of five bytes. -/
structure Mantissa (m : List ℕ) : Prop where
  bcd : AllBcd m
  length : m.length = 5

theorem Mantissa.lt (h : Mantissa m) : num m < 100 ^ 5 := h.length ▸ h.bcd.lt

theorem Mantissa.ne_nil (h : Mantissa m) : m ≠ [] := by
  rintro rfl
  cases h.length

theorem Mantissa.first (h : Mantissa m) : m.headD 0 ≠ 0 ↔ 100 ^ 4 ≤ num m := by
  refine ⟨num_of_first h.length, fun le zero => ?_⟩
  have shifted := num_shift 0 zero h.ne_nil
  have bound : num (m.tail ++ [0]) < 100 ^ 5 := by
    have bcd : AllBcd (m.tail ++ [0]) := Bcd.allBcd_append.mpr
      ⟨fun b hb => h.bcd b (List.mem_of_mem_tail hb), List.forall_mem_singleton.mpr (by decide)⟩
    have length : (m.tail ++ [0]).length = 5 := by
      rw [List.length_append, List.length_tail, h.length]
      rfl
    exact length ▸ bcd.lt
  rw [shifted] at bound
  omega

theorem Mantissa.shift (h : Mantissa m) (hx : IsBcd x) : Mantissa (m.tail ++ [x]) where
  bcd := Bcd.allBcd_append.mpr
    ⟨fun b hb => h.bcd b (List.mem_of_mem_tail hb), List.forall_mem_singleton.mpr hx⟩
  length := by
    rw [List.length_append, List.length_tail, h.length]
    rfl

theorem Mantissa.zero (h : Mantissa m) (zero : num m = 0) : m = List.replicate 5 0 :=
  h.length ▸ Bcd.num_eq_zero zero

theorem dc1_zero (b : ℕ) (h : Mantissa m) (zero : num m = 0) : dc1 0 b ⟨e, m⟩ = (ZFR0, false) := by
  induction b generalizing e with
  | zero =>
    obtain rfl := h.zero zero
    rfl
  | succ b ih =>
    obtain rfl := h.zero zero
    exact ih

/-- The mantissa was moved by `k` bytes. -/
structure Moved (e : ℕ) (m : List ℕ) (k : ℕ) (m' : List ℕ) : Prop where
  mantissa : Mantissa m'
  first : m'.headD 0 ≠ 0
  num : Bcd.num m' = 100 ^ k * Bcd.num m
  le : k ≤ e % 128

theorem dc1_spec (b : ℕ) (h : Mantissa m) (hb : b ≤ 4) (large : 100 ^ (4 - b) ≤ num m) (byte : e < 256)
    (room : b ≤ e % 128) : ∃ k ≤ b, ∃ m', Moved e m k m' ∧ dc1 0 b ⟨e, m⟩ = dc2 ⟨e - k, m'⟩ := by
  induction b generalizing e m with
  | zero =>
    have first := h.first.mpr large
    exact ⟨0, Nat.le_refl 0, m, ⟨h, first, (Nat.one_mul _).symm, Nat.zero_le _⟩, if_pos first⟩
  | succ b ih =>
    by_cases first : m.headD 0 ≠ 0
    · exact ⟨0, Nat.zero_le _, m, ⟨h, first, (Nat.one_mul _).symm, Nat.zero_le _⟩, if_pos first⟩
    · have zero : m.headD 0 = 0 := not_not.mp first
      have shifted := num_shift 0 zero h.ne_nil
      have value : num (m.tail ++ [0]) = 100 * num m := shifted
      have before : (e + 255) % 256 = e - 1 := by omega
      have power : 100 ^ (4 - b) = 100 * 100 ^ (4 - (b + 1)) := by
        rw [show 4 - b = 4 - (b + 1) + 1 by omega, pow_succ']
      obtain ⟨k, hk, m', moved, eq⟩ := ih (h.shift (x := 0) (by decide)) (e := e - 1) (by omega)
        (by rw [value, power]; omega) (by omega) (by omega)
      refine ⟨k + 1, Nat.succ_le_succ hk, m', ⟨moved.mantissa, moved.first, ?_, ?_⟩, ?_⟩
      · rw [moved.num, value, pow_succ]
        ring
      · omega
      · rw [dc1, if_neg first, before, eq, Nat.sub_sub, Nat.add_comm 1]

theorem NORM_zero (h : Mantissa m) (zero : num m = 0) : NORM ⟨e, m⟩ = (ZFR0, false) := by
  rw [NORM, NORMX]
  split
  · next e0 =>
    obtain rfl := h.zero zero
    obtain rfl : e = 0 := e0
    rfl
  · exact dc1_zero 4 h zero

/-- `?NORM` of a number that is not zero. -/
theorem NORM_spec (h : Mantissa m) (pos : 0 < num m) (byte : e < 256) (room : 4 ≤ e % 128) :
    ∃ k ≤ 4, ∃ m', Moved e m k m' ∧ NORM ⟨e, m⟩ = dc2 ⟨e - k, m'⟩ := by
  obtain ⟨k, hk, m', moved, eq⟩ := dc1_spec 4 h (Nat.le_refl 4) pos byte room
  refine ⟨k, hk, m', moved, ?_⟩
  rw [NORM, NORMX, if_neg (by intro zero; dsimp only at zero; omega), eq]

/-- The value does not change. -/
theorem Moved.value {m' : List ℕ} {k : ℕ} (h : Moved e m k m') (byte : e < 256) :
    value ⟨e - k, m'⟩ = value ⟨e, m⟩ := by
  have le := h.le
  have sign : e - k < 128 ↔ e < 128 := by omega
  have mod : ((e - k) % 128 : ℕ) = e % 128 - k := by omega
  have cast : (((e - k) % 128 : ℕ) : ℤ) - 68 = (((e % 128 : ℕ) : ℤ) - 68) - k := by
    rw [mod]
    omega
  rw [Bcdflt.value, Bcdflt.value]
  dsimp only
  rw [cast, h.num, zpow_sub₀ (by norm_num : (100 : ℚ) ≠ 0), zpow_natCast]
  simp only [sign]
  push_cast
  field_simp

end

end RSX280.Bcdflt
