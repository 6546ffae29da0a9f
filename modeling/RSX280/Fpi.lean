import RSX280.Bcdflt

/-!
# Integers and floating point numbers (`libs/bcdflt/fpi.mac`, `ifp.mac`)

`FPI` takes the digits before the point out of the mantissa, one after the other, and rounds by the next
digit. `IFP` doubles a decimal number for each bit of the integer.

`fpi_right_iff` says for which numbers `FPI` returns the nearest integer. The digit by which it rounds is the
first one of the mantissa for all numbers below 1, also for those below 1/100, and a number from 65535.5 on is
rounded to zero.
-/

namespace RSX280.Fpi

open Bcd (AllBcd IsBcd num dec rol)
open Bcdflt

/-! ### The routines -/

/-- `?ROLF0`: the mantissa moved by a digit, and the digit that comes out. -/
def ROLF0 (m : List ℕ) : List ℕ × ℕ := rol 0 m

/-- The loop `fpi1`, with the number of digits in `C`. -/
def fpi1 : ℕ → ℕ → List ℕ → Option (ℕ × List ℕ)
  | 0, HL, m => some (HL, m)
  | c + 1, HL, m =>
    let DE := HL + HL
    if 65536 ≤ DE then none
    else if 65536 ≤ DE + DE then none
    else if 65536 ≤ DE + DE + (DE + DE) then none
    else if 65536 ≤ DE + DE + (DE + DE) + DE then none
    else
      let (m, digit) := ROLF0 m
      if 65536 ≤ DE + DE + (DE + DE) + DE + digit then none
      else fpi1 c (DE + DE + (DE + DE) + DE + digit) m

/-- From `fpi2` on. -/
def fpi2 (HL : ℕ) (m : List ℕ) : ℕ := if (ROLF0 m).2 < 5 then HL else (HL + 1) % 65536

/-- `FPI`: the integer, or none and the carry. -/
def FPI (fr : Fp) : Option ℕ :=
  if 128 ≤ fr.exp then none
  else if 0x43 ≤ fr.exp then none
  else if fr.exp < 0x40 then some (fpi2 0 fr.man)
  else (fpi1 (2 * (fr.exp - 0x40 + 1)) 0 fr.man).map fun p => fpi2 p.1 p.2

/-- The loop `ifp2`: the three bytes are doubled, and a bit comes in. -/
def ifp2 (m : List ℕ) (bit : Bool) : List ℕ := (Bcd.add m m bit).1

/-- The loop `ifp1` over the bits of `DE`. -/
def ifp1 : ℕ → ℕ → List ℕ → List ℕ
  | 0, _, m => m
  | c + 1, DE, m => ifp1 c ((DE + DE) % 65536) (ifp2 m (decide (65536 ≤ DE + DE)))

/-- `IFP`: `FR0`, and the carry. -/
def IFP (n : ℕ) : Fp × Bool := NORM ⟨0x42, ifp1 16 n [0, 0, 0] ++ [0, 0]⟩

/-! ### What they should do -/

/-- The integer that is nearest, with halves rounded up. -/
def nearest (x : ℚ) : ℕ := ⌊x + 1 / 2⌋₊

/-- The nearest integer if it has 16 bits, else the carry. -/
def Right (fr : Fp) : Prop := FPI fr = if nearest (value fr) ≤ 65535 then some (nearest (value fr)) else none

/-- A number below 1/100 has a first digit below 5, and the number is not one that rounds to 65536. -/
structure Fits (fr : Fp) : Prop where
  digit : fr.exp < 63 → fr.man.headD 0 < 0x50
  word : ¬(65535 + 1 / 2 ≤ value fr ∧ value fr < 65536)

section

variable {fr : Fp} {m : List ℕ} {h n c e : ℕ}

/-! ### `FPI` -/

theorem ROLF0_spec (hm : Mantissa m) : Mantissa (ROLF0 m).1 ∧ (ROLF0 m).2 < 10 ∧
    num (ROLF0 m).1 + 10 ^ 10 * (ROLF0 m).2 = 10 * num m := by
  obtain ⟨bcd, length, lt, eq⟩ := Bcd.rol_spec (d := 0) (by decide) hm.bcd
  rw [hm.length] at length eq
  exact ⟨⟨bcd, length⟩, lt, eq⟩

/-- The loop has no carry if the integer has 16 bits. -/
theorem fpi1_some (hm : Mantissa m) (lt : 10 ^ c * (h * 10 ^ 10 + num m) < 65536 * 10 ^ 10) :
    ∃ k m', fpi1 c h m = some (k, m') ∧ Mantissa m' ∧ k * 10 ^ 10 + num m' = 10 ^ c * (h * 10 ^ 10 + num m) := by
  induction c generalizing h m with
  | zero => exact ⟨h, m, rfl, hm, (Nat.one_mul _).symm⟩
  | succ c ih =>
    obtain ⟨hm', digit, eq⟩ := ROLF0_spec hm
    have step : (10 * h + (ROLF0 m).2) * 10 ^ 10 + num (ROLF0 m).1 = 10 * (h * 10 ^ 10 + num m) := by linarith
    have scale : 10 ^ (c + 1) * (h * 10 ^ 10 + num m) =
        10 ^ c * ((10 * h + (ROLF0 m).2) * 10 ^ 10 + num (ROLF0 m).1) := by
      rw [step, pow_succ]
      ring
    have pos : 1 ≤ 10 ^ c := Nat.one_le_pow _ _ (by decide)
    rw [scale] at lt ⊢
    have small : 10 * h + (ROLF0 m).2 < 65536 := by
      have le := Nat.mul_le_mul_right ((10 * h + (ROLF0 m).2) * 10 ^ 10 + num (ROLF0 m).1) pos
      omega
    have sum : h + h + (h + h) + (h + h + (h + h)) + (h + h) + (ROLF0 m).2 = 10 * h + (ROLF0 m).2 := by ring
    rw [fpi1]
    dsimp only
    rw [if_neg (by omega), if_neg (by omega), if_neg (by omega), if_neg (by omega), if_neg (by omega), sum]
    exact ih hm' lt

/-- It has one if not. -/
theorem fpi1_none (hm : Mantissa m) (small : h < 65536) (le : 65536 * 10 ^ 10 ≤ 10 ^ c * (h * 10 ^ 10 + num m)) :
    fpi1 c h m = none := by
  induction c generalizing h m with
  | zero =>
    have lt := hm.lt
    omega
  | succ c ih =>
    obtain ⟨hm', digit, eq⟩ := ROLF0_spec hm
    have step : (10 * h + (ROLF0 m).2) * 10 ^ 10 + num (ROLF0 m).1 = 10 * (h * 10 ^ 10 + num m) := by linarith
    have scale : 10 ^ (c + 1) * (h * 10 ^ 10 + num m) =
        10 ^ c * ((10 * h + (ROLF0 m).2) * 10 ^ 10 + num (ROLF0 m).1) := by
      rw [step, pow_succ]
      ring
    have sum : h + h + (h + h) + (h + h + (h + h)) + (h + h) + (ROLF0 m).2 = 10 * h + (ROLF0 m).2 := by ring
    rw [fpi1]
    dsimp only
    rw [scale] at le
    split_ifs with carry2 carry4 carry8 carry10 carry
    · rfl
    · rfl
    · rfl
    · rfl
    · rfl
    · rw [sum] at carry ⊢
      exact ih hm' (Nat.lt_of_not_le carry) le

theorem fpi2_eq (hm : Mantissa m) :
    fpi2 h m = if 2 * num m < 10 ^ 10 then h else (h + 1) % 65536 := by
  obtain ⟨hm', digit, eq⟩ := ROLF0_spec hm
  have lt := hm'.lt
  have half : (ROLF0 m).2 < 5 ↔ 2 * num m < 10 ^ 10 := by omega
  rw [fpi2]
  simp only [half]

/-- The nearest integer of `h` and a fraction. -/
theorem nearest_eq (lt : n < 10 ^ 10) :
    nearest ((h : ℚ) + n / 10 ^ 10) = if 2 * n < 10 ^ 10 then h else h + 1 := by
  have hn : (0 : ℚ) ≤ n := Nat.cast_nonneg n
  have hlt : (n : ℚ) < 10 ^ 10 := by exact_mod_cast lt
  unfold nearest
  split_ifs with half
  · have hhalf : (2 : ℚ) * n < 10 ^ 10 := by exact_mod_cast half
    rw [Nat.floor_eq_iff (by positivity)]
    constructor
    · have : (0 : ℚ) ≤ n / 10 ^ 10 := by positivity
      linarith
    · have : (n : ℚ) / 10 ^ 10 < 1 / 2 := by
        rw [div_lt_div_iff₀ (by norm_num) (by norm_num)]
        linarith
      linarith
  · have hhalf : (10 ^ 10 : ℚ) ≤ 2 * n := by exact_mod_cast Nat.le_of_not_lt half
    rw [Nat.floor_eq_iff (by positivity)]
    push_cast
    constructor
    · have : (1 : ℚ) / 2 ≤ n / 10 ^ 10 := by
        rw [div_le_div_iff₀ (by norm_num) (by norm_num)]
        linarith
      linarith
    · have : (n : ℚ) / 10 ^ 10 < 1 := by
        rw [div_lt_one (by norm_num)]
        exact hlt
      linarith

/-- The value in units of the tenth digit behind the point. -/
theorem value_eq (least : 63 ≤ fr.exp) (most : fr.exp < 128) :
    value fr = ((10 ^ (2 * (fr.exp - 63)) * num fr.man : ℕ) : ℚ) / 10 ^ 10 := by
  obtain ⟨k, hk⟩ : ∃ k, fr.exp = 63 + k := ⟨fr.exp - 63, by omega⟩
  have mod : ((fr.exp % 128 : ℕ) : ℤ) - 68 = (k : ℤ) - 5 := by omega
  have power : (10 : ℚ) ^ (2 * (fr.exp - 63)) = 100 ^ k := by
    rw [hk, Nat.add_sub_cancel_left, pow_mul]
    norm_num
  rw [value, if_pos most, mod, zpow_sub₀ (by norm_num : (100 : ℚ) ≠ 0), zpow_natCast]
  push_cast
  rw [power]
  ring

/-- Below 1/100 the nearest integer is zero. -/
theorem value_small (hn : Nonzero fr) (small : fr.exp < 63) : 0 ≤ value fr ∧ value fr < 1 / 2 := by
  have lt : num fr.man < 100 ^ 5 := Mantissa.lt ⟨hn.bcd, hn.length⟩
  have bound : (num fr.man : ℚ) < 100 ^ 5 := by exact_mod_cast lt
  have most : fr.exp < 128 := by omega
  have power : (100 : ℚ) ^ (((fr.exp % 128 : ℕ) : ℤ) - 68) ≤ 100 ^ (-6 : ℤ) :=
    zpow_le_zpow_right₀ (by norm_num) (by omega)
  have pos : (0 : ℚ) < 100 ^ (((fr.exp % 128 : ℕ) : ℤ) - 68) := by positivity
  rw [value, if_pos most, one_mul]
  refine ⟨by positivity, ?_⟩
  calc (num fr.man : ℚ) * 100 ^ (((fr.exp % 128 : ℕ) : ℤ) - 68)
      < 100 ^ 5 * 100 ^ (((fr.exp % 128 : ℕ) : ℤ) - 68) := mul_lt_mul_of_pos_right bound pos
    _ ≤ 100 ^ 5 * 100 ^ (-6 : ℤ) := mul_le_mul_of_nonneg_left power (by norm_num)
    _ < 1 / 2 := by norm_num

theorem value_large (hn : Nonzero fr) (large : 67 ≤ fr.exp) (most : fr.exp < 128) : 65536 ≤ value fr := by
  have le := num_of_first hn.length hn.first
  have bound : (100 ^ 4 : ℚ) ≤ num fr.man := by exact_mod_cast le
  have power : (100 : ℚ) ^ (-1 : ℤ) ≤ 100 ^ (((fr.exp % 128 : ℕ) : ℤ) - 68) :=
    zpow_le_zpow_right₀ (by norm_num) (by omega)
  rw [value, if_pos most, one_mul]
  calc (65536 : ℚ) ≤ 100 ^ 4 * 100 ^ (-1 : ℤ) := by norm_num
    _ ≤ num fr.man * 100 ^ (((fr.exp % 128 : ℕ) : ℤ) - 68) :=
        mul_le_mul bound power (by positivity) (by positivity)

theorem nearest_large {x : ℚ} (h : 65536 ≤ x) : ¬nearest x ≤ 65535 := by
  intro le
  have floor : nearest x < 65536 := by omega
  rw [nearest, Nat.floor_lt (by linarith)] at floor
  push_cast at floor
  linarith

theorem first_digit (hm : Mantissa m) : m.headD 0 < 0x50 ↔ 2 * num m < 10 ^ 10 := by
  obtain ⟨bcd, length⟩ := hm
  cases m with
  | nil => cases length
  | cons a m =>
    have len : m.length = 4 := Nat.succ.inj length
    obtain ⟨⟨ha1, ha0⟩, hm⟩ := Bcd.allBcd_cons.mp bcd
    have lt := hm.lt
    rw [len] at lt
    rw [List.headD_cons, num, len, dec]
    omega

/-- Where the digits before the point are in the mantissa, all but one number are rounded as they should be. -/
theorem right_middle (hn : Nonzero fr) (least : 63 ≤ fr.exp) (most : fr.exp < 67) :
    Right fr ↔ ¬(65535 + 1 / 2 ≤ value fr ∧ value fr < 65536) := by
  have hm : Mantissa fr.man := ⟨hn.bcd, hn.length⟩
  have run : FPI fr = (fpi1 (2 * (fr.exp - 63)) 0 fr.man).map fun p => fpi2 p.1 p.2 := by
    rw [FPI, if_neg (by omega), if_neg (by omega)]
    split
    · next low => rw [show fr.exp - 63 = 0 by omega, Nat.mul_zero, fpi1, Option.map_some]
    · next high => rw [show fr.exp - 0x40 + 1 = fr.exp - 63 by omega]
  have val := value_eq least (by omega)
  by_cases lt : 10 ^ (2 * (fr.exp - 63)) * (0 * 10 ^ 10 + num fr.man) < 65536 * 10 ^ 10
  · obtain ⟨k, m', found, hm', eq⟩ := fpi1_some (h := 0) hm lt
    rw [Nat.zero_mul, Nat.zero_add] at eq lt
    have lt' := hm'.lt
    rw [← eq] at val
    have split : value fr = (k : ℚ) + num m' / 10 ^ 10 := by
      rw [val]
      push_cast
      ring
    have small : value fr < 65536 := by
      rw [val, div_lt_iff₀ (by norm_num), eq]
      exact_mod_cast lt
    have word : 65535 + 1 / 2 ≤ value fr ↔ ¬2 * num m' < 10 ^ 10 ∧ k = 65535 := by
      rw [val, le_div_iff₀ (by norm_num)]
      constructor
      · intro le
        have le' : (131071 * 10 ^ 10 : ℚ) ≤ 2 * ((k * 10 ^ 10 + num m' : ℕ) : ℚ) := by
          generalize ((k * 10 ^ 10 + num m' : ℕ) : ℚ) = q at le
          linarith
        have : 131071 * 10 ^ 10 ≤ 2 * (k * 10 ^ 10 + num m') := by exact_mod_cast le'
        omega
      · rintro ⟨half, rfl⟩
        have half' : (10 ^ 10 : ℚ) ≤ 2 * num m' := by exact_mod_cast Nat.le_of_not_lt half
        push_cast
        linarith
    rw [Right, run, found, Option.map_some, fpi2_eq hm', split, nearest_eq lt', ← split, word]
    simp only [small, and_true]
    have short : k < 65536 := by omega
    split_ifs with half one two
    · exact iff_of_true rfl fun h => h.1 half
    · omega
    · have next : (k + 1) % 65536 = k + 1 := Nat.mod_eq_of_lt (by omega)
      exact iff_of_true (congrArg some next) fun h => by omega
    · have last : k = 65535 := by omega
      exact iff_of_false (by rintro ⟨⟩) fun h => h ⟨half, last⟩
  · have le := Nat.le_of_not_lt lt
    have large : 65536 ≤ value fr := by
      rw [val, le_div_iff₀ (by norm_num)]
      rw [Nat.zero_mul, Nat.zero_add] at le
      exact_mod_cast le
    rw [Right, run, fpi1_none hm (by decide) le, if_neg (nearest_large large)]
    exact iff_of_true rfl fun h => absurd large (not_le.mpr h.2)

/-- Below 1/100 the first digit must be less than 5. -/
theorem right_small (hn : Nonzero fr) (small : fr.exp < 63) : Right fr ↔ fr.man.headD 0 < 0x50 := by
  have hm : Mantissa fr.man := ⟨hn.bcd, hn.length⟩
  obtain ⟨pos, lt⟩ := value_small hn small
  have zero : nearest (value fr) = 0 := by
    rw [nearest, Nat.floor_eq_zero]
    linarith
  rw [Right, zero, FPI, if_neg (by omega), if_neg (by omega), if_pos (by omega), fpi2_eq hm, first_digit hm,
    if_pos (Nat.zero_le _)]
  split_ifs with half
  · exact iff_of_true rfl half
  · exact iff_of_false (by rintro ⟨⟩) half

theorem right_large (hn : Nonzero fr) (large : 67 ≤ fr.exp) (most : fr.exp < 128) : Right fr := by
  rw [Right, FPI, if_neg (by omega), if_pos (by omega), if_neg (nearest_large (value_large hn large most))]

theorem right_zero : Right ZFR0 := by
  have zero : nearest 0 = 0 := by
    rw [nearest, Nat.floor_eq_zero]
    norm_num
  rw [Right, value_ZFR0, zero]
  rfl

/-! ### `IFP` -/

/-- One bit of the integer. -/
theorem ifp2_spec (bit : Bool) (hm : AllBcd m) (hl : m.length = 3) (lt : 2 * num m + bit.toNat < 100 ^ 3) :
    AllBcd (ifp2 m bit) ∧ (ifp2 m bit).length = 3 ∧ num (ifp2 m bit) = 2 * num m + bit.toNat := by
  have sum := Bcd.add_spec bit hm hm rfl
  have value := sum.value
  rw [hl] at value
  refine ⟨sum.bcd, sum.length.trans hl, ?_⟩
  rw [ifp2]
  cases carry : (Bcd.add m m bit).2 with
  | false =>
    rw [carry, Bool.toNat_false] at value
    omega
  | true =>
    rw [carry, Bool.toNat_true] at value
    omega

/-- The bits come out of `DE` and into the decimal number. -/
theorem ifp1_spec (c DE : ℕ) (hm : AllBcd m) (hl : m.length = 3) (lt : DE < 65536)
    (small : 2 ^ c * (num m * 65536 + DE) < 65536 * 65536) :
    AllBcd (ifp1 c DE m) ∧ (ifp1 c DE m).length = 3 ∧
      ∃ DE' < 65536, num (ifp1 c DE m) * 65536 + DE' = 2 ^ c * (num m * 65536 + DE) := by
  induction c generalizing DE m with
  | zero => exact ⟨hm, hl, DE, lt, (Nat.one_mul _).symm⟩
  | succ c ih =>
    have pos : 1 ≤ 2 ^ c := Nat.one_le_pow _ _ (by decide)
    have scale : 2 ^ (c + 1) * (num m * 65536 + DE) = 2 ^ c * (2 * (num m * 65536 + DE)) := by
      rw [pow_succ]
      ring
    rw [scale] at small ⊢
    have le := Nat.mul_le_mul_right (2 * (num m * 65536 + DE)) pos
    have bits : (decide (65536 ≤ DE + DE)).toNat * 65536 + (DE + DE) % 65536 = DE + DE := by
      by_cases out : 65536 ≤ DE + DE
      · rw [decide_eq_true out, Bool.toNat_true]
        omega
      · rw [decide_eq_false out, Bool.toNat_false]
        omega
    have bit : (decide (65536 ≤ DE + DE)).toNat ≤ 1 := Bool.toNat_le _
    obtain ⟨hm', hl', value⟩ := ifp2_spec (decide (65536 ≤ DE + DE)) hm hl (by omega)
    have step : num (ifp2 m (decide (65536 ≤ DE + DE))) * 65536 + (DE + DE) % 65536
        = 2 * (num m * 65536 + DE) := by
      rw [value, Nat.add_mul, Nat.add_assoc, bits]
      ring
    rw [← step] at small ⊢
    rw [ifp1]
    exact ih _ hm' hl' (Nat.mod_lt _ (Nat.zero_lt_succ _)) small

/-- An integer with the digits of `m`, behind which the point is. -/
theorem FPI_NORM (hm : Mantissa m) (whole : num m = n * 100 ^ 2) (pos : 0 < n) (hn : n < 65536) :
    FPI (NORM ⟨0x42, m⟩).1 = some n := by
  have some : 0 < num m := by
    rw [whole]
    exact Nat.mul_pos pos (by decide)
  obtain ⟨k, hk, m', moved, eq⟩ := NORM_spec (e := 0x42) hm some (by decide) (by decide)
  have hk2 : k ≤ 2 := by
    have bound := moved.mantissa.lt
    rw [moved.num, whole] at bound
    by_contra more
    have : 100 ^ 3 ≤ 100 ^ k := Nat.pow_le_pow_right (by decide) (by omega)
    nlinarith
  have normal : dc2 ⟨0x42 - k, m'⟩ = (⟨0x42 - k, m'⟩, false) := by
    rw [dc2, if_neg (by dsimp only; omega), if_neg (by dsimp only; omega)]
  have integer : value ⟨0x42 - k, m'⟩ = n := by
    rw [moved.value (by decide), value, if_pos (show (0x42 : ℕ) < 128 by decide)]
    dsimp only
    rw [whole]
    push_cast
    norm_num
    ring
  have hn' : Nonzero ⟨0x42 - k, m'⟩ := by
    refine ⟨?_, ?_, ?_, moved.mantissa.bcd, moved.mantissa.length, moved.first⟩ <;> dsimp only <;> omega
  have nearest_n : nearest (n : ℚ) = n := by
    rw [nearest, Nat.floor_eq_iff (by positivity)]
    constructor <;> linarith
  have fits : ¬(65535 + 1 / 2 ≤ (n : ℚ) ∧ (n : ℚ) < 65536) := by
    rintro ⟨ge, -⟩
    have ge' : (65535 : ℚ) < n := by linarith
    have : 65535 < n := by exact_mod_cast ge'
    omega
  have right := right_middle hn' (by dsimp only; omega) (by dsimp only; omega)
  rw [Right, integer, nearest_n, if_pos (Nat.le_of_lt_succ hn)] at right
  rw [eq, normal]
  exact right.mpr fits

/-- `FPI` of `IFP` is the integer. -/
theorem FPI_IFP (hn : n < 65536) : FPI (IFP n).1 = some n := by
  obtain ⟨bcd, length, DE, lt, eq⟩ := ifp1_spec (m := [0, 0, 0]) 16 n (by decide) rfl hn
    (by change 2 ^ 16 * (0 * 65536 + n) < _; omega)
  have digits : num (ifp1 16 n [0, 0, 0]) = n := by
    change _ = 2 ^ 16 * (0 * 65536 + n) at eq
    omega
  rw [IFP]
  generalize ifp1 16 n [0, 0, 0] = m at bcd length digits
  have hm : Mantissa (m ++ [0, 0]) :=
    ⟨Bcd.allBcd_append.mpr ⟨bcd, by decide⟩, by rw [List.length_append, length]; rfl⟩
  have whole : num (m ++ [0, 0]) = n * 100 ^ 2 := by
    have zero : num [0, 0] = 0 := rfl
    rw [Bcd.num_append, digits, zero, Nat.add_zero, List.length_cons, List.length_singleton]
  rcases Nat.eq_zero_or_pos n with rfl | pos
  · rw [NORM_zero hm (by rw [whole, Nat.zero_mul])]
    rfl
  · exact FPI_NORM hm whole pos hn

/-- `FPI` rounds a normal number that is not negative as it should, or has the carry, if and only if the number
is not one below 1/100 with a first digit from 5 on and not one from 65535.5 on below 65536. It is the inverse
of `IFP`. -/
theorem fpi_right_iff (fr : Fp) (n : ℕ) : (Normal fr → fr.exp < 128 → (Right fr ↔ Fits fr)) ∧
    (n < 65536 → FPI (IFP n).1 = some n) := by
  refine ⟨fun normal plus => ?_, fun hn => FPI_IFP hn⟩
  rcases normal with rfl | hn
  · refine iff_of_true right_zero ⟨fun _ => by decide, ?_⟩
    rw [value_ZFR0]
    norm_num
  rcases Nat.lt_or_ge fr.exp 63 with small | least
  · rw [right_small hn small]
    refine ⟨fun digit => ⟨fun _ => digit, fun word => ?_⟩, fun fits => fits.digit small⟩
    have lt := (value_small hn small).2
    linarith [word.1]
  rcases Nat.lt_or_ge fr.exp 67 with most | large
  · rw [right_middle hn least most]
    exact ⟨fun word => ⟨fun low => absurd low (Nat.not_lt_of_le least), word⟩, fun fits => fits.word⟩
  · refine iff_of_true (right_large hn large plus) ⟨fun low => absurd low (by omega), fun word => ?_⟩
    exact absurd (value_large hn large plus) (not_le.mpr word.2)

end

/-- The number 0.005 is rounded to 1. -/
theorem small_not_right : Nonzero ⟨62, [0x50, 0, 0, 0, 0]⟩ ∧ ¬Right ⟨62, [0x50, 0, 0, 0, 0]⟩ := by
  have hn : Nonzero ⟨62, [0x50, 0, 0, 0, 0]⟩ :=
    ⟨by decide, by decide, by decide, by decide, rfl, by decide⟩
  refine ⟨hn, fun right => ?_⟩
  rw [right_small hn (by decide)] at right
  exact absurd right (by decide)

end RSX280.Fpi
