import Mathlib.Data.List.Basic
import Mathlib.Data.Nat.Notation
import Mathlib.Tactic.Common
import Mathlib.Tactic.Linarith
import Mathlib.Tactic.Ring

/-!
# Packed decimal numbers

Two decimal digits are in one byte, and a number is a list of bytes with the most significant one first. A
processor adds and subtracts such bytes as binary ones and then adjusts the result. `add` and `sub` do that
for numbers, from the last byte on, and `rol` moves a number to the left by one digit.
-/

namespace RSX280.Bcd

/-! ### Bytes -/

/-- Both halves of the byte are decimal digits. -/
def IsBcd (b : ℕ) : Prop := b / 16 < 10 ∧ b % 16 < 10

instance (b : ℕ) : Decidable (IsBcd b) := inferInstanceAs (Decidable (_ ∧ _))

/-- The value of a byte. -/
def dec (b : ℕ) : ℕ := 10 * (b / 16) + b % 16

example : dec 0x42 = 42 := by rw [dec]

theorem IsBcd.lt {b : ℕ} (h : IsBcd b) : dec b < 100 := by
  unfold IsBcd at h
  unfold dec
  omega

theorem IsBcd.dec_eq_zero {b : ℕ} : dec b = 0 ↔ b = 0 := by
  unfold dec
  omega

/-- Adjust after an addition, with the carry `h` from the lower half and `c` from the byte. -/
def daa (A : ℕ) (h c : Bool) : ℕ × Bool :=
  ((A + (if h || decide (9 < A % 16) then 0x06 else 0) + (if c || decide (0x99 < A) then 0x60 else 0)) % 256,
    c || decide (0x99 < A))

/-- Adjust after a subtraction. -/
def das (A : ℕ) (h c : Bool) : ℕ × Bool :=
  ((A + 512 - (if h || decide (9 < A % 16) then 0x06 else 0) - (if c || decide (0x99 < A) then 0x60 else 0)) % 256,
    c || decide (0x99 < A))

/-- Add two bytes with a carry. -/
def adc (a b : ℕ) (c : Bool) : ℕ × Bool :=
  daa ((a + b + c.toNat) % 256) (decide (16 ≤ a % 16 + b % 16 + c.toNat)) (decide (256 ≤ a + b + c.toNat))

/-- Subtract two bytes with a borrow. -/
def sbc (a b : ℕ) (c : Bool) : ℕ × Bool :=
  das ((a + 512 - b - c.toNat) % 256) (decide (a % 16 < b % 16 + c.toNat)) (decide (a < b + c.toNat))

theorem adc_spec {a b : ℕ} (c : Bool) (ha : IsBcd a) (hb : IsBcd b) : IsBcd (adc a b c).1 ∧
    dec (adc a b c).1 + 100 * (adc a b c).2.toNat = dec a + dec b + c.toNat := by
  obtain ⟨ha1, ha0⟩ := ha
  obtain ⟨hb1, hb0⟩ := hb
  have hc : c.toNat ≤ 1 := Bool.toNat_le c
  unfold adc daa IsBcd dec
  generalize c.toNat = k at *
  by_cases carry : 256 ≤ a + b + k <;> by_cases half : 16 ≤ a % 16 + b % 16 + k <;>
    by_cases low : 9 < (a + b + k) % 256 % 16 <;> by_cases high : 153 < (a + b + k) % 256 <;>
    simp only [carry, half, low, high, decide_true, decide_false, Bool.or_true, Bool.or_false, if_true,
      Bool.false_eq_true, if_false, Bool.toNat_true, Bool.toNat_false] <;>
    omega

theorem sbc_spec {a b : ℕ} (c : Bool) (ha : IsBcd a) (hb : IsBcd b) : IsBcd (sbc a b c).1 ∧
    dec (sbc a b c).1 + dec b + c.toNat = dec a + 100 * (sbc a b c).2.toNat := by
  obtain ⟨ha1, ha0⟩ := ha
  obtain ⟨hb1, hb0⟩ := hb
  have hc : c.toNat ≤ 1 := Bool.toNat_le c
  unfold sbc das IsBcd dec
  generalize c.toNat = k at *
  by_cases borrow : a < b + k <;> by_cases half : a % 16 < b % 16 + k <;>
    by_cases low : 9 < (a + 512 - b - k) % 256 % 16 <;> by_cases high : 153 < (a + 512 - b - k) % 256 <;>
    simp only [borrow, half, low, high, decide_true, decide_false, Bool.or_true, Bool.or_false, if_true,
      Bool.false_eq_true, if_false, Bool.toNat_true, Bool.toNat_false] <;>
    omega

/-! ### Numbers -/

/-- The value of a number. -/
def num : List ℕ → ℕ
  | [] => 0
  | a :: l => dec a * 100 ^ l.length + num l

example : num [] = 0 := by rw [num]

/-- All bytes are decimal. -/
def AllBcd (l : List ℕ) : Prop := ∀ b ∈ l, IsBcd b

instance (l : List ℕ) : Decidable (AllBcd l) := inferInstanceAs (Decidable (∀ b ∈ l, IsBcd b))

variable {a b d : ℕ} {l x y : List ℕ}

theorem allBcd_cons : AllBcd (a :: l) ↔ IsBcd a ∧ AllBcd l := List.forall_mem_cons

theorem allBcd_append : AllBcd (x ++ y) ↔ AllBcd x ∧ AllBcd y := List.forall_mem_append

theorem num_append (x y : List ℕ) : num (x ++ y) = num x * 100 ^ y.length + num y := by
  induction x with
  | nil => rw [List.nil_append, num, Nat.zero_mul, Nat.zero_add]
  | cons a x ih =>
    rw [List.cons_append, num, num, ih, List.length_append, pow_add]
    ring

theorem AllBcd.lt (h : AllBcd l) : num l < 100 ^ l.length := by
  induction l with
  | nil => exact Nat.one_pos
  | cons a l ih =>
    obtain ⟨ha, hl⟩ := allBcd_cons.mp h
    have more := ih hl
    have top : dec a + 1 ≤ 100 := ha.lt
    calc num (a :: l) < dec a * 100 ^ l.length + 100 ^ l.length := Nat.add_lt_add_left more _
      _ = (dec a + 1) * 100 ^ l.length := by ring
      _ ≤ 100 * 100 ^ l.length := Nat.mul_le_mul_right _ top
      _ = 100 ^ (a :: l).length := by rw [List.length_cons, pow_succ']

theorem num_replicate_zero (n : ℕ) : num (List.replicate n 0) = 0 := by
  induction n with
  | zero => rfl
  | succ n ih => rw [List.replicate_succ, num, ih, IsBcd.dec_eq_zero.mpr rfl, Nat.zero_mul]

theorem allBcd_replicate_zero (n : ℕ) : AllBcd (List.replicate n 0) := fun b hb => by
  rw [List.eq_of_mem_replicate hb]
  decide

theorem num_eq_zero (h : num l = 0) : l = List.replicate l.length 0 := by
  induction l with
  | nil => rfl
  | cons a l ih =>
    rw [num] at h
    have ha : dec a = 0 := by
      by_contra ne
      have pos : 0 < dec a * 100 ^ l.length := by positivity
      omega
    rw [List.length_cons, List.replicate_succ, IsBcd.dec_eq_zero.mp ha, ← ih (by omega)]

/-- Numbers of one length are equal when their values are. -/
theorem eq_of_num (hx : AllBcd x) (hy : AllBcd y) (hl : x.length = y.length) (h : num x = num y) : x = y := by
  induction x generalizing y with
  | nil => exact (List.length_eq_zero_iff.mp hl.symm).symm
  | cons a x ih =>
    cases y with
    | nil => cases hl
    | cons b y =>
      obtain ⟨ha, hx⟩ := allBcd_cons.mp hx
      obtain ⟨hb, hy⟩ := allBcd_cons.mp hy
      have len : x.length = y.length := Nat.succ.inj hl
      have rest := hx.lt
      have rest' := hy.lt
      rw [num, num, len] at h
      rw [len] at rest
      have top : dec a = dec b := by
        have pos : 0 < 100 ^ y.length := by positivity
        have q := congrArg (· / 100 ^ y.length) h
        simp only [Nat.mul_comm _ (100 ^ y.length), Nat.mul_add_div pos, Nat.div_eq_of_lt rest,
          Nat.div_eq_of_lt rest', Nat.add_zero] at q
        exact q
      rw [top] at h
      have same : a = b := by
        obtain ⟨ha1, ha0⟩ := ha
        obtain ⟨hb1, hb0⟩ := hb
        unfold dec at top
        omega
      rw [same, ih hx hy len (Nat.add_left_cancel h)]

/-- Add two numbers of one length, with the carry that comes out of the first byte. -/
def add : List ℕ → List ℕ → Bool → List ℕ × Bool
  | a :: x, b :: y, c =>
    let r := add x y c
    let s := adc a b r.2
    (s.1 :: r.1, s.2)
  | _, _, c => ([], c)

/-- Subtract a number, with the borrow. -/
def sub : List ℕ → List ℕ → Bool → List ℕ × Bool
  | a :: x, b :: y, c =>
    let r := sub x y c
    let s := sbc a b r.2
    (s.1 :: r.1, s.2)
  | _, _, c => ([], c)

/-- What an operation on numbers returns: a number of the length `n`, and a carry. -/
structure Sums (n value : ℕ) (r : List ℕ × Bool) : Prop where
  bcd : AllBcd r.1
  length : r.1.length = n
  value : num r.1 + 100 ^ n * r.2.toNat = value

theorem add_spec (c : Bool) (hx : AllBcd x) (hy : AllBcd y) (hl : x.length = y.length) :
    Sums x.length (num x + num y + c.toNat) (add x y c) := by
  induction x generalizing y with
  | nil =>
    cases y with
    | nil =>
      refine ⟨List.forall_mem_nil _, rfl, ?_⟩
      simp only [add, num, List.length_nil, pow_zero, Nat.one_mul]
    | cons b y => cases hl
  | cons a x ih =>
    cases y with
    | nil => cases hl
    | cons b y =>
      obtain ⟨ha, hx⟩ := allBcd_cons.mp hx
      obtain ⟨hb, hy⟩ := allBcd_cons.mp hy
      have len : x.length = y.length := Nat.succ.inj hl
      have rest := ih hx hy len
      obtain ⟨top, sum⟩ := adc_spec (add x y c).2 ha hb
      rw [add]
      refine ⟨allBcd_cons.mpr ⟨top, rest.bcd⟩, congrArg Nat.succ rest.length, ?_⟩
      dsimp only
      rw [num, num, num, rest.length, List.length_cons, ← len, pow_succ]
      have scaled := congrArg (100 ^ x.length * ·) sum
      linarith [rest.value]

theorem sub_spec (c : Bool) (hx : AllBcd x) (hy : AllBcd y) (hl : x.length = y.length) :
    AllBcd (sub x y c).1 ∧ (sub x y c).1.length = x.length ∧
      num (sub x y c).1 + num y + c.toNat = num x + 100 ^ x.length * (sub x y c).2.toNat := by
  induction x generalizing y with
  | nil =>
    cases y with
    | nil =>
      refine ⟨List.forall_mem_nil _, rfl, ?_⟩
      simp only [sub, num, List.length_nil, pow_zero, Nat.one_mul]
    | cons b y => cases hl
  | cons a x ih =>
    cases y with
    | nil => cases hl
    | cons b y =>
      obtain ⟨ha, hx⟩ := allBcd_cons.mp hx
      obtain ⟨hb, hy⟩ := allBcd_cons.mp hy
      have len : x.length = y.length := Nat.succ.inj hl
      obtain ⟨bcd, length, value⟩ := ih hx hy len
      obtain ⟨top, sum⟩ := sbc_spec (sub x y c).2 ha hb
      rw [sub]
      refine ⟨allBcd_cons.mpr ⟨top, bcd⟩, congrArg Nat.succ length, ?_⟩
      dsimp only
      rw [num, num, num, length, List.length_cons, ← len, pow_succ]
      have scaled := congrArg (100 ^ x.length * ·) sum
      linarith

/-! ### Digits -/

/-- Move a number to the left by one digit: `d` comes in, and the first digit goes out. -/
def rol (d : ℕ) : List ℕ → List ℕ × ℕ
  | [] => ([], d)
  | a :: l =>
    let r := rol d l
    ((16 * (a % 16) + r.2) :: r.1, a / 16)

theorem rol_spec (hd : d < 10) (h : AllBcd l) : AllBcd (rol d l).1 ∧ (rol d l).1.length = l.length ∧
    (rol d l).2 < 10 ∧ num (rol d l).1 + 100 ^ l.length * (rol d l).2 = 10 * num l + d := by
  induction l with
  | nil =>
    refine ⟨List.forall_mem_nil _, rfl, hd, ?_⟩
    simp only [rol, num, List.length_nil, pow_zero, Nat.one_mul]
  | cons a l ih =>
    obtain ⟨ha, hl⟩ := allBcd_cons.mp h
    obtain ⟨bcd, length, out, value⟩ := ih hl
    obtain ⟨ha1, ha0⟩ := ha
    rw [rol]
    dsimp only
    have byte : dec (16 * (a % 16) + (rol d l).2) = 10 * (a % 16) + (rol d l).2 := by
      unfold dec
      omega
    have whole : dec a = 10 * (a / 16) + a % 16 := rfl
    refine ⟨allBcd_cons.mpr ⟨?_, bcd⟩, congrArg Nat.succ length, ha1, ?_⟩
    · unfold IsBcd
      omega
    · rw [num, num, byte, whole, length, List.length_cons, pow_succ]
      linarith

end RSX280.Bcd
