import Mathlib.Algebra.GroupWithZero.Nat
import Mathlib.Tactic.Common

/-!
# 32-bit variables in memory (`libs/syslib/*32m.mac`)

A variable has four bytes, with the least significant one first, and `Var.val` is its value. The routines work byte by
byte, with the carry from one to the next, and for each there is a lemma that says what it does to the value.
-/

namespace RSX280.Vars32

/-- A byte. -/
abbrev Byte := BitVec 8

/-- The four bytes of a variable. -/
structure Var where
  b0 : Byte
  b1 : Byte
  b2 : Byte
  b3 : Byte
  deriving DecidableEq

/-- The value of a variable. -/
def Var.val (x : Var) : BitVec 32 := x.b3 ++ x.b2 ++ x.b1 ++ x.b0

/-- The variable with a value. -/
def Var.of (x : BitVec 32) : Var :=
  ⟨x.extractLsb' 0 8, x.extractLsb' 8 8, x.extractLsb' 16 8, x.extractLsb' 24 8⟩

/-- The bytes in the order of their addresses. -/
def Var.bytes (x : Var) : List Byte := [x.b0, x.b1, x.b2, x.b3]

/-! ### Instructions -/

/-- `adc`: the sum and the carry. -/
def adc (x y : Byte) (c : Bool) : Byte × Bool :=
  (x + y + BitVec.ofNat 8 c.toNat, decide (256 ≤ x.toNat + y.toNat + c.toNat))

/-- `rl`: rotated to the left through the carry. -/
def rl (x : Byte) (c : Bool) : Byte × Bool := (x <<< 1 ||| BitVec.ofNat 8 c.toNat, x.msb)

/-- `rr`: rotated to the right through the carry. -/
def rr (x : Byte) (c : Bool) : Byte × Bool := (x >>> 1 ||| BitVec.ofNat 8 c.toNat <<< 7, x.getLsbD 0)

/-- `rlc`. -/
def rlc (x : Byte) : Byte × Bool := (x <<< 1 ||| x >>> 7, x.msb)

/-- `sla`. -/
def sla (x : Byte) : Byte × Bool := (x <<< 1, x.msb)

/-- `srl`. -/
def srl (x : Byte) : Byte × Bool := (x >>> 1, x.getLsbD 0)

/-! ### Routines -/

/-- `CPY32M`. -/
def CPY32M (DE : Var) : Var := DE

/-- `CPL32M`. -/
def CPL32M (DE : Var) : Var := ⟨~~~DE.b0, ~~~DE.b1, ~~~DE.b2, ~~~DE.b3⟩

/-- `AND32M`. -/
def AND32M (HL DE : Var) : Var := ⟨DE.b0 &&& HL.b0, DE.b1 &&& HL.b1, DE.b2 &&& HL.b2, DE.b3 &&& HL.b3⟩

/-- `OR32M`. -/
def OR32M (HL DE : Var) : Var := ⟨DE.b0 ||| HL.b0, DE.b1 ||| HL.b1, DE.b2 ||| HL.b2, DE.b3 ||| HL.b3⟩

/-- `XOR32M`. -/
def XOR32M (HL DE : Var) : Var := ⟨DE.b0 ^^^ HL.b0, DE.b1 ^^^ HL.b1, DE.b2 ^^^ HL.b2, DE.b3 ^^^ HL.b3⟩

/-- `ADD32M`. -/
def ADD32M (HL DE : Var) : Var :=
  let s0 := adc DE.b0 HL.b0 false
  let s1 := adc DE.b1 HL.b1 s0.2
  let s2 := adc DE.b2 HL.b2 s1.2
  let s3 := adc DE.b3 HL.b3 s2.2
  ⟨s0.1, s1.1, s2.1, s3.1⟩

/-- One round of `RLC32M`. The carry `c` comes from what was before. -/
def rlc1 (HL : Var) (c : Bool) : Var × Bool :=
  let s0 := rl HL.b0 c
  let s1 := rl HL.b1 s0.2
  let s2 := rl HL.b2 s1.2
  let s3 := rl HL.b3 s2.2
  let t0 := rlc (rr s0.1 s3.2).1
  (⟨t0.1, s1.1, s2.1, s3.1⟩, t0.2)

/-- `RLC32M`, with the count in `B`. -/
def RLC32M : ℕ → Var → Bool → Var
  | 0, HL, _ => HL
  | B + 1, HL, c => RLC32M B (rlc1 HL c).1 (rlc1 HL c).2

/-- One round of `SHL32M`. -/
def shl1 (HL : Var) : Var :=
  let s0 := sla HL.b0
  let s1 := rl HL.b1 s0.2
  let s2 := rl HL.b2 s1.2
  let s3 := rl HL.b3 s2.2
  ⟨s0.1, s1.1, s2.1, s3.1⟩

/-- `SHL32M`. -/
def SHL32M : ℕ → Var → Var
  | 0, HL => HL
  | B + 1, HL => SHL32M B (shl1 HL)

/-- One round of `SHR32M`. -/
def shr1 (HL : Var) : Var :=
  let s3 := srl HL.b3
  let s2 := rr HL.b2 s3.2
  let s1 := rr HL.b1 s2.2
  let s0 := rr HL.b0 s1.2
  ⟨s0.1, s1.1, s2.1, s3.1⟩

/-- `SHR32M`. -/
def SHR32M : ℕ → Var → Var
  | 0, HL => HL
  | B + 1, HL => SHR32M B (shr1 HL)

/-! ### Values of bytes -/

theorem toNat_ofNat_toNat (c : Bool) : (BitVec.ofNat 8 c.toNat).toNat = c.toNat := by
  cases c <;> rfl

theorem toNat_msb (x : Byte) : x.msb.toNat = x.toNat / 2 ^ 7 := by
  have hx := x.isLt
  rw [BitVec.msb_eq_decide]
  rcases Nat.lt_or_ge x.toNat (2 ^ 7) with less | more
  · rw [decide_eq_false (Nat.not_le_of_lt less), Bool.toNat_false]
    omega
  · rw [decide_eq_true more, Bool.toNat_true]
    omega

/-- The sum of two bytes, with the carry as the next bit. -/
theorem adc_toNat (x y : Byte) (c : Bool) :
    (adc x y c).1.toNat + 2 ^ 8 * (adc x y c).2.toNat = x.toNat + y.toNat + c.toNat := by
  have hx := x.isLt
  have hy := y.isLt
  have hc := Bool.toNat_le c
  rw [adc, BitVec.toNat_add, BitVec.toNat_add, toNat_ofNat_toNat]
  rcases Nat.lt_or_ge (x.toNat + y.toNat + c.toNat) 256 with less | more
  · rw [decide_eq_false (Nat.not_le_of_lt less), Bool.toNat_false]
    omega
  · rw [decide_eq_true more, Bool.toNat_true]
    omega

theorem rl_toNat (x : Byte) (c : Bool) :
    (rl x c).1.toNat + 2 ^ 8 * (rl x c).2.toNat = 2 * x.toNat + c.toNat := by
  have hx := x.isLt
  have bit : c.toNat < 2 ^ 1 := Bool.toNat_lt c
  have shift : x.toNat <<< 1 % 2 ^ 8 = 2 ^ 1 * (x.toNat % 2 ^ 7) := by omega
  rw [rl, BitVec.toNat_or, BitVec.toNat_shiftLeft, toNat_ofNat_toNat, toNat_msb, shift,
    ← Nat.two_pow_add_eq_or_of_lt bit]
  omega

theorem sla_toNat (x : Byte) : (sla x).1.toNat + 2 ^ 8 * (sla x).2.toNat = 2 * x.toNat := by
  have hx := x.isLt
  rw [sla, BitVec.toNat_shiftLeft, toNat_msb]
  omega

theorem rr_toNat (x : Byte) (c : Bool) : (rr x c).1.toNat = x.toNat / 2 + 2 ^ 7 * c.toNat := by
  have hx := x.isLt
  have low : x.toNat >>> 1 < 2 ^ 7 := by omega
  have high : c.toNat <<< 7 % 2 ^ 8 = 2 ^ 7 * c.toNat := by cases c <;> rfl
  rw [rr, BitVec.toNat_or, BitVec.toNat_shiftLeft, BitVec.toNat_ushiftRight, toNat_ofNat_toNat, high, Nat.or_comm,
    ← Nat.two_pow_add_eq_or_of_lt low]
  omega

theorem srl_toNat (x : Byte) : (srl x).1.toNat = x.toNat / 2 := by
  rw [srl, BitVec.toNat_ushiftRight]
  omega

/-- The bit that goes out to the right. -/
theorem toNat_low (x : Byte) : (x.getLsbD 0).toNat = x.toNat % 2 := by
  rw [BitVec.getLsbD, Nat.testBit_zero]
  rcases Nat.mod_two_eq_zero_or_one x.toNat with even | odd
  · rw [even]
    rfl
  · rw [odd]
    rfl

theorem rlc_toNat (x : Byte) : (rlc x).1.toNat = 2 * x.toNat % 2 ^ 8 + x.toNat / 2 ^ 7 := by
  have hx := x.isLt
  have low : x.toNat >>> 7 < 2 ^ 1 := by omega
  have shift : x.toNat <<< 1 % 2 ^ 8 = 2 ^ 1 * (x.toNat % 2 ^ 7) := by omega
  rw [rlc, BitVec.toNat_or, BitVec.toNat_shiftLeft, BitVec.toNat_ushiftRight, shift, ← Nat.two_pow_add_eq_or_of_lt low]
  omega

/-- The lowest bit, which was the carry, is replaced by `d`. -/
theorem rlc_rr_rl_toNat (x : Byte) (c d : Bool) :
    (rlc (rr (rl x c).1 d).1).1.toNat = 2 * (x.toNat % 2 ^ 7) + d.toNat := by
  have out := rl_toNat x c
  have lt := (rl x c).1.isLt
  have bit := Bool.toNat_le c
  have bit' := Bool.toNat_le d
  have left : (rl x c).1.toNat = 2 * (x.toNat % 2 ^ 7) + c.toNat := by omega
  have right : (rr (rl x c).1 d).1.toNat = x.toNat % 2 ^ 7 + 2 ^ 7 * d.toNat := by
    rw [rr_toNat, left]
    omega
  rw [rlc_toNat, right]
  omega

/-! ### Values of variables -/

variable (x y : Var)

theorem toNat_val : x.val.toNat = x.b0.toNat + 2 ^ 8 * (x.b1.toNat + 2 ^ 8 * (x.b2.toNat + 2 ^ 8 * x.b3.toNat)) := by
  have parts (n : ℕ) (a : BitVec n) (b : Byte) : (a ++ b).toNat = b.toNat + 2 ^ 8 * a.toNat := by
    rw [BitVec.toNat_append, ← Nat.shiftLeft_add_eq_or_of_lt b.isLt, Nat.shiftLeft_eq, Nat.mul_comm, Nat.add_comm]
  rw [Var.val, parts, parts, parts]

/-- The value determines the bytes. -/
theorem val_inj (h : x.val = y.val) : x = y := by
  have same : x.val.toNat = y.val.toNat := congrArg BitVec.toNat h
  rw [toNat_val, toNat_val] at same
  have h0 := x.b0.isLt
  have h1 := x.b1.isLt
  have h2 := x.b2.isLt
  have k0 := y.b0.isLt
  have k1 := y.b1.isLt
  have k2 := y.b2.isLt
  have e0 : x.b0 = y.b0 := BitVec.eq_of_toNat_eq (by omega)
  have e1 : x.b1 = y.b1 := BitVec.eq_of_toNat_eq (by omega)
  have e2 : x.b2 = y.b2 := BitVec.eq_of_toNat_eq (by omega)
  have e3 : x.b3 = y.b3 := BitVec.eq_of_toNat_eq (by omega)
  rcases x with ⟨x0, x1, x2, x3⟩
  rcases y with ⟨y0, y1, y2, y3⟩
  rw [show x0 = y0 from e0, show x1 = y1 from e1, show x2 = y2 from e2, show x3 = y3 from e3]

theorem val_of (z : BitVec 32) : (Var.of z).val = z := by
  apply BitVec.eq_of_toNat_eq
  have hz := z.isLt
  rw [toNat_val]
  simp only [Var.of, BitVec.extractLsb'_toNat, Nat.shiftRight_eq_div_pow]
  omega

theorem of_val : Var.of x.val = x := val_inj _ _ (val_of x.val)

theorem val_CPY32M : (CPY32M x).val = x.val := rfl

theorem val_CPL32M : (CPL32M x).val = ~~~x.val := by
  rw [Var.val, Var.val, BitVec.not_append, BitVec.not_append, BitVec.not_append, CPL32M]

theorem val_AND32M : (AND32M x y).val = y.val &&& x.val := by
  rw [Var.val, Var.val, Var.val, BitVec.and_append, BitVec.and_append, BitVec.and_append, AND32M]

theorem val_OR32M : (OR32M x y).val = y.val ||| x.val := by
  rw [Var.val, Var.val, Var.val, BitVec.or_append, BitVec.or_append, BitVec.or_append, OR32M]

theorem val_XOR32M : (XOR32M x y).val = y.val ^^^ x.val := by
  rw [Var.val, Var.val, Var.val, BitVec.xor_append, BitVec.xor_append, BitVec.xor_append, XOR32M]

theorem val_ADD32M : (ADD32M x y).val = x.val + y.val := by
  have s0 := adc_toNat y.b0 x.b0 false
  have s1 := adc_toNat y.b1 x.b1 (adc y.b0 x.b0 false).2
  have s2 := adc_toNat y.b2 x.b2 (adc y.b1 x.b1 (adc y.b0 x.b0 false).2).2
  have s3 := adc_toNat y.b3 x.b3 (adc y.b2 x.b2 (adc y.b1 x.b1 (adc y.b0 x.b0 false).2).2).2
  have lt := (ADD32M x y).val.isLt
  apply BitVec.eq_of_toNat_eq
  rw [toNat_val] at lt ⊢
  rw [BitVec.toNat_add, toNat_val, toNat_val]
  rw [Bool.toNat_false] at s0
  dsimp only [ADD32M] at lt ⊢
  omega

/-! ### Rotations and shifts -/

theorem rotateLeft_toNat (z : BitVec 32) : (z.rotateLeft 1).toNat = 2 * z.toNat % 2 ^ 32 + z.toNat / 2 ^ 31 := by
  have hz := z.isLt
  have low : z.toNat >>> 31 < 2 ^ 1 := by omega
  have shift : z.toNat <<< 1 % 2 ^ 32 = 2 ^ 1 * (z.toNat % 2 ^ 31) := by omega
  rw [BitVec.toNat_rotateLeft, show 1 % 32 = 1 from rfl, shift, ← Nat.two_pow_add_eq_or_of_lt low]
  omega

theorem rotateLeft_succ (z : BitVec 32) (n : ℕ) : z.rotateLeft (n + 1) = (z.rotateLeft 1).rotateLeft n := by
  apply BitVec.eq_of_getMsbD_eq
  intro i hi
  have place : (1 + (n + i) % 32) % 32 = (n + 1 + i) % 32 := by omega
  have lt : (n + i) % 32 < 32 := Nat.mod_lt _ (by decide)
  rw [BitVec.getMsbD_rotateLeft, BitVec.getMsbD_rotateLeft, BitVec.getMsbD_rotateLeft, place, decide_eq_true lt,
    Bool.true_and]

theorem val_rlc1 (c : Bool) : (rlc1 x c).1.val = x.val.rotateLeft 1 := by
  have s0 := rl_toNat x.b0 c
  have s1 := rl_toNat x.b1 (rl x.b0 c).2
  have s2 := rl_toNat x.b2 (rl x.b1 (rl x.b0 c).2).2
  have s3 := rl_toNat x.b3 (rl x.b2 (rl x.b1 (rl x.b0 c).2).2).2
  have first := rlc_rr_rl_toNat x.b0 c (rl x.b3 (rl x.b2 (rl x.b1 (rl x.b0 c).2).2).2).2
  have top : (rl x.b3 (rl x.b2 (rl x.b1 (rl x.b0 c).2).2).2).2.toNat = x.b3.toNat / 2 ^ 7 := toNat_msb x.b3
  have low : (rl x.b0 c).2.toNat = x.b0.toNat / 2 ^ 7 := toNat_msb x.b0
  have h0 := x.b0.isLt
  have h1 := x.b1.isLt
  have h2 := x.b2.isLt
  have h3 := x.b3.isLt
  apply BitVec.eq_of_toNat_eq
  rw [rotateLeft_toNat, toNat_val, toNat_val]
  have high : (x.b0.toNat + 2 ^ 8 * (x.b1.toNat + 2 ^ 8 * (x.b2.toNat + 2 ^ 8 * x.b3.toNat))) / 2 ^ 31
      = x.b3.toNat / 2 ^ 7 := by omega
  rw [high]
  dsimp only [rlc1]
  omega

theorem val_RLC32M (B : ℕ) (c : Bool) : (RLC32M B x c).val = x.val.rotateLeft B := by
  induction B generalizing x c with
  | zero =>
    apply BitVec.eq_of_getMsbD_eq
    intro i hi
    rw [BitVec.getMsbD_rotateLeft, Nat.zero_add, Nat.mod_eq_of_lt hi, decide_eq_true hi, Bool.true_and, RLC32M]
  | succ B ih => rw [RLC32M, ih, val_rlc1, ← rotateLeft_succ]

theorem val_shl1 : (shl1 x).val = x.val <<< 1 := by
  have s0 := sla_toNat x.b0
  have s1 := rl_toNat x.b1 (sla x.b0).2
  have s2 := rl_toNat x.b2 (rl x.b1 (sla x.b0).2).2
  have s3 := rl_toNat x.b3 (rl x.b2 (rl x.b1 (sla x.b0).2).2).2
  have lt := (shl1 x).val.isLt
  apply BitVec.eq_of_toNat_eq
  rw [toNat_val] at lt ⊢
  rw [BitVec.toNat_shiftLeft, toNat_val]
  dsimp only [shl1] at lt ⊢
  omega

theorem val_SHL32M (B : ℕ) : (SHL32M B x).val = x.val <<< B := by
  induction B generalizing x with
  | zero => exact (BitVec.shiftLeft_zero x.val).symm
  | succ B ih => rw [SHL32M, ih, val_shl1, ← BitVec.shiftLeft_add, Nat.add_comm]

theorem val_shr1 : (shr1 x).val = x.val >>> 1 := by
  have s3 := srl_toNat x.b3
  have s2 := rr_toNat x.b2 (srl x.b3).2
  have s1 := rr_toNat x.b1 (rr x.b2 (srl x.b3).2).2
  have s0 := rr_toNat x.b0 (rr x.b1 (rr x.b2 (srl x.b3).2).2).2
  have c3 : (srl x.b3).2.toNat = x.b3.toNat % 2 := toNat_low x.b3
  have c2 : (rr x.b2 (srl x.b3).2).2.toNat = x.b2.toNat % 2 := toNat_low x.b2
  have c1 : (rr x.b1 (rr x.b2 (srl x.b3).2).2).2.toNat = x.b1.toNat % 2 := toNat_low x.b1
  apply BitVec.eq_of_toNat_eq
  rw [toNat_val, BitVec.toNat_ushiftRight, toNat_val]
  dsimp only [shr1]
  omega

theorem val_SHR32M (B : ℕ) : (SHR32M B x).val = x.val >>> B := by
  induction B generalizing x with
  | zero => exact (BitVec.ushiftRight_zero x.val).symm
  | succ B ih => rw [SHR32M, ih, val_shr1, ← BitVec.shiftRight_add, Nat.add_comm]

end RSX280.Vars32
