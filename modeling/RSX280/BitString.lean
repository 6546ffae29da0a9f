import Mathlib.Data.Nat.Bitwise
import Mathlib.Data.List.Basic
import Mathlib.Tactic.Common

/-!
# Bit strings

Numbers written as strings of bits, the most significant bit first, and files of bytes seen as one
string of bits. A packed format writes its fields one behind the other without regard for the
bytes, so both ends are described by the string and not by the bytes.
-/

namespace RSX280.BitString

/-- The low `n` bits of `v`, the most significant one first. -/
def bitsOf : ℕ → ℕ → List Bool
  | 0, _ => []
  | n + 1, v => v.testBit n :: bitsOf n v

/-- The number a string of bits stands for. -/
def valOf (bs : List Bool) : ℕ := bs.foldl (fun a b => 2 * a + b.toNat) 0

/-- A file of bytes as one string of bits. -/
def ofBytes (file : List ℕ) : List Bool := file.flatMap (bitsOf 8)

@[simp] theorem bitsOf_length (n v : ℕ) : (bitsOf n v).length = n := by
  induction n with
  | zero => rfl
  | succ n ih => simp only [bitsOf, List.length_cons, ih]

@[simp] theorem ofBytes_nil : ofBytes [] = [] := rfl

@[simp] theorem ofBytes_cons (b : ℕ) (file : List ℕ) :
    ofBytes (b :: file) = bitsOf 8 b ++ ofBytes file := rfl

theorem ofBytes_append (f g : List ℕ) : ofBytes (f ++ g) = ofBytes f ++ ofBytes g := by
  simp only [ofBytes, List.flatMap_append]

@[simp] theorem ofBytes_length (file : List ℕ) : (ofBytes file).length = 8 * file.length := by
  induction file with
  | nil => rfl
  | cons b file ih =>
    simp only [ofBytes_cons, List.length_append, bitsOf_length, ih, List.length_cons]
    omega

/-- The string depends on the `n` low bits only. -/
theorem bitsOf_congr {n v w : ℕ} (h : ∀ i < n, v.testBit i = w.testBit i) :
    bitsOf n v = bitsOf n w := by
  induction n with
  | zero => rfl
  | succ n ih =>
    rw [bitsOf, bitsOf, h n (Nat.lt_succ_self n), ih fun i hi => h i (Nat.lt_succ_of_lt hi)]

theorem bitsOf_mod {n m : ℕ} (v : ℕ) (h : n ≤ m) : bitsOf n (v % 2 ^ m) = bitsOf n v := by
  refine bitsOf_congr fun i hi => ?_
  rw [Nat.testBit_mod_two_pow, decide_eq_true (Nat.lt_of_lt_of_le hi h), Bool.true_and]

/-- A bit shifted in from the right is the last one of the string. -/
theorem bitsOf_shift (n v : ℕ) (b : Bool) :
    bitsOf (n + 1) (2 * v + b.toNat) = bitsOf n v ++ [b] := by
  have shifted : ∀ i, (2 * v + b.toNat).testBit (i + 1) = v.testBit i := by
    intro i
    rw [Nat.testBit_succ]
    congr 1
    cases b <;> simp only [Bool.toNat_true, Bool.toNat_false] <;> omega
  induction n with
  | zero => cases b <;> simp [bitsOf]
  | succ n ih => rw [bitsOf, ih, bitsOf, shifted n, List.cons_append]

/-- Reading a bit behind what was read doubles it. -/
theorem valOf_append (bs : List Bool) (b : Bool) : valOf (bs ++ [b]) = 2 * valOf bs + b.toNat := by
  simp only [valOf, List.foldl_append, List.foldl_cons, List.foldl_nil]

/-- Reading back the `n` bits of `v` gives its `n` low bits. -/
theorem valOf_bitsOf (n v : ℕ) : valOf (bitsOf n v) = v % 2 ^ n := by
  induction n generalizing v with
  | zero => simp only [bitsOf, valOf, List.foldl_nil, Nat.pow_zero, Nat.mod_one]
  | succ n ih =>
    have split : v = 2 * (v / 2) + (v.testBit 0).toNat := by
      rw [Nat.toNat_testBit, Nat.pow_zero, Nat.div_one]
      omega
    rw [split, bitsOf_shift, valOf_append, ih, ← split, Nat.toNat_testBit, Nat.pow_zero,
      Nat.div_one, Nat.pow_succ, Nat.mul_comm (2 ^ n) 2, Nat.mod_mul]
    omega

end RSX280.BitString
