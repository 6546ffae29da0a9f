import Mathlib.Data.List.Basic
import Mathlib.Tactic.Common

/-!
# Blocks of 512 bytes

A block buffer is written a few bytes at a time, and never behind its end. Numbers of 16 and 24 bits
are stored with the low byte first.
-/

namespace RSX280.Sector

/-- The bytes of a block, by their index. -/
abbrev Buf : Type := ℕ → ℕ

/-- A block of zeros. -/
def zero : Buf := fun _ => 0

/-- The block with the bytes `l` from `i` on. -/
def Buf.write (b : Buf) (i : ℕ) (l : List ℕ) : Buf :=
  fun k => if i ≤ k ∧ k < i + l.length then l.getD (k - i) 0 else b k

/-- Store some bytes in the buffer. -/
def put (b : Buf) (i : ℕ) (l : List ℕ) : Option Buf :=
  if i + l.length ≤ 512 then some (b.write i l) else none

/-- `SET_INT16` -/
def set16 (b : Buf) (i v : ℕ) : Option Buf := put b i [v % 256, v / 256 % 256]

/-- `SET_INT24` -/
def set24 (b : Buf) (i v : ℕ) : Option Buf :=
  put b i [v % 256, v / 256 % 256, v / 65536 % 256]

/-- `GET_INT16` -/
def get16 (b : Buf) (i : ℕ) : ℕ := b i + 256 * b (i + 1)

/-- `GET_INT24` -/
def get24 (b : Buf) (i : ℕ) : ℕ := b i + 256 * b (i + 1) + 65536 * b (i + 2)

/-- A string, filled up with blanks. -/
def padded (n : ℕ) (s : String) : List ℕ :=
  ((s.toList.map Char.toNat) ++ List.replicate n 32).take n

section

variable {b c : Buf} {i k v : ℕ} {l : List ℕ}

theorem write_in (h : k < l.length) : b.write i l (i + k) = l.getD k 0 := by
  rw [Buf.write, if_pos ⟨Nat.le_add_right _ _, Nat.add_lt_add_left h _⟩, Nat.add_sub_cancel_left]

theorem write_out (h : k < i ∨ i + l.length ≤ k) : b.write i l k = b k :=
  if_neg (by omega)

theorem put_some (h : i + l.length ≤ 512) : put b i l = some (b.write i l) := if_pos h

theorem put_none (h : 512 < i + l.length) : put b i l = none := if_neg (Nat.not_le_of_lt h)

theorem put_eq_some (h : put b i l = some c) : c = b.write i l := by
  rw [put] at h
  split at h
  · exact (Option.some.inj h).symm
  · cases h

theorem bytes16 (hv : v < 65536) : v % 256 + 256 * (v / 256 % 256) = v := by omega

theorem bytes24 (hv : v < 16777216) :
    v % 256 + 256 * (v / 256 % 256) + 65536 * (v / 65536 % 256) = v := by omega

/-! ### Fields -/

/-- The bytes of several fields, one after the other. -/
def Buf.writes (b : Buf) (ps : List (ℕ × List ℕ)) : Buf := ps.foldl (fun b p => b.write p.1 p.2) b

/-- The fields do not overlap. -/
def Apart (ps : List (ℕ × List ℕ)) : Prop :=
  ps.Pairwise fun p q => p.1 + p.2.length ≤ q.1 ∨ q.1 + q.2.length ≤ p.1

/-- A byte of none of the fields is not written. -/
theorem writes_off {ps : List (ℕ × List ℕ)} (h : ∀ p ∈ ps, k < p.1 ∨ p.1 + p.2.length ≤ k) :
    b.writes ps k = b k := by
  induction ps generalizing b with
  | nil => rfl
  | cons p ps ih =>
    rw [Buf.writes, List.foldl_cons]
    refine (ih fun q hq => h q (List.mem_cons_of_mem p hq)).trans ?_
    exact write_out (h p List.mem_cons_self)

/-- Each field has its bytes in the end. -/
theorem writes_on {ps : List (ℕ × List ℕ)} (h : Apart ps) {p : ℕ × List ℕ} (hp : p ∈ ps)
    (hk : k < p.2.length) : b.writes ps (p.1 + k) = p.2.getD k 0 := by
  induction ps generalizing b with
  | nil => cases hp
  | cons q ps ih =>
    obtain ⟨hq, hps⟩ := List.pairwise_cons.mp h
    rw [Buf.writes, List.foldl_cons]
    rcases List.mem_cons.mp hp with rfl | hp
    · refine (writes_off fun r hr => ?_).trans (write_in hk)
      have := hq r hr
      omega
    · exact ih hps hp

theorem get16_writes {ps : List (ℕ × List ℕ)} (h : Apart ps) (hv : v < 65536)
    (hp : (i, [v % 256, v / 256 % 256]) ∈ ps) : get16 (b.writes ps) i = v := by
  have h₀ := writes_on (b := b) (k := 0) h hp Nat.zero_lt_two
  have h₁ := writes_on (b := b) (k := 1) h hp Nat.one_lt_two
  rw [get16, show b.writes ps i = v % 256 from h₀, show b.writes ps (i + 1) = v / 256 % 256 from h₁,
    bytes16 hv]

theorem get24_writes {ps : List (ℕ × List ℕ)} (h : Apart ps) (hv : v < 16777216)
    (hp : (i, [v % 256, v / 256 % 256, v / 65536 % 256]) ∈ ps) : get24 (b.writes ps) i = v := by
  have h₀ := writes_on (b := b) (k := 0) h hp (by decide : 0 < 3)
  have h₁ := writes_on (b := b) (k := 1) h hp (by decide : 1 < 3)
  have h₂ := writes_on (b := b) (k := 2) h hp (by decide : 2 < 3)
  rw [get24, show b.writes ps i = v % 256 from h₀, show b.writes ps (i + 1) = v / 256 % 256 from h₁,
    show b.writes ps (i + 2) = v / 65536 % 256 from h₂, bytes24 hv]

@[simp] theorem padded_length (n : ℕ) (s : String) : (padded n s).length = n := by
  rw [padded, List.length_take, List.length_append, List.length_replicate]
  omega

end

end RSX280.Sector
