import Mathlib.Data.List.GetD
import RSX280.Md5Spec
import RSX280.Overlay
import RSX280.Vars32

/-!
# MD5 (`libs/syslib/md5.mac`, `utils/md5.mac`)

`MD5UPD` takes the next 64 bytes of a message and `MD5END` the rest, which is less. The words are 32-bit variables in
memory, and a routine for each operation works on them. `md5_eq` says that the result is the digest of the message,
however it comes, and `PROCESS_eq` that the command `MD5` returns the digest of a file.
-/

namespace RSX280.Md5

open Vars32 Overlay

/-- The variables of the module. -/
structure Vars where
  a0 : Var
  b0 : Var
  c0 : Var
  d0 : Var
  a1 : Var
  b1 : Var
  c1 : Var
  d1 : Var
  f : Var
  temp : Var
  md5pad : List Byte
  md5len : List Byte

/-- The table `k`. -/
def k : List Var :=
  [
    ⟨0x78, 0xA4, 0x6A, 0xD7⟩, ⟨0x56, 0xB7, 0xC7, 0xE8⟩, ⟨0xDB, 0x70, 0x20, 0x24⟩, ⟨0xEE, 0xCE, 0xBD, 0xC1⟩,
    ⟨0xAF, 0x0F, 0x7C, 0xF5⟩, ⟨0x2A, 0xC6, 0x87, 0x47⟩, ⟨0x13, 0x46, 0x30, 0xA8⟩, ⟨0x01, 0x95, 0x46, 0xFD⟩,
    ⟨0xD8, 0x98, 0x80, 0x69⟩, ⟨0xAF, 0xF7, 0x44, 0x8B⟩, ⟨0xB1, 0x5B, 0xFF, 0xFF⟩, ⟨0xBE, 0xD7, 0x5C, 0x89⟩,
    ⟨0x22, 0x11, 0x90, 0x6B⟩, ⟨0x93, 0x71, 0x98, 0xFD⟩, ⟨0x8E, 0x43, 0x79, 0xA6⟩, ⟨0x21, 0x08, 0xB4, 0x49⟩,
    ⟨0x62, 0x25, 0x1E, 0xF6⟩, ⟨0x40, 0xB3, 0x40, 0xC0⟩, ⟨0x51, 0x5A, 0x5E, 0x26⟩, ⟨0xAA, 0xC7, 0xB6, 0xE9⟩,
    ⟨0x5D, 0x10, 0x2F, 0xD6⟩, ⟨0x53, 0x14, 0x44, 0x02⟩, ⟨0x81, 0xE6, 0xA1, 0xD8⟩, ⟨0xC8, 0xFB, 0xD3, 0xE7⟩,
    ⟨0xE6, 0xCD, 0xE1, 0x21⟩, ⟨0xD6, 0x07, 0x37, 0xC3⟩, ⟨0x87, 0x0D, 0xD5, 0xF4⟩, ⟨0xED, 0x14, 0x5A, 0x45⟩,
    ⟨0x05, 0xE9, 0xE3, 0xA9⟩, ⟨0xF8, 0xA3, 0xEF, 0xFC⟩, ⟨0xD9, 0x02, 0x6F, 0x67⟩, ⟨0x8A, 0x4C, 0x2A, 0x8D⟩,
    ⟨0x42, 0x39, 0xFA, 0xFF⟩, ⟨0x81, 0xF6, 0x71, 0x87⟩, ⟨0x22, 0x61, 0x9D, 0x6D⟩, ⟨0x0C, 0x38, 0xE5, 0xFD⟩,
    ⟨0x44, 0xEA, 0xBE, 0xA4⟩, ⟨0xA9, 0xCF, 0xDE, 0x4B⟩, ⟨0x60, 0x4B, 0xBB, 0xF6⟩, ⟨0x70, 0xBC, 0xBF, 0xBE⟩,
    ⟨0xC6, 0x7E, 0x9B, 0x28⟩, ⟨0xFA, 0x27, 0xA1, 0xEA⟩, ⟨0x85, 0x30, 0xEF, 0xD4⟩, ⟨0x05, 0x1D, 0x88, 0x04⟩,
    ⟨0x39, 0xD0, 0xD4, 0xD9⟩, ⟨0xE5, 0x99, 0xDB, 0xE6⟩, ⟨0xF8, 0x7C, 0xA2, 0x1F⟩, ⟨0x65, 0x56, 0xAC, 0xC4⟩,
    ⟨0x44, 0x22, 0x29, 0xF4⟩, ⟨0x97, 0xFF, 0x2A, 0x43⟩, ⟨0xA7, 0x23, 0x94, 0xAB⟩, ⟨0x39, 0xA0, 0x93, 0xFC⟩,
    ⟨0xC3, 0x59, 0x5B, 0x65⟩, ⟨0x92, 0xCC, 0x0C, 0x8F⟩, ⟨0x7D, 0xF4, 0xEF, 0xFF⟩, ⟨0xD1, 0x5D, 0x84, 0x85⟩,
    ⟨0x4F, 0x7E, 0xA8, 0x6F⟩, ⟨0xE0, 0xE6, 0x2C, 0xFE⟩, ⟨0x14, 0x43, 0x01, 0xA3⟩, ⟨0xA1, 0x11, 0x08, 0x4E⟩,
    ⟨0x82, 0x7E, 0x53, 0xF7⟩, ⟨0x35, 0xF2, 0x3A, 0xBD⟩, ⟨0xBB, 0xD2, 0xD7, 0x2A⟩, ⟨0x91, 0xD3, 0x86, 0xEB⟩]

/-- The table `rs`. -/
def rs : List ℕ :=
  [7, 12, 17, 22, 7, 12, 17, 22, 7, 12, 17, 22, 7, 12, 17, 22,
    5, 9, 14, 20, 5, 9, 14, 20, 5, 9, 14, 20, 5, 9, 14, 20,
    4, 11, 16, 23, 4, 11, 16, 23, 4, 11, 16, 23, 4, 11, 16, 23,
    6, 10, 15, 21, 6, 10, 15, 21, 6, 10, 15, 21, 6, 10, 15, 21]

/-- `h0` up to `h3`. -/
def h0 : Var := ⟨0x01, 0x23, 0x45, 0x67⟩

@[inherit_doc h0] def h1 : Var := ⟨0x89, 0xAB, 0xCD, 0xEF⟩

@[inherit_doc h0] def h2 : Var := ⟨0xFE, 0xDC, 0xBA, 0x98⟩

@[inherit_doc h0] def h3 : Var := ⟨0x76, 0x54, 0x32, 0x10⟩

/-! ### The routines -/

/-- `MD5INI`. -/
def MD5INI (s : Vars) : Vars :=
  { s with a0 := h0, b0 := h1, c0 := h2, d0 := h3, md5len := List.replicate 8 0 }

/-- From `loop` up to `mm4`: the function in `f`, and the number of the word in `B`. The products are bytes. -/
def mm (c : ℕ) (s : Vars) : Vars × ℕ :=
  if c < 16 then
    let temp := AND32M (CPL32M s.b1) s.d1
    let f := OR32M (AND32M (CPY32M s.b1) s.c1) temp
    ({ s with temp, f }, c)
  else if c < 32 then
    let temp := AND32M (CPL32M s.d1) s.c1
    let f := OR32M (AND32M (CPY32M s.d1) s.b1) temp
    ({ s with temp, f }, (2 * (2 * c) % 256 + c + 1) % 256 % 16)
  else if c < 48 then
    let f := XOR32M (XOR32M (CPY32M s.b1) s.c1) s.d1
    ({ s with f }, (2 * c % 256 + c + 5) % 256 % 16)
  else
    let f := XOR32M (OR32M (CPL32M s.d1) s.b1) s.c1
    ({ s with f }, (2 * (2 * (2 * c)) % 256 + 256 - c) % 256 % 16)

/-- The word at four bytes of the chunk. -/
def word (w : List Byte) (g : ℕ) : Var :=
  ⟨w.getD (4 * g) 0, w.getD (4 * g + 1) 0, w.getD (4 * g + 2) 0, w.getD (4 * g + 3) 0⟩

/-- From `mm4` to the end of the loop. The address in the table `rs` is computed without a carry. -/
def mm4 (w : List Byte) (c g : ℕ) (s : Vars) : Vars :=
  let f := ADD32M (ADD32M (ADD32M s.f s.a1) (k.getD c ⟨0, 0, 0, 0⟩)) (word w g)
  let f := RLC32M (rs.getD c 0) f false
  { s with a1 := CPY32M s.d1, d1 := CPY32M s.c1, c1 := CPY32M s.b1, f, b1 := ADD32M s.b1 f }

/-- The loop, for `n` more rounds. -/
def loop (w : List Byte) : ℕ → ℕ → Vars → Vars
  | 0, _, s => s
  | n + 1, c, s => loop w n (c + 1) (mm4 w c (mm c s).2 (mm c s).1)

/-- `MD5UP1`. -/
def MD5UP1 (w : List Byte) (s : Vars) : Vars :=
  let s := loop w 64 0 { s with a1 := s.a0, b1 := s.b0, c1 := s.c0, d1 := s.d0 }
  { s with a0 := ADD32M s.a0 s.a1, b0 := ADD32M s.b0 s.b1, c0 := ADD32M s.c0 s.c1, d0 := ADD32M s.d0 s.d1 }

/-- `inc (hl)` for one byte after the other, as long as they become zero. -/
def bump : List Byte → List Byte
  | [] => []
  | b :: l => if b + 1 ≠ 0 then (b + 1) :: l else (b + 1) :: bump l

/-- `UPDLEN`, with the value in `DE`. -/
def UPDLEN (DE : ℕ) : List Byte → List Byte
  | b0 :: b1 :: l =>
    let s0 := adc b0 (BitVec.ofNat 8 DE) false
    let s1 := adc b1 (BitVec.ofNat 8 (DE / 256)) s0.2
    s0.1 :: s1.1 :: if s1.2 then bump l else l
  | l => l

/-- `MD5UPD`. -/
def MD5UPD (w : List Byte) (s : Vars) : Vars := MD5UP1 w { s with md5len := UPDLEN 512 s.md5len }

/-- `MD5END`, with the `E` bytes of `msg`: the bytes of the result. -/
def MD5END (msg : List Byte) (s : Vars) : Vars :=
  let E := msg.length
  let s := { s with md5pad := overlay s.md5pad 0 msg, md5len := UPDLEN (8 * E) s.md5len }
  if E ≤ 55 then
    let pad := overlay (overlay s.md5pad E [0x80]) (E + 1) (List.replicate (55 - E) 0)
    let pad := overlay pad 56 s.md5len
    MD5UP1 pad { s with md5pad := pad }
  else
    let pad := overlay (overlay s.md5pad E [0x80]) (E + 1) (List.replicate (63 - E) 0)
    let s := MD5UP1 pad { s with md5pad := pad }
    let pad := overlay (overlay s.md5pad 0 (List.replicate 56 0)) 56 s.md5len
    MD5UP1 pad { s with md5pad := pad }

/-- The loop `mblk1` of the command, with what is left of the buffer. -/
def mblk1 : ℕ → List Byte → Vars → Vars × List Byte
  | 0, l, s => (s, l)
  | n + 1, l, s => if l.length < 64 then (s, l) else mblk1 n (l.drop 64) (MD5UPD (l.take 64) s)

/-- `MD5BLK`, for a buffer with the bytes that were read. The flag `eofflg` is set when they are no full block. -/
def MD5BLK (buf : List Byte) (s : Vars) : Vars × Bool :=
  let r := mblk1 (buf.length / 64) buf s
  if buf.length = 512 then (r.1, false) else (MD5END r.2 r.1, true)

/-- The 16 bytes at `a0`. -/
def Vars.result (s : Vars) : List Byte := s.a0.bytes ++ s.b0.bytes ++ s.c0.bytes ++ s.d0.bytes

/-- The loop `pr2`, for at most `n` reads. A read behind the end of the file `A` is of no bytes, with `E.EOF`. -/
def pr2 (A : List Byte) : ℕ → ℕ → Bool → Vars → Option (List Byte)
  | 0, _, _, _ => none
  | n + 1, blkno, eofflg, s =>
    match (A.drop (512 * blkno)).take 512 with
    | [] => some (if eofflg then s else (MD5BLK [] s).1).result
    | b :: buf =>
      let r := MD5BLK (b :: buf) s
      pr2 A n ((blkno + 1) % 2 ^ 24) (eofflg || r.2) r.1

/-- `PROCESS`, from `MD5INI` up to the output of the result, for a file. -/
def PROCESS (n : ℕ) (A : List Byte) (s : Vars) : Option (List Byte) := pr2 A n 0 false (MD5INI s)

/-! ### Rounds -/

/-- The words that a block changes. -/
def Vars.cur (s : Vars) : Md5Spec.State := ⟨s.a1.val, s.b1.val, s.c1.val, s.d1.val⟩

/-- The words of all blocks up to now. -/
def Vars.sum (s : Vars) : Md5Spec.State := ⟨s.a0.val, s.b0.val, s.c0.val, s.d0.val⟩

variable {s : Vars} {w : List Byte} {c n : ℕ}

theorem val_word (w : List Byte) (g : ℕ) : (word w g).val = Md5Spec.word w g := rfl

theorem val_k (c : ℕ) : (k.getD c ⟨0, 0, 0, 0⟩).val = Md5Spec.K.getD c 0 := by
  have table : k.map Var.val = Md5Spec.K := by decide
  have zero : Var.val ⟨0, 0, 0, 0⟩ = 0 := rfl
  rw [← table, ← zero, List.getD_map]

/-- The function of a round and the word that is added. -/
theorem mm_spec (hc : c < 64) : (mm c s).1.f.val = (Md5Spec.mix c s.cur).1 ∧ (mm c s).2 = (Md5Spec.mix c s.cur).2 := by
  rw [mm, Md5Spec.mix]
  split_ifs with first second third
  · refine ⟨?_, rfl⟩
    rw [val_OR32M, val_AND32M, val_AND32M, val_CPL32M, val_CPY32M, BitVec.or_comm, BitVec.and_comm s.c1.val,
      BitVec.and_comm s.d1.val]
    rfl
  · refine ⟨?_, ?_⟩
    · rw [val_OR32M, val_AND32M, val_AND32M, val_CPL32M, val_CPY32M, BitVec.or_comm]
      rfl
    · change (2 * (2 * c) % 256 + c + 1) % 256 % 16 = (5 * c + 1) % 16
      omega
  · refine ⟨?_, ?_⟩
    · rw [val_XOR32M, val_XOR32M, val_CPY32M, BitVec.xor_comm s.c1.val, BitVec.xor_comm s.d1.val]
      rfl
    · change (2 * c % 256 + c + 5) % 256 % 16 = (3 * c + 5) % 16
      omega
  · refine ⟨?_, ?_⟩
    · rw [val_XOR32M, val_OR32M, val_CPL32M]
      rfl
    · change (2 * (2 * (2 * c)) % 256 + 256 - c) % 256 % 16 = 7 * c % 16
      omega

/-- Which variables the first part of a round changes. -/
theorem mm_cur (c : ℕ) (s : Vars) : (mm c s).1.cur = s.cur := by
  rw [mm]
  split_ifs <;> rfl

/-- What a round and a chunk leave as it was. -/
structure Keeps (s s' : Vars) : Prop where
  pad : s'.md5pad = s.md5pad
  len : s'.md5len = s.md5len
  sum : s'.sum = s.sum

theorem mm_keeps (c : ℕ) (s : Vars) : Keeps s (mm c s).1 := by
  rw [mm]
  split_ifs <;> exact ⟨rfl, rfl, rfl⟩

theorem mm4_keeps (w : List Byte) (c g : ℕ) (s : Vars) : Keeps s (mm4 w c g s) := ⟨rfl, rfl, rfl⟩

theorem round_spec (w : List Byte) (hc : c < 64) (s : Vars) :
    (mm4 w c (mm c s).2 (mm c s).1).cur = Md5Spec.step (Md5Spec.word w) c s.cur := by
  obtain ⟨f, g⟩ := mm_spec (s := s) hc
  have cur : (mm c s).1.cur = s.cur := mm_cur c s
  have a : (mm c s).1.a1.val = s.cur.a := congrArg Md5Spec.State.a cur
  have b : (mm c s).1.b1.val = s.cur.b := congrArg Md5Spec.State.b cur
  have c' : (mm c s).1.c1.val = s.cur.c := congrArg Md5Spec.State.c cur
  have d : (mm c s).1.d1.val = s.cur.d := congrArg Md5Spec.State.d cur
  have new : (mm4 w c (mm c s).2 (mm c s).1).b1.val = (Md5Spec.step (Md5Spec.word w) c s.cur).b := by
    rw [mm4, val_ADD32M, val_RLC32M, val_ADD32M, val_ADD32M, val_ADD32M, val_k, val_word, f, g, a, b, Md5Spec.step,
      BitVec.add_comm _ s.cur.a]
    rfl
  rw [Vars.cur, new]
  exact Md5Spec.State.ext d rfl b c'

theorem loop_spec (w : List Byte) (hc : c + n ≤ 64) (s : Vars) :
    (loop w n c s).cur = Md5Spec.steps (Md5Spec.word w) n c s.cur ∧ Keeps s (loop w n c s) := by
  induction n generalizing c s with
  | zero => exact ⟨rfl, rfl, rfl, rfl⟩
  | succ n ih =>
    have next : c + 1 + n ≤ 64 := by omega
    obtain ⟨cur, kept⟩ := ih next (mm4 w c (mm c s).2 (mm c s).1)
    have first := mm_keeps c s
    have second := mm4_keeps w c (mm c s).2 (mm c s).1
    have lt : c < 64 := by omega
    rw [loop, Md5Spec.steps, ← round_spec w lt s]
    exact ⟨cur, kept.pad.trans (second.pad.trans first.pad), kept.len.trans (second.len.trans first.len),
      kept.sum.trans (second.sum.trans first.sum)⟩

theorem sum_add {t : Vars} (sum : t.sum = s.sum) :
    Vars.sum { t with
      a0 := ADD32M t.a0 t.a1, b0 := ADD32M t.b0 t.b1, c0 := ADD32M t.c0 t.c1, d0 := ADD32M t.d0 t.d1 }
    = ⟨s.sum.a + t.cur.a, s.sum.b + t.cur.b, s.sum.c + t.cur.c, s.sum.d + t.cur.d⟩ := by
  rw [← sum]
  exact Md5Spec.State.ext (val_ADD32M t.a0 t.a1) (val_ADD32M t.b0 t.b1) (val_ADD32M t.c0 t.c1) (val_ADD32M t.d0 t.d1)

/-- A chunk. -/
theorem MD5UP1_spec (w : List Byte) (s : Vars) : (MD5UP1 w s).sum = Md5Spec.compress w s.sum ∧
    (MD5UP1 w s).md5pad = s.md5pad ∧ (MD5UP1 w s).md5len = s.md5len := by
  obtain ⟨cur, kept⟩ := loop_spec w (n := 64) (c := 0) (by decide)
    { s with a1 := s.a0, b1 := s.b0, c1 := s.c0, d1 := s.d0 }
  refine ⟨?_, kept.pad, kept.len⟩
  have start : Vars.cur { s with a1 := s.a0, b1 := s.b0, c1 := s.c0, d1 := s.d0 } = s.sum := rfl
  rw [MD5UP1, sum_add kept.sum, cur, start, Md5Spec.compress]
  rfl

/-! ### The length -/

/-- The value of bytes, with the least significant one first. -/
def num : List Byte → ℕ
  | [] => 0
  | b :: l => b.toNat + 256 * num l

theorem num_lt (l : List Byte) : num l < 256 ^ l.length := by
  induction l with
  | nil => exact Nat.one_pos
  | cons b l ih =>
    have hb := b.isLt
    rw [num, List.length_cons, Nat.pow_succ]
    omega

theorem bytes_num (l : List Byte) : Md5Spec.bytes l.length (num l) = l := by
  induction l with
  | nil => rfl
  | cons b l ih =>
    have hb := b.isLt
    have rest : num (b :: l) / 256 = num l := by
      rw [num]
      omega
    have first : BitVec.ofNat 8 (num (b :: l)) = b := by
      apply BitVec.eq_of_toNat_eq
      rw [BitVec.toNat_ofNat, num]
      omega
    rw [List.length_cons, Md5Spec.bytes, rest, first, ih]

theorem length_bump (l : List Byte) : (bump l).length = l.length := by
  induction l with
  | nil => rfl
  | cons b l ih =>
    rw [bump]
    split
    · rfl
    · rw [List.length_cons, ih, List.length_cons]

theorem num_bump (l : List Byte) : num (bump l) = (num l + 1) % 256 ^ l.length := by
  induction l with
  | nil => rfl
  | cons b l ih =>
    have hb := b.isLt
    have lt := num_lt l
    have sum : (b + 1).toNat = (b.toNat + 1) % 256 := BitVec.toNat_add b 1
    rw [bump, List.length_cons, Nat.pow_succ, num]
    split
    · next more =>
      have : (b + 1).toNat ≠ 0 := fun zero => more (BitVec.eq_of_toNat_eq zero)
      rw [num, sum, Nat.mod_eq_of_lt (by omega), Nat.mod_eq_of_lt (by omega)]
      omega
    · next zero =>
      have zero : (b + 1).toNat = 0 := congrArg BitVec.toNat (not_not.mp zero)
      have full : b.toNat + 256 * num l + 1 = 256 * (num l + 1) := by omega
      rw [num, zero, ih, full, Nat.mul_comm (256 ^ _) 256, Nat.mul_mod_mul_left, Nat.zero_add]

/-- The length is counted modulo 2^64. -/
theorem UPDLEN_spec {l : List Byte} (hl : l.length = 8) (hn : n < 65536) :
    (UPDLEN n l).length = 8 ∧ num (UPDLEN n l) = (num l + n) % 256 ^ 8 := by
  obtain ⟨b0, l, rfl⟩ := List.exists_cons_of_length_eq_add_one hl
  obtain ⟨b1, l, rfl⟩ := List.exists_cons_of_length_eq_add_one (Nat.succ.inj hl)
  have six : l.length = 6 := Nat.succ.inj (Nat.succ.inj hl)
  have lt := num_lt l
  have s0 := adc_toNat b0 (BitVec.ofNat 8 n) false
  have s1 := adc_toNat b1 (BitVec.ofNat 8 (n / 256)) (adc b0 (BitVec.ofNat 8 n) false).2
  have low := (adc b0 (BitVec.ofNat 8 n) false).1.isLt
  have high := (adc b1 (BitVec.ofNat 8 (n / 256)) (adc b0 (BitVec.ofNat 8 n) false).2).1.isLt
  rw [BitVec.toNat_ofNat] at s0 s1
  rw [Bool.toNat_false] at s0
  rw [six] at lt
  simp only [UPDLEN, num]
  cases carry : (adc b1 (BitVec.ofNat 8 (n / 256)) (adc b0 (BitVec.ofNat 8 n) false).2).2 with
  | false =>
    rw [carry, Bool.toNat_false] at s1
    rw [if_neg Bool.false_ne_true]
    refine ⟨by rw [List.length_cons, List.length_cons, six], ?_⟩
    omega
  | true =>
    rw [carry, Bool.toNat_true] at s1
    rw [if_pos rfl, num_bump, six]
    refine ⟨by rw [List.length_cons, List.length_cons, length_bump, six], ?_⟩
    omega

theorem bytes_mod (n x : ℕ) : Md5Spec.bytes n (x % 256 ^ n) = Md5Spec.bytes n x := by
  induction n generalizing x with
  | zero => rfl
  | succ n ih =>
    have rest : x % 256 ^ (n + 1) / 256 = x / 256 % 256 ^ n := by
      rw [Nat.pow_succ', Nat.mod_mul_right_div_self]
    have first : BitVec.ofNat 8 (x % 256 ^ (n + 1)) = BitVec.ofNat 8 x := by
      apply BitVec.eq_of_toNat_eq
      rw [BitVec.toNat_ofNat, BitVec.toNat_ofNat, Nat.mod_mod_of_dvd _ ⟨256 ^ n, Nat.pow_succ'⟩]
    rw [Md5Spec.bytes, Md5Spec.bytes, rest, ih, first]

/-- The bytes of a length that was counted. -/
theorem eq_bytes {l : List Byte} (hl : l.length = 8) (value : num l = n % 256 ^ 8) : l = Md5Spec.bytes 8 n := by
  rw [← bytes_mod, ← value, ← hl, bytes_num]

theorem bytes_val (x : Var) : x.bytes = Md5Spec.bytes 4 x.val.toNat := by
  have value : num x.bytes = x.val.toNat := (toNat_val x).symm
  rw [← value]
  exact (bytes_num x.bytes).symm

theorem result_eq (s : Vars) : s.result = s.sum.bytes := by
  rw [Vars.result, bytes_val, bytes_val, bytes_val, bytes_val]
  rfl

/-! ### The last bytes -/

/-- One piece behind another one at the begin. -/
theorem overlay_next {l d d' : List Byte} {p : ℕ} (h : d.length = p) :
    overlay (overlay l 0 d) p d' = overlay l 0 (d ++ d') := by
  rw [← overlay_append (Nat.zero_le _), Nat.zero_add, h]

theorem overlay_full {l d : List Byte} (h : l.length = d.length) : overlay l 0 d = d := by
  rw [overlay, List.take_zero, List.nil_append, Nat.zero_add, List.drop_eq_nil_of_le (Nat.le_of_eq h), List.append_nil]

/-- The last blocks, when the length fits in the first one. -/
theorem MD5END_one {msg len : List Byte} (hmsg : msg.length ≤ 55) (hpad : s.md5pad.length = 64)
    (hlen : UPDLEN (8 * msg.length) s.md5len = len) (eight : len.length = 8) :
    (MD5END msg s).sum = Md5Spec.compress (msg ++ 0x80 :: (List.replicate (55 - msg.length) 0 ++ len)) s.sum := by
  have marked : (msg ++ [0x80]).length = msg.length + 1 := by rw [List.length_append, List.length_singleton]
  have filled : (msg ++ [0x80] ++ List.replicate (55 - msg.length) (0 : Byte)).length = 56 := by
    rw [List.length_append, marked, List.length_replicate]
    omega
  have whole : s.md5pad.length = (msg ++ [0x80] ++ List.replicate (55 - msg.length) (0 : Byte) ++ len).length := by
    rw [List.length_append, filled, hpad, eight]
  rw [MD5END, if_pos hmsg]
  dsimp only
  rw [(MD5UP1_spec _ _).1, hlen, overlay_next rfl, overlay_next marked, overlay_next filled, overlay_full whole,
    List.append_assoc, List.append_assoc, List.singleton_append]
  rfl

theorem sum_pad (s : Vars) (pad : List Byte) : Vars.sum { s with md5pad := pad } = s.sum := rfl

/-- And when it does not. -/
theorem MD5END_two {msg len : List Byte} (hmsg : 55 < msg.length) (short : msg.length < 64) (hpad : s.md5pad.length = 64)
    (hlen : UPDLEN (8 * msg.length) s.md5len = len) (eight : len.length = 8) :
    (MD5END msg s).sum = Md5Spec.compress (List.replicate 56 0 ++ len)
      (Md5Spec.compress (msg ++ 0x80 :: List.replicate (63 - msg.length) 0) s.sum) := by
  have marked : (msg ++ [0x80]).length = msg.length + 1 := by rw [List.length_append, List.length_singleton]
  have whole : s.md5pad.length = (msg ++ [0x80] ++ List.replicate (63 - msg.length) (0 : Byte)).length := by
    rw [List.length_append, marked, List.length_replicate, hpad]
    omega
  have next : (msg ++ [0x80] ++ List.replicate (63 - msg.length) (0 : Byte)).length
      = (List.replicate 56 (0 : Byte) ++ len).length := by
    rw [← whole, hpad, List.length_append, List.length_replicate, eight]
  have zeros : (List.replicate 56 (0 : Byte)).length = 56 := List.length_replicate
  rw [MD5END, if_neg (Nat.not_le_of_lt hmsg)]
  dsimp only
  rw [(MD5UP1_spec _ _).1, sum_pad, (MD5UP1_spec _ _).1, (MD5UP1_spec _ _).2.1, (MD5UP1_spec _ _).2.2]
  dsimp only
  rw [hlen, overlay_next rfl, overlay_next marked, overlay_full whole, overlay_next zeros, overlay_full next,
    List.append_assoc, List.singleton_append]
  rfl

/-- `MD5END` mixes in the last blocks of the message. -/
theorem MD5END_sum {msg len : List Byte} (short : msg.length < 64) (hpad : s.md5pad.length = 64)
    (hlen : UPDLEN (8 * msg.length) s.md5len = len) (eight : len.length = 8) {rest : List Byte}
    (hrest : rest = msg ++ 0x80 :: (List.replicate ((119 - msg.length % 64) % 64) 0 ++ len)) :
    (MD5END msg s).sum = Md5Spec.absorb (Md5Spec.blocks (rest.length / 64) rest) s.sum := by
  have length : rest.length = msg.length + 1 + (119 - msg.length % 64) % 64 + 8 := by
    rw [hrest, List.length_append, List.length_cons, List.length_append, List.length_replicate, eight]
    omega
  rcases Nat.lt_or_ge 55 msg.length with more | less
  · have one : (msg ++ 0x80 :: List.replicate (63 - msg.length) (0 : Byte)).length = 64 := by
      rw [List.length_append, List.length_cons, List.length_replicate]
      omega
    have two : (List.replicate 56 (0 : Byte) ++ len).length = 64 := by
      rw [List.length_append, List.length_replicate, eight]
    have parts : rest = (msg ++ 0x80 :: List.replicate (63 - msg.length) 0) ++ ((List.replicate 56 0 ++ len) ++ []) := by
      have count : (119 - msg.length % 64) % 64 = (63 - msg.length) + 56 := by omega
      rw [hrest, count, List.replicate_add, List.append_nil, List.append_assoc, List.append_assoc, List.cons_append]
    have blocks : rest.length / 64 = 2 := by omega
    rw [blocks, parts, Md5Spec.blocks_append _ one, Md5Spec.blocks_append _ two, MD5END_two more short hpad hlen eight]
    rfl
  · have one : rest.length = 64 := by omega
    have count : (119 - msg.length % 64) % 64 = 55 - msg.length := by omega
    have blocks : rest.length / 64 = 1 := by omega
    rw [blocks, ← List.append_nil rest, Md5Spec.blocks_append _ one, MD5END_one less hpad hlen eight, hrest, count]
    rfl

/-! ### A message -/

/-- The result for a message that comes in chunks and some last bytes. -/
def md5 (chunks : List (List Byte)) (msg : List Byte) (s : Vars) : List Byte :=
  (MD5END msg (chunks.foldl (fun s w => MD5UPD w s) (MD5INI s))).result

/-- The state after some chunks. -/
structure After (chunks : List (List Byte)) (s : Vars) : Prop where
  pad : s.md5pad.length = 64
  len : s.md5len.length = 8
  count : num s.md5len = 512 * chunks.length % 256 ^ 8
  sum : s.sum = Md5Spec.absorb chunks Md5Spec.init

theorem after_init (hpad : s.md5pad.length = 64) : After [] (MD5INI s) where
  pad := hpad
  len := rfl
  count := rfl
  sum := show (⟨h0.val, h1.val, h2.val, h3.val⟩ : Md5Spec.State) = Md5Spec.init by decide

theorem After.update {chunks : List (List Byte)} (h : After chunks s) (w : List Byte) :
    After (chunks ++ [w]) (MD5UPD w s) := by
  obtain ⟨sum, pad, len⟩ := MD5UP1_spec w { s with md5len := UPDLEN 512 s.md5len }
  obtain ⟨eight, value⟩ := UPDLEN_spec h.len (show 512 < 65536 by decide)
  have count := h.count
  refine ⟨(congrArg List.length pad).trans h.pad, (congrArg List.length len).trans eight, ?_, ?_⟩
  · rw [MD5UPD, len, value, count, List.length_append, List.length_singleton]
    omega
  · rw [MD5UPD, sum, Md5Spec.absorb_append, ← h.sum]
    rfl

theorem After.all {chunks : List (List Byte)} (h : After chunks s) (rest : List (List Byte)) :
    After (chunks ++ rest) (rest.foldl (fun s w => MD5UPD w s) s) := by
  induction rest generalizing chunks s with
  | nil => rwa [List.append_nil]
  | cons w rest ih =>
    have := ih (h.update w)
    rwa [List.append_assoc] at this

theorem length_flatten {chunks : List (List Byte)} (hchunks : ∀ w ∈ chunks, w.length = 64) :
    chunks.flatten.length = 64 * chunks.length := by
  induction chunks with
  | nil => rfl
  | cons w chunks ih =>
    obtain ⟨first, rest⟩ := List.forall_mem_cons.mp hchunks
    rw [List.flatten_cons, List.length_append, first, ih rest, List.length_cons]
    omega

/-- The digest is that of the message when all chunks have 64 bytes. -/
theorem After.result {chunks : List (List Byte)} {msg : List Byte} (h : After chunks s)
    (hchunks : ∀ w ∈ chunks, w.length = 64) (short : msg.length < 64) :
    (MD5END msg s).result = Md5Spec.MD5 (chunks.flatten ++ msg) := by
  obtain ⟨eight, value⟩ := UPDLEN_spec h.len (show 8 * msg.length < 65536 by omega)
  have length : (chunks.flatten ++ msg).length = 64 * chunks.length + msg.length := by
    rw [List.length_append, length_flatten hchunks]
  have bits : num (UPDLEN (8 * msg.length) s.md5len) = 8 * (chunks.flatten ++ msg).length % 256 ^ 8 := by
    rw [value, h.count, length]
    omega
  have tail : Md5Spec.tail (chunks.flatten ++ msg).length
      = 0x80 :: (List.replicate ((119 - msg.length % 64) % 64) 0 ++ UPDLEN (8 * msg.length) s.md5len) := by
    rw [Md5Spec.tail, ← eq_bytes eight bits, length, Nat.mul_add_mod]
  have sum := MD5END_sum short h.pad rfl eight (congrArg (msg ++ ·) tail)
  have count : (chunks.flatten ++ (msg ++ Md5Spec.tail (chunks.flatten ++ msg).length)).length / 64
      = chunks.length + (msg ++ Md5Spec.tail (chunks.flatten ++ msg).length).length / 64 := by
    rw [List.length_append, length_flatten hchunks, Nat.mul_add_div (by decide)]
  rw [result_eq, sum, h.sum, Md5Spec.MD5, List.append_assoc, count, Md5Spec.blocks_flatten _ hchunks, Md5Spec.absorb_append]

/-- In whatever chunks of 64 bytes a message comes, the result is its digest. -/
theorem md5_eq {chunks : List (List Byte)} {msg : List Byte} (hchunks : ∀ w ∈ chunks, w.length = 64)
    (short : msg.length < 64) (hpad : s.md5pad.length = 64) : md5 chunks msg s = Md5Spec.MD5 (chunks.flatten ++ msg) :=
  ((after_init hpad).all chunks).result hchunks short

theorem md5_abc : md5 [] [0x61, 0x62, 0x63] ⟨h0, h0, h0, h0, h0, h0, h0, h0, h0, h0, List.replicate 64 0, []⟩
    = Md5Spec.MD5 ([].flatten ++ [0x61, 0x62, 0x63]) :=
  md5_eq (fun _ hw => absurd hw List.not_mem_nil) (by decide) List.length_replicate

/-! ### A file -/

/-- The loop of `MD5BLK` takes all chunks. -/
theorem mblk1_eq {l : List Byte} (hn : l.length / 64 = n) (s : Vars) :
    mblk1 n l s = ((Md5Spec.blocks n l).foldl (fun s w => MD5UPD w s) s, l.drop (64 * n)) := by
  induction n generalizing l s with
  | zero => rfl
  | succ n ih =>
    have long : ¬ l.length < 64 := by omega
    have rest : (l.drop 64).length / 64 = n := by
      rw [List.length_drop]
      omega
    have place : 64 * (n + 1) = 64 + 64 * n := by omega
    rw [mblk1, if_neg long, ih rest, List.drop_drop, place, Md5Spec.blocks, List.foldl_cons]

/-- A full block. -/
theorem After.block {chunks : List (List Byte)} {buf : List Byte} (h : After chunks s) (full : buf.length = 512) :
    After (chunks ++ Md5Spec.blocks 8 buf) (MD5BLK buf s).1 ∧ (MD5BLK buf s).2 = false := by
  have eight : buf.length / 64 = 8 := by omega
  rw [MD5BLK, eight, mblk1_eq eight, if_pos full]
  exact ⟨h.all _, rfl⟩

/-- The block at the end. -/
theorem After.last {chunks : List (List Byte)} {buf : List Byte} (h : After chunks s)
    (hchunks : ∀ w ∈ chunks, w.length = 64) (less : buf.length < 512) :
    (MD5BLK buf s).1.result = Md5Spec.MD5 (chunks.flatten ++ buf) ∧ (MD5BLK buf s).2 = true := by
  have blocks : ∀ w ∈ Md5Spec.blocks (buf.length / 64) buf, w.length = 64 := Md5Spec.length_blocks (by omega)
  have both : ∀ w ∈ chunks ++ Md5Spec.blocks (buf.length / 64) buf, w.length = 64 :=
    List.forall_mem_append.mpr ⟨hchunks, blocks⟩
  have short : (buf.drop (64 * (buf.length / 64))).length < 64 := by
    rw [List.length_drop]
    omega
  have result := (h.all (Md5Spec.blocks (buf.length / 64) buf)).result both short
  rw [List.flatten_append, List.append_assoc, Md5Spec.flatten_blocks] at result
  rw [MD5BLK, mblk1_eq rfl, if_neg (Nat.ne_of_lt less)]
  exact ⟨result, rfl⟩

/-- The loop over the blocks of a file. -/
theorem pr2_eq {A : List Byte} {chunks : List (List Byte)} {blkno : ℕ} (h : After chunks s)
    (hchunks : ∀ w ∈ chunks, w.length = 64) (read : chunks.flatten = A.take (512 * blkno))
    (le : 512 * blkno ≤ A.length) (size : A.length / 512 + 1 < 2 ^ 24) (hn : A.length / 512 + 2 ≤ n + blkno) :
    pr2 A n blkno false s = some (Md5Spec.MD5 A) := by
  induction n generalizing blkno chunks s with
  | zero => omega
  | succ n ih =>
    have next : (blkno + 1) % 2 ^ 24 = blkno + 1 := Nat.mod_eq_of_lt (by omega)
    have whole : chunks.flatten ++ A.drop (512 * blkno) = A := by rw [read, List.take_append_drop]
    have length : (A.drop (512 * blkno)).length = A.length - 512 * blkno := List.length_drop
    rw [pr2]
    split
    · next nil =>
      have none : A.drop (512 * blkno) = [] := by
        rcases List.take_eq_nil_iff.mp nil with zero | none
        · exact absurd zero (by decide)
        · exact none
      rw [none, List.append_nil] at whole
      have last := (h.last hchunks (show ([] : List Byte).length < 512 by decide)).1
      rw [List.append_nil, whole] at last
      rw [if_neg Bool.false_ne_true, last]
    · next b buf some =>
      have taken : (b :: buf).length = min 512 (A.length - 512 * blkno) := by rw [← some, List.length_take, length]
      have pos : 0 < (b :: buf).length := Nat.zero_lt_succ _
      rw [next]
      rcases Nat.lt_or_ge (A.length - 512 * blkno) 512 with less | more
      · have rest : b :: buf = A.drop (512 * blkno) := by
          rw [← some, List.take_of_length_le (by omega)]
        obtain ⟨result, eof⟩ := h.last hchunks (show (b :: buf).length < 512 by omega)
        rw [rest, whole] at result
        obtain ⟨n, rfl⟩ : ∃ m, n = m + 1 := ⟨n - 1, by omega⟩
        have none : (A.drop (512 * (blkno + 1))).take 512 = [] := by
          rw [List.drop_eq_nil_of_le (by omega), List.take_nil]
        dsimp only
        rw [eof, pr2, none, rest]
        exact congrArg Option.some result
      · have full : (b :: buf).length = 512 := by omega
        have blocks : ∀ w ∈ Md5Spec.blocks 8 (b :: buf), w.length = 64 := Md5Spec.length_blocks (by omega)
        obtain ⟨after, eof⟩ := h.block full
        have flat : (chunks ++ Md5Spec.blocks 8 (b :: buf)).flatten = A.take (512 * (blkno + 1)) := by
          have parts := Md5Spec.flatten_blocks 8 (b :: buf)
          rw [List.drop_eq_nil_of_le (by omega), List.append_nil] at parts
          rw [List.flatten_append, parts, read, ← some, Nat.mul_add, List.take_add]
        dsimp only
        rw [eof]
        exact ih after (List.forall_mem_append.mpr ⟨hchunks, blocks⟩) flat (by omega) (by omega)

/-- The command returns the digest of the file, whatever its length is. -/
theorem PROCESS_eq {A : List Byte} (size : A.length / 512 + 1 < 2 ^ 24) (hn : A.length / 512 + 2 ≤ n)
    (hpad : s.md5pad.length = 64) : PROCESS n A s = some (Md5Spec.MD5 A) :=
  pr2_eq (after_init hpad) (fun _ hw => absurd hw List.not_mem_nil) rfl (Nat.zero_le _) size hn

theorem PROCESS_abc : PROCESS 2 [0x61, 0x62, 0x63]
    ⟨h0, h0, h0, h0, h0, h0, h0, h0, h0, h0, List.replicate 64 0, []⟩ = some (Md5Spec.MD5 [0x61, 0x62, 0x63]) :=
  PROCESS_eq (by decide) (by decide) List.length_replicate

end RSX280.Md5
