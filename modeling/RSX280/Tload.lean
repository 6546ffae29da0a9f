import Mathlib.Data.List.Range
import Mathlib.Tactic.Ring

/-!
# Loading a task

`TLOAD` of the loader reads the image of a task from the disk and copies it, 256 bytes at a time, to the
partition of the task. How many records these are follows from the addresses in the header, the blocks of
the file and the pages of the partition (`TLOAD_right_iff`).
-/

namespace RSX280.Tload

/-- What is taken from the TCB and its PCB: the first block of the image and their number, the load
address, and the pages of the partition. There are 4096 pages of memory. -/
structure Tcb where
  SBLK : ℕ
  NBLK : ℕ
  STRT : ℕ
  BASE : ℕ
  SIZE : ℕ
  sblk : SBLK < 2 ^ 32
  nblk : NBLK < 65536
  strt : STRT < 65536
  size : SIZE ≤ 4096

/-- What the load device has in its blocks, if they can be read, whether the task has a context block, and
whether `$LDGO` starts the task. -/
structure World where
  disk : ℕ → Option (List UInt8)
  CTX : Bool
  LDGO : Bool

/-- One call of `$MCOPY`: the physical address of the destination and the bytes. -/
structure Copy where
  dst : ℕ
  data : List UInt8

/-- The abort codes. -/
inductive Tktn
  | LDR
  | ITH
  | MEM
  | RUN

/-- How it ends, and what was copied. -/
inductive Result
  | started (copies : List Copy)
  | aborted (e : Tktn) (copies : List Copy)

def Result.copies : Result → List Copy
  | started copies => copies
  | aborted _ copies => copies

/-- A word of the header. -/
def word (hdr : List UInt8) (i : ℕ) : ℕ := (hdr.getD i 0).toNat + 256 * (hdr.getD (i + 1) 0).toNat

/-- `TH.STRT` -/
def STRT (hdr : List UInt8) : ℕ := word hdr 0x28

/-- `TH.END` -/
def END (hdr : List UInt8) : ℕ := word hdr 0x2A

/-- `CHKHDR`: `TSK180`, version 1.2 -/
def CHKHDR (hdr : List UInt8) : Bool := hdr.take 6 == [84, 83, 75, 49, 56, 48] && word hdr 8 == 0x0102

/-- `add hl,hl` -/
def twice (hl : ℕ) : ℕ := 2 * hl % 65536

/-- The flags Z and C behind `or`. -/
def or_flags (a l : ℕ) : Bool × Bool := (a ||| l == 0, false)

/-- The code size in records, without the carry of the difference. -/
def records (hdr : List UInt8) : ℕ := ((END hdr + 65536 - STRT hdr) % 65536 + 255) / 256

/-- Up to `ld1`: not more records than the file has behind the header. -/
def ld1 (NBLK de : ℕ) : ℕ :=
  if 65536 ≤ 2 * NBLK then de
  else
    let hl := (2 * NBLK + 65535) % 65536
    if hl < de then hl else de

/-- Up to `ld4`: not more than the partition has. -/
def ld4 (SIZE de : ℕ) : ℕ :=
  let hl := twice (twice (twice SIZE))
  if 65536 ≤ 2 * hl then de else if twice hl < de then twice hl else de

/-- `$MCOPY` of the 256 bytes at `hl` in `IOBUF`, to `de` in the partition. -/
def MCOPY (t : Tcb) (IOBUF : List UInt8) (hl de : ℕ) : Copy where
  dst := 4096 * t.BASE + de
  data := (IOBUF.drop hl).take 256

/-- `DE` behind a copy. -/
def past (de : ℕ) : ℕ := (de + 256) % 65536

def NXTBL (blk : ℕ) : ℕ := (blk + 1) % 2 ^ 32

/-- `ldend`, with `INILUN` -/
def ldend (w : World) (out : List Copy) : Result :=
  if w.CTX then if w.LDGO then .started out else .aborted .RUN out else .aborted .MEM out

/-- The loop `load`, with `BC` records to go. -/
def load (w : World) (t : Tcb) : ℕ → ℕ → ℕ → List Copy → Result
  | 0, _, _, out => ldend w out
  | 1, blk, de, out =>
    match w.disk (NXTBL blk) with
    | none => .aborted .LDR out
    | some IOBUF => ldend w (out ++ [MCOPY t IOBUF 0 de])
  | bc + 2, blk, de, out =>
    match w.disk (NXTBL blk) with
    | none => .aborted .LDR out
    | some IOBUF =>
      load w t bc (NXTBL blk) (past (past de)) (out ++ [MCOPY t IOBUF 0 de, MCOPY t IOBUF 256 (past de)])

/-- `TLOAD`, from `iload` -/
def TLOAD (w : World) (t : Tcb) : Result :=
  match w.disk t.SBLK with
  | none => .aborted .LDR []
  | some IOBUF =>
    let hdr := IOBUF.take 256
    if CHKHDR hdr then
      let de := records hdr
      -- "task size can't be zero", but it is the flag C that is looked at
      if (or_flags (de / 256) (de % 256)).2 then .aborted .ITH []
      else
        let bc := ld4 t.SIZE (ld1 t.NBLK de)
        load w t ((bc + 65535) % 65536) t.SBLK (past t.STRT) [MCOPY t IOBUF 256 t.STRT]
    else .aborted .ITH []

/-! ### What should be loaded -/

/-- The records from `TH.STRT` to `TH.END`, as far as they are in the file and in the partition. -/
def wanted (t : Tcb) (hdr : List UInt8) : ℕ :=
  min ((END hdr + 1 - STRT hdr + 255) / 256) (min (2 * t.NBLK - 1) (16 * t.SIZE))

/-- Record `k` of the file. -/
def World.record (w : World) (t : Tcb) (k : ℕ) : List UInt8 :=
  (((w.disk ((t.SBLK + k / 2) % 2 ^ 32)).getD []).drop (256 * (k % 2))).take 256

/-- A task is started with the whole image, one record behind the other from the load address, and nothing
is written outside of the partition or read behind the end of the file. -/
structure Right (w : World) (t : Tcb) (hdr : List UInt8) (r : Result) : Prop where
  image : ∀ copies, r = .started copies → STRT hdr ≤ END hdr ∧ copies =
    (List.range (wanted t hdr)).map fun k => ⟨4096 * t.BASE + (t.STRT + 256 * k), w.record t (k + 1)⟩
  inside : ∀ c ∈ r.copies, 4096 * t.BASE ≤ c.dst ∧ c.dst + 256 ≤ 4096 * (t.BASE + t.SIZE)
  read : r.copies.length ≤ 2 * t.NBLK - 1

/-- The range of addresses is not inverted; there is a file and a partition; the last byte is not alone in
its record, unless that is cut off; and all of it is in the partition, from the load address on. -/
structure Loadable (t : Tcb) (hdr : List UInt8) : Prop where
  range : STRT hdr ≤ END hdr
  file : 0 < t.NBLK
  part : 0 < t.SIZE
  last : (END hdr - STRT hdr) % 256 = 0 → min (2 * t.NBLK - 1) (16 * t.SIZE) ≤ (END hdr - STRT hdr) / 256
  room : t.STRT + 256 * wanted t hdr ≤ 4096 * t.SIZE
  wraps : t.STRT + 256 * (wanted t hdr - 1) < 65536

/-! ### The loop -/

section

variable {w : World} {t : Tcb} {hdr : List UInt8}

/-- The first `k` records are copied. -/
def placed (w : World) (t : Tcb) (k : ℕ) : List Copy :=
  (List.range k).map fun i => ⟨4096 * t.BASE + (t.STRT + 256 * i) % 65536, w.record t (i + 1)⟩

/-- Nothing fails. -/
structure World.Fine (w : World) : Prop where
  disk : ∀ b, w.disk b ≠ none
  ctx : w.CTX = true
  ldgo : w.LDGO = true

/-- The task is started with `n` records, or something fails before. -/
def Ends (w : World) (t : Tcb) (n : ℕ) (r : Result) : Prop :=
  r = .started (placed w t n) ∨ (¬w.Fine ∧ ∃ e k, k ≤ n ∧ r = .aborted e (placed w t k))

theorem placed_succ (w : World) (t : Tcb) (k : ℕ) : placed w t (k + 1)
    = placed w t k ++ [⟨4096 * t.BASE + (t.STRT + 256 * k) % 65536, w.record t (k + 1)⟩] := by
  rw [placed, List.range_succ, List.map_append]
  rfl

theorem past_eq (t : Tcb) (k : ℕ) : past ((t.STRT + 256 * k) % 65536) = (t.STRT + 256 * (k + 1)) % 65536 := by
  rw [past]
  omega

theorem ldend_ends (w : World) (t : Tcb) (n : ℕ) : Ends w t n (ldend w (placed w t n)) := by
  rw [ldend]
  split_ifs with ctx ldgo
  · exact Or.inl rfl
  · exact Or.inr ⟨fun fine => ldgo fine.ldgo, _, n, Nat.le_refl n, rfl⟩
  · exact Or.inr ⟨fun fine => ctx fine.ctx, _, n, Nat.le_refl n, rfl⟩

theorem Ends.failed {b n k : ℕ} {e : Tktn} (h : w.disk b = none) (hk : k ≤ n) :
    Ends w t n (.aborted e (placed w t k)) :=
  Or.inr ⟨fun fine => fine.disk b h, e, k, hk, rfl⟩

/-- Block `i` of the file is in the buffer, and its second record was copied as the last one. -/
theorem load_ends (w : World) (t : Tcb) (bc i : ℕ) :
    Ends w t (2 * i + 1 + bc) (load w t bc ((t.SBLK + i) % 2 ^ 32) ((t.STRT + 256 * (2 * i + 1)) % 65536)
      (placed w t (2 * i + 1))) := by
  have next (i : ℕ) : NXTBL ((t.SBLK + i) % 2 ^ 32) = (t.SBLK + (i + 1)) % 2 ^ 32 := by
    rw [NXTBL, Nat.mod_add_mod, Nat.add_assoc]
  have first {i : ℕ} {IOBUF : List UInt8} (read : w.disk ((t.SBLK + (i + 1)) % 2 ^ 32) = some IOBUF) :
      placed w t (2 * i + 1) ++ [MCOPY t IOBUF 0 ((t.STRT + 256 * (2 * i + 1)) % 65536)]
        = placed w t (2 * i + 2) := by
    have half : (2 * i + 1 + 1) / 2 = i + 1 := by omega
    have low : (2 * i + 1 + 1) % 2 = 0 := by omega
    rw [placed_succ w t (2 * i + 1), World.record, half, low, read]
    rfl
  induction bc using Nat.twoStepInduction generalizing i with
  | zero => exact ldend_ends w t (2 * i + 1)
  | one =>
    rw [load, next]
    cases read : w.disk ((t.SBLK + (i + 1)) % 2 ^ 32) with
    | none => exact Ends.failed read (Nat.le_succ _)
    | some IOBUF =>
      dsimp only
      rw [first read]
      exact ldend_ends w t (2 * i + 2)
  | more bc ih _ =>
    rw [load, next]
    cases read : w.disk ((t.SBLK + (i + 1)) % 2 ^ 32) with
    | none => exact Ends.failed read (Nat.le_add_right _ _)
    | some IOBUF =>
      have second : placed w t (2 * i + 2) ++ [MCOPY t IOBUF 256 ((t.STRT + 256 * (2 * i + 2)) % 65536)]
          = placed w t (2 * (i + 1) + 1) := by
        have half : (2 * i + 2 + 1) / 2 = i + 1 := by omega
        have high : (2 * i + 2 + 1) % 2 = 1 := by omega
        have next_one : 2 * (i + 1) + 1 = 2 * i + 2 + 1 := by ring
        rw [next_one, placed_succ w t (2 * i + 2), World.record, half, high, read]
        rfl
      have both : placed w t (2 * i + 1) ++ [MCOPY t IOBUF 0 ((t.STRT + 256 * (2 * i + 1)) % 65536),
          MCOPY t IOBUF 256 ((t.STRT + 256 * (2 * i + 2)) % 65536)] = placed w t (2 * (i + 1) + 1) := by
        rw [← second, ← first read, List.append_assoc]
        rfl
      have count : 2 * i + 1 + (bc + 2) = 2 * (i + 1) + 1 + bc := by ring
      dsimp only
      rw [past_eq, past_eq, both, count]
      exact ih (i + 1)

/-! ### The number of records -/

/-- The records that are copied: none are 65536. -/
def count (t : Tcb) (hdr : List UInt8) : ℕ := (ld4 t.SIZE (ld1 t.NBLK (records hdr)) + 65535) % 65536 + 1

theorem word_lt (hdr : List UInt8) (i : ℕ) : word hdr i < 65536 := by
  have low := (hdr.getD i 0).toNat_lt
  have high := (hdr.getD (i + 1) 0).toNat_lt
  rw [word]
  omega

/-- The limits that count when the file and the partition are not empty. -/
theorem ld4_ld1 {de : ℕ} (hf : 0 < t.NBLK) (hd : de ≤ 256) :
    ld4 t.SIZE (ld1 t.NBLK de) = min de (min (2 * t.NBLK - 1) (16 * t.SIZE)) := by
  have nblk := t.nblk
  have size := t.size
  have file : ld1 t.NBLK de = min de (2 * t.NBLK - 1) := by
    simp only [ld1]
    split_ifs <;> omega
  have pages : twice (twice (twice t.SIZE)) = 8 * t.SIZE := by
    simp only [twice]
    omega
  have few : min de (2 * t.NBLK - 1) ≤ 256 := (Nat.min_le_left _ _).trans hd
  rw [file, ld4, pages, ← Nat.min_assoc]
  generalize min de (2 * t.NBLK - 1) = n at few
  by_cases large : 65536 ≤ 2 * (8 * t.SIZE)
  · simp only [if_pos large]
    omega
  · have twice_pages : twice (8 * t.SIZE) = 16 * t.SIZE := by
      rw [twice]
      omega
    simp only [if_neg large, twice_pages]
    split <;> omega

theorem count_eq (range : STRT hdr ≤ END hdr) (file : 0 < t.NBLK) (part : 0 < t.SIZE) :
    count t hdr = wanted t hdr ↔ ((END hdr - STRT hdr) % 256 = 0 →
      min (2 * t.NBLK - 1) (16 * t.SIZE) ≤ (END hdr - STRT hdr) / 256) := by
  have small : END hdr < 65536 := word_lt hdr _
  obtain ⟨d, hd⟩ := Nat.exists_eq_add_of_le range
  have size : records hdr = (d + 255) / 256 := by
    rw [records, hd]
    omega
  have limit : 0 < min (2 * t.NBLK - 1) (16 * t.SIZE) := by omega
  have exact_size : (END hdr + 1 - STRT hdr + 255) / 256 = d / 256 + 1 := by omega
  have sub : END hdr - STRT hdr = d := by omega
  rw [count, ld4_ld1 file (by omega), wanted, size, exact_size, sub]
  generalize min (2 * t.NBLK - 1) (16 * t.SIZE) = m at limit
  omega

/-! ### The task -/

theorem TLOAD_ends {IOBUF : List UInt8} (h : w.disk t.SBLK = some IOBUF) (valid : CHKHDR (IOBUF.take 256) = true) :
    Ends w t (count t (IOBUF.take 256)) (TLOAD w t) := by
  have first : [MCOPY t IOBUF 256 t.STRT] = placed w t (2 * 0 + 1) := by
    have block : (t.SBLK + 1 / 2) % 2 ^ 32 = t.SBLK := Nat.mod_eq_of_lt t.sblk
    have address : (t.STRT + 256 * 0) % 65536 = t.STRT := Nat.mod_eq_of_lt t.strt
    rw [placed_succ, address, World.record, block, h]
    rfl
  have block : (t.SBLK + 0) % 2 ^ 32 = t.SBLK := Nat.mod_eq_of_lt t.sblk
  have ends := load_ends w t ((ld4 t.SIZE (ld1 t.NBLK (records (IOBUF.take 256))) + 65535) % 65536) 0
  rw [block, ← first, Nat.add_comm (2 * 0 + 1)] at ends
  rw [TLOAD, h]
  dsimp only
  rw [if_pos valid, if_neg (show ¬(or_flags _ _).2 = true from Bool.false_ne_true)]
  exact ends

theorem TLOAD_invalid {IOBUF : List UInt8} (h : w.disk t.SBLK = some IOBUF)
    (valid : CHKHDR (IOBUF.take 256) = false) : TLOAD w t = .aborted .ITH [] := by
  rw [TLOAD, h]
  dsimp only
  rw [if_neg (by rw [valid]; exact Bool.false_ne_true)]

theorem mem_placed {c : Copy} {k : ℕ} : c ∈ placed w t k ↔
    ∃ i < k, c = ⟨4096 * t.BASE + (t.STRT + 256 * i) % 65536, w.record t (i + 1)⟩ := by
  simp only [placed, List.mem_map, List.mem_range, eq_comm]

theorem length_placed (w : World) (t : Tcb) (k : ℕ) : (placed w t k).length = k := by
  rw [placed, List.length_map, List.length_range]

/-- With such a header, no more than what is wanted is copied. -/
theorem Loadable.right (h : Loadable t hdr) {r : Result} (ends : Ends w t (count t hdr) r) : Right w t hdr r := by
  have same : count t hdr = wanted t hdr := (count_eq h.range h.file h.part).mpr h.last
  have wraps := h.wraps
  have room := h.room
  have address {i : ℕ} (hi : i < wanted t hdr) : (t.STRT + 256 * i) % 65536 = t.STRT + 256 * i :=
    Nat.mod_eq_of_lt (by omega)
  have inside {k : ℕ} (hk : k ≤ wanted t hdr) :
      ∀ c ∈ placed w t k, 4096 * t.BASE ≤ c.dst ∧ c.dst + 256 ≤ 4096 * (t.BASE + t.SIZE) := by
    intro c hc
    obtain ⟨i, hi, rfl⟩ := mem_placed.mp hc
    dsimp only
    rw [address (by omega)]
    omega
  have few : wanted t hdr ≤ 2 * t.NBLK - 1 := (Nat.min_le_right _ _).trans (Nat.min_le_left _ _)
  rw [same] at ends
  rcases ends with rfl | ⟨-, e, k, hk, rfl⟩
  · refine ⟨?_, inside (Nat.le_refl _), (length_placed w t _).trans_le few⟩
    rintro copies started
    obtain rfl := Result.started.inj started
    refine ⟨h.range, List.map_congr_left fun i hi => ?_⟩
    rw [address (List.mem_range.mp hi)]
  · refine ⟨?_, inside hk, (length_placed w t k).trans_le (hk.trans few)⟩
    intro copies started
    cases started

/-- A task that is started is right only with such a header. -/
theorem Right.loadable (right : Right w t hdr (.started (placed w t (count t hdr)))) : Loadable t hdr := by
  obtain ⟨range, same⟩ := right.image _ rfl
  have some_record : 0 < count t hdr := Nat.succ_pos _
  have length : count t hdr = wanted t hdr := by
    have lengths := congrArg List.length same
    rwa [length_placed, List.length_map, List.length_range] at lengths
  have limits : wanted t hdr ≤ min (2 * t.NBLK - 1) (16 * t.SIZE) := Nat.min_le_right _ _
  have file : 0 < t.NBLK := by omega
  have part : 0 < t.SIZE := by omega
  -- the last record
  have last : wanted t hdr - 1 < wanted t hdr := by omega
  have address : (t.STRT + 256 * (wanted t hdr - 1)) % 65536 = t.STRT + 256 * (wanted t hdr - 1) := by
    rw [length, placed] at same
    have equal := List.map_inj_left.mp same _ (List.mem_range.mpr last)
    have dst := congrArg Copy.dst equal
    exact Nat.add_left_cancel dst
  have mem : (⟨4096 * t.BASE + (t.STRT + 256 * (wanted t hdr - 1)) % 65536,
      w.record t (wanted t hdr - 1 + 1)⟩ : Copy) ∈ placed w t (count t hdr) := by
    rw [length]
    exact mem_placed.mpr ⟨_, last, rfl⟩
  have all_inside := right.inside
  rw [Result.copies] at all_inside
  have inside := (all_inside _ mem).2
  dsimp only at inside
  rw [address] at inside
  refine ⟨range, file, part, (count_eq range file part).mp length, ?_, ?_⟩
  · omega
  · rw [← address]
    exact Nat.mod_lt _ (by decide)

/-- A disk with the header in block `b` and nothing else, and no errors. -/
def blank (b : ℕ) (IOBUF : List UInt8) : World where
  disk c := if c = b then some IOBUF else some []
  CTX := true
  LDGO := true

theorem blank_fine (b : ℕ) (IOBUF : List UInt8) : (blank b IOBUF).Fine where
  disk c := by
    rw [blank]
    dsimp only
    split_ifs <;> exact Option.some_ne_none _
  ctx := rfl
  ldgo := rfl

/-- A header with which all goes right. -/
theorem loadable_of_right {IOBUF : List UInt8} (valid : CHKHDR (IOBUF.take 256) = true)
    (right : ∀ w, w.disk t.SBLK = some IOBUF → Right w t (IOBUF.take 256) (TLOAD w t)) :
    Loadable t (IOBUF.take 256) := by
  have h : (blank t.SBLK IOBUF).disk t.SBLK = some IOBUF := if_pos rfl
  have started := right _ h
  rcases TLOAD_ends h valid with ends | ⟨fails, -⟩
  · rw [ends] at started
    exact started.loadable
  · exact absurd (blank_fine _ _) fails

/-- The task is loaded rightly, whatever fails, if and only if the header fits. -/
theorem TLOAD_right_iff (t : Tcb) (IOBUF : List UInt8) :
    (∀ w, w.disk t.SBLK = some IOBUF → Right w t (IOBUF.take 256) (TLOAD w t)) ↔
      (CHKHDR (IOBUF.take 256) = true → Loadable t (IOBUF.take 256)) := by
  constructor
  · exact fun right valid => loadable_of_right valid right
  · intro loadable w h
    cases valid : CHKHDR (IOBUF.take 256) with
    | true => exact (loadable valid).right (TLOAD_ends h valid)
    | false =>
      rw [TLOAD_invalid h valid]
      exact ⟨fun copies started => (by cases started), fun c hc => (by cases hc), Nat.zero_le _⟩

end

/-- An image of one byte, with its header in block 0. -/
def byteHeader : List UInt8 := [84, 83, 75, 49, 56, 48, 0, 0, 2, 1] ++ List.replicate 246 0

/-- A task of one page. -/
def byteTask : Tcb :=
  { SBLK := 0, NBLK := 2, STRT := 0, BASE := 16, SIZE := 1, sblk := by decide, nblk := by decide,
    strt := by decide, size := by decide }

/-- One byte more than no records is 65536 records. -/
theorem byte_loads_all : ¬∀ (t : Tcb) (IOBUF : List UInt8) (w : World), w.disk t.SBLK = some IOBUF →
    Right w t (IOBUF.take 256) (TLOAD w t) := by
  intro h
  have loadable : Loadable byteTask (byteHeader.take 256) := loadable_of_right rfl (h byteTask byteHeader)
  exact absurd (loadable.last rfl) (by decide)

end RSX280.Tload
