import Mathlib.Data.Nat.Notation
import Mathlib.Logic.Function.Basic

/-!
# The system image of the virtual MCR (`vmem.mac`)

The image is a file, and some blocks of it are in buffers, the most recently used one first. A block
is a function of the offset: a byte beyond the first 512 is one behind the buffer. Transfers succeed.
-/

namespace RSX280.Vmem

/-- `NBUFS`. -/
def NBUFS : ℕ := 4

/-- The bytes from an address on. -/
abbrev Bytes : Type := ℕ → UInt8

/-- A buffer: `BLKNO`, the bits of `BFLG`, and `BUF`. -/
structure Buf where
  BLKNO : ℕ
  BITV : Bool
  BITM : Bool
  BUF : Bytes

/-- The file: `F.NUSED`, the bytes in its last block, and the blocks that were written. -/
structure File where
  nused : ℕ
  lbcnt : ℕ
  block : ℕ → Option Bytes

/-- The file, `SBLKS`, and the list of buffers from `BUFHD` on. -/
structure Sys where
  file : File
  SBLKS : ℕ
  bufs : List Buf

/-! ### Transfers -/

/-- `RDSYS`: the number of bytes read, and the buffer. Behind the end of the file it reads nothing. -/
def RDSYS (f : File) (blk : ℕ) (buf : Bytes) : ℕ × Bytes :=
  let n := if blk + 1 < f.nused then 512 else if blk + 1 = f.nused then f.lbcnt else 0
  (n, fun i => if i < n then ((f.block blk).getD fun _ => 0) i else buf i)

/-- `WRSYS` of 512 bytes. The file grows by a block behind its end. -/
def WRSYS (f : File) (blk : ℕ) (buf : Bytes) : File where
  nused := max f.nused (blk + 1)
  lbcnt := if f.nused ≤ blk + 1 then 512 else f.lbcnt
  block := Function.update f.block blk (some fun i => if i < 512 then buf i else 0)

/-- `PADBUF`: clear a buffer from the offset `n` on. -/
def PADBUF (n : ℕ) (buf : Bytes) : Bytes := fun i => if n ≤ i ∧ i < 512 then 0 else buf i

/-- `ZFILL`: write blocks of zeros until the file has the block. It clears the buffer for that. -/
def ZFILL (blk : ℕ) (f : File) (sblks : ℕ) (buf : Bytes) : File × ℕ × Bytes :=
  if blk + 1 ≤ sblks then (f, sblks, buf)
  else ZFILL blk (WRSYS f sblks (PADBUF 0 buf)) (sblks + 1) (PADBUF 0 buf)
termination_by blk + 1 - sblks

/-! ### Buffers -/

/-- `gt1`: the buffer with the block, or else the last one, and the buffers before and behind it.
Was it found? -/
def gt1 (blk : ℕ) : List Buf → Buf → List Buf → Bool × List Buf × Buf × List Buf
  | before, b, behind =>
    if b.BITV && b.BLKNO == blk then (true, before, b, behind)
    else
      match behind with
      | [] => (false, before, b, [])
      | c :: behind => gt1 blk (before ++ [b]) c behind

/-- `gt3`: assign another block to a buffer. A modified block is written back before. -/
def gt3 (s : Sys) (blk : ℕ) (b : Buf) : File × ℕ × Buf :=
  let f := if b.BITV && b.BITM then WRSYS s.file b.BLKNO b.BUF else s.file
  let (f, sblks, buf) := ZFILL blk f s.SBLKS b.BUF
  let (n, buf) := RDSYS f blk buf
  (f, sblks, ⟨blk, true, false, PADBUF n buf⟩)

/-- `SLDBLK`: load a block. Its buffer moves to the head of the list. -/
def SLDBLK (s : Sys) (blk : ℕ) : Sys :=
  match s.bufs with
  | [] => s
  | b :: bufs =>
    let (found, before, b, behind) := gt1 blk [] b bufs
    if found then { s with bufs := b :: (before ++ behind) }
    else
      let (file, SBLKS, b) := gt3 s blk b
      { file, SBLKS, bufs := b :: (before ++ behind) }

/-- `SYSCLS`: write the modified blocks back, from the head of the list on. -/
def SYSCLS (s : Sys) : File :=
  s.bufs.foldl (fun f b => if b.BITV && b.BITM then WRSYS f b.BLKNO b.BUF else f) s.file

/-- The bytes of the buffer at the head, where `SYSBUF` points. -/
def SYSBUF (s : Sys) : Bytes :=
  match s.bufs with
  | [] => fun _ => 0
  | b :: _ => b.BUF

/-- Bytes are stored into the buffer at the head, from an offset on, and it is marked as modified. -/
def store (s : Sys) (off : ℕ) (l : List UInt8) : Sys :=
  match s.bufs with
  | [] => s
  | b :: bufs =>
    { s with bufs := { b with
        BITM := true
        BUF := fun i => if off ≤ i then (l[i - off]?).getD (b.BUF i) else b.BUF i } :: bufs }

/-! ### Addresses -/

/-- `ABSADR`: four shifts of the bank in `A` and `E`, and the sum with `H`. -/
def ABSADR (e hl : ℕ) : ℕ :=
  let d := e * 16 / 256
  let a := e * 16 % 256 + hl / 256
  (d + a / 256) % 256 * 65536 + a % 256 * 256 + hl % 256

/-- `BLKADR`: the block number and the offset. -/
def BLKADR (dhl : ℕ) : ℕ × ℕ := (dhl / 65536 * 128 + dhl / 256 % 256 / 2, dhl / 256 % 2 * 256 + dhl % 256)

/-- The registers but for `A`. -/
structure Regs where
  BC : ℕ
  DE : ℕ
  HL : ℕ
  IX : ℕ
  deriving DecidableEq

/-- `inc hl`. -/
def Regs.incHL (r : Regs) : Regs := { r with HL := (r.HL + 1) % 65536 }

/-! ### Accesses -/

/-- `SGETB`, which returns the byte in `A`. `IX`, `HL`, `DE` and `BC` are kept on the stack. -/
def SGETB (s : Sys) (r : Regs) : Sys × ℕ × Regs :=
  let (blk, off) := BLKADR (ABSADR (r.DE % 256) r.HL)
  let s := SLDBLK s blk
  (s, (SYSBUF s off).toNat, r)

/-- `SPUTB` of the byte in `A`. All registers are kept on the stack. -/
def SPUTB (s : Sys) (a : ℕ) (r : Regs) : Sys × Regs :=
  let (blk, off) := BLKADR (ABSADR (r.DE % 256) r.HL)
  (store (SLDBLK s blk) off [UInt8.ofNat a], r)

/-- `SGETW`. -/
def SGETW (s : Sys) (r : Regs) : Sys × Regs :=
  let (s, a, r) := SGETB s r
  let (s, a, r) := SGETB s { r.incHL with BC := r.BC / 256 * 256 + a }
  (s, { r.incHL with BC := a * 256 + r.BC % 256 })

/-- `SPUTW`. -/
def SPUTW (s : Sys) (r : Regs) : Sys × Regs :=
  let (s, r) := SPUTB s (r.BC % 256) r
  let (s, r) := SPUTB s (r.BC / 256) r.incHL
  (s, r.incHL)

/-- The bytes that `ldir` copies; a count of zero stands for 65536. -/
def ldir (bc : ℕ) : ℕ := if bc = 0 then 65536 else bc

/-- `sg1`: the bytes of some blocks, from the offset on, one block after another. -/
def sg1 : ℕ → Sys → ℕ → ℕ → ℕ → Sys × List UInt8
  | 0, s, _, _, _ => (s, [])
  | n + 1, s, blk, off, len =>
    let s := SLDBLK s blk
    if (off + len) % 65536 ≤ 512 then (s, (List.range (ldir len)).map fun i => SYSBUF s (off + i))
    else
      let diff := 512 - off
      let l := (List.range (ldir diff)).map fun i => SYSBUF s (off + i)
      let (s, l') := sg1 n s (blk + 1) 0 (len - diff)
      (s, l ++ l')

/-- `SGETM` from the bank in `A`: the bytes that are copied to `DE`. There are no more blocks than
bytes. -/
def SGETM (s : Sys) (a : ℕ) (r : Regs) : Sys × Regs × List UInt8 :=
  if r.BC = 0 then (s, r, [])
  else
    let (blk, off) := BLKADR (ABSADR a r.HL)
    let (s, l) := sg1 r.BC s blk off r.BC
    (s, { r with HL := (r.HL + r.BC) % 65536, DE := (r.DE + l.length) % 65536, BC := 0 }, l)

/-- `sp1`: store bytes into some blocks, from the offset on, one block after another. -/
def sp1 : ℕ → Sys → ℕ → ℕ → List UInt8 → Sys
  | 0, s, _, _, _ => s
  | n + 1, s, blk, off, l =>
    let s := SLDBLK s blk
    if (off + l.length) % 65536 ≤ 512 then store s off (l.take (ldir l.length))
    else
      let diff := 512 - off
      sp1 n (store s off (l.take (ldir diff))) (blk + 1) 0 (l.drop diff)

/-- `SPUTM` to the bank in `A`; `l` are the bytes at `HL`, as many as `BC` says. -/
def SPUTM (s : Sys) (a : ℕ) (r : Regs) (l : List UInt8) : Sys × Regs :=
  if r.BC = 0 then (s, r)
  else
    let (blk, off) := BLKADR (ABSADR a r.DE)
    (sp1 r.BC s blk off l,
      { r with DE := (r.DE + r.BC) % 65536, HL := (r.HL + r.BC) % 65536, BC := 0 })

/-! ### Runs -/

/-- The calls, with the registers they are given. -/
inductive Op
  | getb (r : Regs)
  | putb (a : ℕ) (r : Regs)
  | getw (r : Regs)
  | putw (r : Regs)
  | getm (a : ℕ) (r : Regs)
  | putm (a : ℕ) (r : Regs) (l : List UInt8)

/-- What a call returns: `A` of `SGETB`, the other registers, and the bytes that are copied. -/
structure Out where
  a : Option ℕ
  regs : Regs
  bytes : List UInt8
  deriving DecidableEq

/-- One call. -/
def step (s : Sys) : Op → Sys × Out
  | .getb r => let (s, a, r) := SGETB s r; (s, ⟨some a, r, []⟩)
  | .putb a r => let (s, r) := SPUTB s a r; (s, ⟨none, r, []⟩)
  | .getw r => let (s, r) := SGETW s r; (s, ⟨none, r, []⟩)
  | .putw r => let (s, r) := SPUTW s r; (s, ⟨none, r, []⟩)
  | .getm a r => let (s, r, l) := SGETM s a r; (s, ⟨none, r, l⟩)
  | .putm a r l => let (s, r) := SPUTM s a r l; (s, ⟨none, r, []⟩)

/-- `SYSOPN`, with the buffers as `INIBUF` clears them, and the bytes that are behind a buffer. -/
def SYSOPN (f : File) (behind : Bytes) : Sys :=
  ⟨f, f.nused % 65536,
    List.replicate NBUFS ⟨0, false, false, fun i => if i < 512 then 0 else behind i⟩⟩

/-- The calls of a list, and what they return. -/
def runs : Sys → List Op → Sys × List Out
  | s, [] => (s, [])
  | s, op :: l =>
    let (s, o) := step s op
    let (s, os) := runs s l
    (s, o :: os)

end RSX280.Vmem
