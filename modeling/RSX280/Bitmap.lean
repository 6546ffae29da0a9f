import RSX280.Errors
import Mathlib.Data.Nat.Notation
import Mathlib.Data.UInt
import Mathlib.Logic.Function.Basic

/-!
# The storage bitmap (`bitmap.mac`)

The bitmap file has one bit for each cluster of the volume, from the most significant bit
of each byte down, behind a header of 16 bytes in its first block. The routines look at it
one block, one byte and one bit at a time. A block is here what its buffer holds, and the
bytes from 512 on are what follows the buffer in memory.
-/

namespace RSX280.Bitmap

/-- `BMHSZ`: the size of the header -/
def bmhsz : ℕ := 16

/-- The blocks of the bitmap file, by VBN. -/
abbrev Blocks : Type := ℕ → ℕ → UInt8

/-- `80h`, shifted right `p` times -/
def mask (p : ℕ) : UInt8 := UInt8.ofNat (128 >>> p)

/-- Set the bits of `m` in a byte. -/
def Blocks.set (bm : Blocks) (vbn hl : ℕ) (m : UInt8) : Blocks :=
  Function.update bm vbn (Function.update (bm vbn) hl (bm vbn hl ||| m))

/-- Clear them. -/
def Blocks.reset (bm : Blocks) (vbn hl : ℕ) (m : UInt8) : Blocks :=
  Function.update bm vbn (Function.update (bm vbn) hl (bm vbn hl &&& ~~~m))

/-! ## Arithmetic -/

/-- `BK2CL`: blocks to clusters -/
def bk2cl (blocks clf : ℕ) : ℕ := blocks >>> clf

/-- `BBYTES`: bits to bytes, rounded up -/
def bbytes (bits : ℕ) : ℕ := bits / 8 + if bits % 8 = 0 then 0 else 1

/-- `BITNO`: the number of a bit -/
def bitno (vbn hl p : ℕ) : ℕ := (vbn * 512 + hl - bmhsz) * 8 + p

/-- The passes of a loop that counts `DE` down to zero after each. -/
def passes (de : ℕ) : ℕ := if de = 0 then 65536 else de

/-! ## A single bit -/

/-- The first unset bit of a byte (`bma4`), from bit `p` on. -/
def bma4 (a : UInt8) : ℕ → ℕ → ℕ
  | p, 0 => p
  | p, n + 1 => if a &&& mask p = 0 then p else bma4 a (p + 1) n

/-- The first byte with an unset bit (`bma3`), of the `n` from `hl` on. -/
def bma3 (blk : ℕ → UInt8) : ℕ → ℕ → Option ℕ
  | _, 0 => none
  | hl, n + 1 => if blk hl = 0xFF then bma3 blk (hl + 1) n else some hl

/-- A free entry is found (`bma7`): it is marked, and refused if it is not within limits. -/
def bma7 (bm : Blocks) (bmbits vbn hl : ℕ) : Except Err ℕ × Blocks :=
  let p := bma4 (bm vbn hl) 0 8
  let bm := bm.set vbn hl (mask p)
  (if bitno vbn hl p < bmbits then .ok (bitno vbn hl p) else .error .dskf, bm)

/-- One block after another (`bma2`), at most `n` of them; `bmlen` bytes are left. -/
def bma2 (bm : Blocks) (bmbits : ℕ) : ℕ → ℕ → ℕ → ℕ → ℕ → Except Err ℕ × Blocks
  | 0, _, _, _, _ => (.error .dskf, bm)
  | n + 1, vbn, offset, len, bmlen =>
    match bma3 (bm vbn) offset (passes len) with
    | some hl => bma7 bm bmbits vbn hl
    | none =>
      if bmlen - len = 0 then (.error .dskf, bm)
      else bma2 bm bmbits n (vbn + 1) 0 (min (bmlen - len) 512) (bmlen - len)

/-- `BMSNGL`: allocate a single bit. -/
def bmsngl (bm : Blocks) (bmbits : ℕ) : Except Err ℕ × Blocks :=
  let bmlen := bbytes bmbits
  bma2 bm bmbits (bmlen + 1) 0 bmhsz (min bmlen (512 - bmhsz)) bmlen

/-! ## A chain of bits -/

/-- The chain being collected, in the variables of `BMCNTG`. -/
structure Chain where
  /-- no bit has been found yet -/
  first : Bool
  bitcnt : ℕ
  oldvbn : ℕ
  oldpos : ℕ
  mask : ℕ
  deriving DecidableEq, Repr

/-- A free entry is found (`bmc9`). -/
def Chain.bmc9 (c : Chain) (vbn hl p : ℕ) : Chain :=
  let c := if c.first then ⟨false, 0, vbn, hl, p⟩ else c
  { c with bitcnt := c.bitcnt + 1 }

/-- The last `n` bits of a byte, from `p` on (`bmc4`). Is the chain complete? -/
def bmc4 (nbits : ℕ) (a : UInt8) (vbn hl : ℕ) : ℕ → ℕ → Chain → Chain × Bool
  | _, 0, c => (c, false)
  | p, n + 1, c =>
    if a &&& mask p = 0 then
      let c := c.bmc9 vbn hl p
      if c.bitcnt = nbits then (c, true) else bmc4 nbits a vbn hl (p + 1) n c
    else bmc4 nbits a vbn hl (p + 1) n { c with first := true }

/-- The `n` bytes from `hl` on (`bmc3`). -/
def bmc3 (nbits : ℕ) (blk : ℕ → UInt8) (vbn : ℕ) : ℕ → ℕ → Chain → Chain × Bool
  | _, 0, c => (c, false)
  | hl, n + 1, c =>
    if blk hl = 0xFF then bmc3 nbits blk vbn (hl + 1) n { c with first := true }
    else match bmc4 nbits (blk hl) vbn hl 0 8 c with
      | (c, true) => (c, true)
      | (c, false) => bmc3 nbits blk vbn (hl + 1) n c

/-- One block after another (`bmc2`). -/
def bmc2 (bm : Blocks) (nbits : ℕ) : ℕ → ℕ → ℕ → ℕ → ℕ → Chain → Option Chain
  | 0, _, _, _, _, _ => none
  | n + 1, vbn, offset, len, bmlen, c =>
    match bmc3 nbits (bm vbn) vbn offset (passes len) c with
    | (c, true) => some c
    | (c, false) =>
      if bmlen - len = 0 then none
      else bmc2 bm nbits n (vbn + 1) 0 (min (bmlen - len) 512) (bmlen - len) c

/-- Mark `n` bits as allocated (`set3`), from bit `p` of byte `hl` on; the block has `de` bytes
from there. -/
def set3 : ℕ → ℕ → ℕ → ℕ → ℕ → Blocks → Blocks
  | 0, _, _, _, _, bm => bm
  | n + 1, vbn, hl, de, p, bm =>
    let bm := bm.set vbn hl (mask p)
    if p + 1 < 8 then set3 n vbn hl de (p + 1) bm
    else if de - 1 ≠ 0 then set3 n vbn (hl + 1) (de - 1) 0 bm
    else set3 n (vbn + 1) 0 512 0 bm

/-- `BMCNTG`: allocate a contiguous chain of bits. -/
def bmcntg (bm : Blocks) (bmbits nbits : ℕ) : Except Err ℕ × Blocks :=
  let bmlen := bbytes bmbits
  match bmc2 bm nbits (bmlen + 1) 0 bmhsz (min bmlen (512 - bmhsz)) bmlen ⟨true, 0, 0, 0, 0⟩ with
  | none => (.error .ncspc, bm)
  | some c =>
    let cstart := bitno c.oldvbn c.oldpos c.mask
    if cstart + nbits - 1 < bmbits then
      (.ok cstart, set3 nbits c.oldvbn c.oldpos (512 - c.oldpos) c.mask bm)
    else (.error .ncspc, bm)

/-! ## Freeing and counting -/

/-- `BMFREE`: free a single bit. -/
def bmfree (bm : Blocks) (bit : ℕ) : Blocks :=
  let pos := bit / 8 + bmhsz
  bm.reset (pos / 512) (pos % 512) (mask (bit % 8))

/-- Count the set bits of a byte (`bct4`), from bit `p` on. -/
def bct4 (a : UInt8) : ℕ → ℕ → ℕ
  | _, 0 => 0
  | p, n + 1 => (if a &&& mask p = 0 then 0 else 1) + bct4 a (p + 1) n

/-- The unset bits of the `n` bytes from `hl` on (`bct3`). -/
def bct3 (blk : ℕ → UInt8) : ℕ → ℕ → ℕ
  | _, 0 => 0
  | hl, n + 1 =>
    (if blk hl = 0 then 8
      else if ~~~blk hl = 0 then 0
      else bct4 (~~~blk hl) 0 8) + bct3 blk (hl + 1) n

/-- One block after another (`bct2`). -/
def bct2 (bm : Blocks) : ℕ → ℕ → ℕ → ℕ → ℕ → ℕ
  | 0, _, _, _, _ => 0
  | n + 1, vbn, offset, len, bmlen =>
    bct3 (bm vbn) offset (passes len) +
      if bmlen - len = 0 then 0
      else bct2 bm n (vbn + 1) 0 (min (bmlen - len) 512) (bmlen - len)

/-- `BMCNT`: count the unset bits. -/
def bmcnt (bm : Blocks) (bmbits : ℕ) : ℕ :=
  let bmlen := bbytes bmbits
  bct2 bm (bmlen + 1) 0 bmhsz (min bmlen (512 - bmhsz)) bmlen

/-! ## Clusters -/

/-- A mounted volume, as far as its space goes. -/
structure Vcb where
  /-- `M.BLKS`, three bytes -/
  blks : ℕ
  /-- `M.CLF` -/
  clf : ℕ
  /-- `M.FREE`, three bytes -/
  free : ℕ
  /-- the bitmap file at `M.BMLBN` -/
  bm : Blocks

namespace Vcb

variable (v : Vcb)

/-- The number of clusters, which is the number of bits. -/
def clusters : ℕ := bk2cl v.blks v.clf

/-- `ALLSGC`: allocate a single cluster. -/
def allsgc : Except Err ℕ × Vcb :=
  match bmsngl v.bm v.clusters with
  | (.ok n, bm) => (.ok n, { v with free := (v.free + 16777215) % 16777216, bm })
  | (.error e, bm) => (.error e, { v with bm })

/-- `ALLCTG`: allocate `n` clusters that follow each other. -/
def allctg (n : ℕ) : Except Err ℕ × Vcb :=
  if n = 1 then v.allsgc
  else match bmcntg v.bm v.clusters n with
    | (.ok s, bm) => (.ok s, { v with free := (v.free + 16777216 - n) % 16777216, bm })
    | (.error e, bm) => (.error e, { v with bm })

/-- `FREECL`: free a cluster. -/
def freecl (n : ℕ) : Except Err Unit × Vcb :=
  if n < v.clusters then
    (.ok (), { v with free := (v.free + 1) % 16777216, bm := bmfree v.bm n })
  else (.error .badop, v)

/-- `FRECNT`: count the free clusters. -/
def frecnt : Vcb := { v with free := bmcnt v.bm v.clusters % 16777216 }

end Vcb

end RSX280.Bitmap
