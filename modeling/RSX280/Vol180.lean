import RSX280.Clusters
import Mathlib.Data.List.Dedup

/-!
# Clusters in vol180

vol180 works on the image of a volume through a few buffers. `alloc_cluster` and `alloc_clusters` search
its storage bitmap bit by bit, as `SYSFCP` does, and `free_cluster` clears a bit. The number of a block is
returned, and zero is a failure.
-/

namespace RSX280.Vol180

open Bitmap (Blocks bmhsz)

/-- What is known of the volume: `nblocks`, which is a number of three bytes, `bmblock` and `clfactor`. The
bitmap is on the volume, and so is what follows it. -/
structure Vol where
  nblocks : ℕ
  bmblock : ℕ
  clfactor : ℕ
  size : nblocks < 16777216
  inside : bmblock + Bitmap.vb (nblocks >>> clfactor) < nblocks

def Vol.clusters (v : Vol) : ℕ := v.nblocks >>> v.clfactor

/-- The blocks of the volume as they are in the buffers or else on the disk, and those that are held in a
buffer, as often as they are. -/
structure St where
  data : ℕ → ℕ → UInt8
  held : List ℕ

/-- `NBUFFERS` -/
def NBUFFERS : ℕ := 30

/-- `get_block`. When all buffers are held, only their blocks are there. -/
def get_block (v : Vol) (s : St) (blkno : ℕ) : Option St :=
  if v.nblocks ≤ blkno then none
  else if blkno ∈ s.held ∨ s.held.dedup.length < NBUFFERS then some { s with held := blkno :: s.held }
  else none

def release_block (s : St) (blkno : ℕ) : St := { s with held := s.held.erase blkno }

/-- `buf->data[offs] = x` -/
def St.put (s : St) (blkno offs : ℕ) (x : UInt8) : St :=
  { s with data := Function.update s.data blkno (Function.update (s.data blkno) offs x) }

/-- The loop of `alloc_cluster`, with `n` bits to go. -/
def alloc_loop (v : Vol) : ℕ → ℕ → ℕ → ℕ → UInt8 → UInt8 → St → ℕ × St
  | 0, _, _, _, _, _, s => (0, s)
  | n + 1, i, offs, bmblk, mask, bmp, s =>
    if bmp &&& mask = 0 then
      (i <<< v.clfactor, release_block (s.put bmblk offs (bmp ||| mask)) bmblk)
    else if mask >>> 1 = 0 then
      if offs + 1 = 512 then
        let s := release_block s bmblk
        match get_block v s (bmblk + 1) with
        | none => (0, s)
        | some s => alloc_loop v n (i + 1) 0 (bmblk + 1) 0x80 (s.data (bmblk + 1) 0) s
      else alloc_loop v n (i + 1) (offs + 1) bmblk 0x80 (s.data bmblk (offs + 1)) s
    else alloc_loop v n (i + 1) offs bmblk (mask >>> 1) bmp s

def alloc_cluster (v : Vol) (s : St) : ℕ × St :=
  match get_block v s v.bmblock with
  | none => (0, s)
  | some s => alloc_loop v v.nblocks 0 bmhsz v.bmblock 0x80 (s.data v.bmblock bmhsz) s

/-- The search of `alloc_clusters`, for `num` bits: the begin of the last run and its length when it stops,
or none when a block is not there. -/
def search_loop (v : Vol) (num : ℕ) : ℕ → ℕ → ℕ → ℕ → UInt8 → UInt8 → ℕ → ℕ → St → (Option (ℕ × ℕ)) × St
  | 0, _, _, bmblk, _, _, cstart, j, s => (some (cstart, j), release_block s bmblk)
  | n + 1, i, offs, bmblk, mask, bmp, cstart, j, s =>
    let cstart' := if bmp &&& mask = 0 ∧ j = 0 then i else cstart
    let j' := if bmp &&& mask = 0 then j + 1 else 0
    if bmp &&& mask = 0 ∧ j' = num then (some (cstart', j'), release_block s bmblk)
    else if mask >>> 1 = 0 then
      if offs + 1 = 512 then
        let s := release_block s bmblk
        match get_block v s (bmblk + 1) with
        | none => (none, s)
        | some s => search_loop v num n (i + 1) 0 (bmblk + 1) 0x80 (s.data (bmblk + 1) 0) cstart' j' s
      else search_loop v num n (i + 1) (offs + 1) bmblk 0x80 (s.data bmblk (offs + 1)) cstart' j' s
    else search_loop v num n (i + 1) offs bmblk (mask >>> 1) bmp cstart' j' s

/-- The loop that marks `n` bits as allocated. Does it get to its end? -/
def mark_loop (v : Vol) : ℕ → ℕ → ℕ → UInt8 → UInt8 → St → Bool × St
  | 0, offs, bmblk, mask, bmp, s =>
    (true, release_block (if mask ≠ 0x80 then s.put bmblk offs bmp else s) bmblk)
  | n + 1, offs, bmblk, mask, bmp, s =>
    let bmp := bmp ||| mask
    if mask >>> 1 = 0 then
      let s := s.put bmblk offs bmp
      if offs + 1 = 512 then
        let s := release_block s bmblk
        match get_block v s (bmblk + 1) with
        | none => (false, s)
        | some s => mark_loop v n 0 (bmblk + 1) 0x80 (s.data (bmblk + 1) 0) s
      else mark_loop v n (offs + 1) bmblk 0x80 (s.data bmblk (offs + 1)) s
    else mark_loop v n offs bmblk (mask >>> 1) bmp s

/-- The bit of a cluster: its byte, its block and its mask. The block number has 12 bits. -/
def bit_offs (clno : ℕ) : ℕ := (clno / 8 + bmhsz) % 512

def bit_blk (v : Vol) (clno : ℕ) : ℕ := v.bmblock + (clno / 8 + bmhsz) / 512 % 4096

def bit_mask (clno : ℕ) : UInt8 := UInt8.ofNat (128 >>> (clno % 8))

def alloc_clusters (v : Vol) (num : ℕ) (s : St) : ℕ × St :=
  match get_block v s v.bmblock with
  | none => (0, s)
  | some s =>
    match search_loop v num v.nblocks 0 bmhsz v.bmblock 0x80 (s.data v.bmblock bmhsz) 0 0 s with
    | (none, s) => (0, s)
    | (some (cstart, j), s) =>
      if j < num then (0, s)
      else
        match get_block v s (bit_blk v cstart) with
        | none => (0, s)
        | some s =>
          let r := mark_loop v num (bit_offs cstart) (bit_blk v cstart) (bit_mask cstart)
            (s.data (bit_blk v cstart) (bit_offs cstart)) s
          (if r.1 then cstart <<< v.clfactor else 0, r.2)

def free_cluster (v : Vol) (clno : ℕ) (s : St) : Bool × St :=
  match get_block v s (bit_blk v clno) with
  | none => (false, s)
  | some s =>
    let x := s.data (bit_blk v clno) (bit_offs clno) &&& ~~~bit_mask clno
    (true, release_block (s.put (bit_blk v clno) (bit_offs clno) x) (bit_blk v clno))

end RSX280.Vol180
