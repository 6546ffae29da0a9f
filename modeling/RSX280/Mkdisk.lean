import RSX280.Sector
import Mathlib.Data.Nat.Bitwise

/-!
# New volumes

`create_disk` writes the image of an empty volume, one block after the other: the boot block, the
volume id, the index file, the two bitmaps and the master directory. Every block is made in a work
buffer of 512 bytes.
-/

namespace RSX280.Mkdisk

open Sector

/-! ### Where the files are -/

/-- What the caller admits. -/
def admits (nblocks nfiles : ℕ) : Bool :=
  !(nblocks < 128 || 4194304 < nblocks || nfiles < 32 || 65536 < nfiles || nblocks / 2 < nfiles)

/-- The cluster factor -/
def clfactor (nblocks : ℕ) : ℕ :=
  if nblocks ≤ 131072 then 0 else if nblocks ≤ 524288 then 1 else if nblocks ≤ 2097152 then 2 else 3

/-- `CLUSTER_ROUND` -/
def clusterRound (clsize blk : ℕ) : ℕ := (blk + clsize - 1) / clsize * clsize

/-- The variables that say where the files are and how large they are. -/
structure Layout where
  clfactor : ℕ
  clsize : ℕ
  nclusters : ℕ
  nblocks : ℕ
  ixblocks : ℕ
  bmblocks : ℕ
  ixbmsize : ℕ
  ixbmblocks : ℕ
  ixstblk : ℕ
  bmstblk : ℕ
  mdstblk : ℕ

/-- `BMHDRSZ` -/
def bmhdrsz : ℕ := 16

def layout (nblocks nfiles : ℕ) : Layout :=
  let clfactor := clfactor nblocks
  let clsize := 2 ^ clfactor
  let nclusters := nblocks / clsize
  let nblocks := nclusters * clsize
  let ixblocks := (nfiles + 7) / 8
  let bmsize := (nclusters + 7) / 8 + bmhdrsz
  let bmblocks := (bmsize + 511) / 512
  let ixbmsize := (nfiles + 7) / 8 + bmhdrsz
  let ixbmblocks := (ixbmsize + 511) / 512
  let ixstblk := clusterRound clsize 2
  let bmstblk := clusterRound clsize (ixstblk + ixblocks)
  let mdstblk := clusterRound clsize (bmstblk + bmblocks + ixbmblocks)
  { clfactor, clsize, nclusters, nblocks, ixblocks, bmblocks, ixbmsize, ixbmblocks, ixstblk,
    bmstblk, mdstblk }

/-! ### Index file entries -/

def faDir : ℕ := 0x80
def faFile : ℕ := 0x01
def faCtg : ℕ := 0x08

/-- `set_inode`; the cluster factor in it is the one of the volume that was mounted last. -/
def setInode (clf : ℕ) (b : Buf) (e lnkcnt attrib group user nalloc nused lbcount perm : ℕ) :
    Option Buf := do
  let b ← set16 b e lnkcnt
  let b ← put b (e + 2) [attrib]
  let b ← put b (e + 3) [clf]
  let b ← set16 b (e + 4) (get16 b (e + 4) + 1)
  let b ← put b (e + 6) [user]
  let b ← put b (e + 7) [group]
  let b ← set24 b (e + 8) nalloc
  let b ← set24 b (e + 11) nused
  let b ← set16 b (e + 14) lbcount
  set16 b (e + 30) perm

/-- `set_date`: seven bytes -/
def setDate (now : ℕ → ℕ) (b : Buf) (i : ℕ) : Option Buf := put b i ((List.range 7).map now)

def setCdate (now : ℕ → ℕ) (b : Buf) (e : ℕ) : Option Buf := setDate now b (e + 16)

def setMdate (now : ℕ → ℕ) (b : Buf) (e : ℕ) : Option Buf := setDate now b (e + 23)

/-- `set_name` -/
def setName (b : Buf) (e : ℕ) (fname ext : String) (vers : ℕ) : Option Buf := do
  let b ← put b (e + 50) (padded 9 fname)
  let b ← put b (e + 59) (padded 3 ext)
  put b (e + 62) [vers % 256, vers / 256 % 256]

/-- `set_dir_entry` -/
def setDirEntry (b : Buf) (e inode : ℕ) (fname ext : String) (vers : ℕ) : Option Buf := do
  let b ← set16 b e inode
  let b ← put b (e + 2) (padded 9 fname)
  let b ← put b (e + 11) (padded 3 ext)
  set16 b (e + 14) vers

/-- The entry of one system file. Some of them have block numbers; these are written before the dates
or behind them, which makes no difference. -/
def sysInode (clf : ℕ) (now : ℕ → ℕ) (b : Buf) (e attrib nblks lbcount perm : ℕ)
    (start : Option ℕ) (fname ext : String) : Option Buf := do
  let b ← setInode clf b e 1 attrib 1 1 nblks nblks lbcount perm
  let b ← match start with
    | some blkno => set24 b (e + 32) blkno
    | none => some b
  let b ← setCdate now b e
  let b ← setMdate now b e
  setName b e fname ext 1

/-- The first block of the index file -/
def indexBlock (clf : ℕ) (now : ℕ → ℕ) (l : Layout) : Option Buf := do
  let b ← sysInode clf now zero 0 (faFile ||| faCtg) l.ixblocks 512 0xCCC8 (some l.ixstblk) "INDEXF" "SYS"
  let b ← sysInode clf now b 64 (faFile ||| faCtg) (l.bmblocks + l.ixbmblocks) (l.ixbmsize % 512) 0xCCC8
    (some l.bmstblk) "BITMAP" "SYS"
  let b ← sysInode clf now b 128 faFile 0 0 0xCCC8 none "BADBLK" "SYS"
  let b ← sysInode clf now b 192 (faFile ||| faCtg) 2 512 0xCCC8 (some 0) "BOOT" "SYS"
  let b ← sysInode clf now b 256 faDir 2 512 0xCCC8 (some l.mdstblk) "MASTER" "DIR"
  let b ← if l.clfactor = 0 then set24 b (256 + 35) (l.mdstblk + 1) else some b
  let b ← sysInode clf now b 320 (faFile ||| faCtg) 0 0 0xDDD8 none "CORIMG" "SYS"
  sysInode clf now b 384 (faFile ||| faCtg) 0 0 0xDDD8 none "SYSTEM" "SYS"

/-! ### Bitmaps -/

/-- The inner loop: `n` bits are to be set, from byte `j` on; `bmask` has those of the current byte
and `mask` the next one. It ends with the buffer, or when no bits are left. -/
def mark : ℕ → ℕ → ℕ → ℕ → Buf → Option (Buf × ℕ × ℕ × ℕ × ℕ)
  | 0, j, bmask, mask, b => some (b, 0, j, bmask, mask)
  | n + 1, j, bmask, mask, b =>
    if j < 512 then
      let bmask := bmask ||| mask
      let mask := mask / 2
      if mask = 0 then do
        let b ← put b j [bmask]
        mark n (j + 1) 0x00 0x80 b
      else mark n j bmask mask b
    else some (b, n + 1, j, bmask, mask)

/-- The bits of one block, and how many are left. -/
def markBlock (n j : ℕ) (b : Buf) : Option (Buf × ℕ) := do
  let (b, n, j, bmask, mask) ← mark n j 0x00 0x80 b
  let b ← if mask ≠ 0 then put b j [bmask] else some b
  some (b, n)

/-- The `k` blocks of a bitmap from block `i` on; block 0 has a header. -/
def bitmap (head : Buf → Option Buf) : ℕ → ℕ → ℕ → Option (List Buf)
  | 0, _, _ => some []
  | k + 1, i, n => do
    let b ← if i = 0 then head zero else some zero
    let j := if i = 0 then 16 else 0
    let (b, n) ← if 0 < n then markBlock n j b else some (b, n)
    let bs ← bitmap head k (i + 1) n
    some (b :: bs)

/-- The header of the storage bitmap -/
def storageHead (l : Layout) (b : Buf) : Option Buf := do
  let b ← set24 b 0 l.nblocks
  let b ← set24 b 8 l.bmblocks
  put b 4 [l.clfactor]

/-- The header of the index file bitmap -/
def indexHead (nfiles : ℕ) (b : Buf) : Option Buf := set24 b 0 nfiles

/-- The clusters of blocks 0 to `mdstblk + 1`, which are allocated to system files. -/
def sysClusters (l : Layout) : ℕ :=
  let nclusters := (l.mdstblk + 1 + 1) >>> l.clfactor
  if (l.mdstblk + 1 + 1) % l.clsize ≠ 0 then nclusters + 1 else nclusters

/-! ### The image -/

/-- The volume id -/
def volumeId (now : ℕ → ℕ) (l : Layout) : Option Buf := do
  let b ← put zero 0 ("VOL180".toList.map Char.toNat)
  let b ← put b 8 [0]
  let b ← put b 9 [5]
  let b ← put b 16 ("RSX180 DISK".toList.map Char.toNat ++ [0])
  let b ← set24 b 32 l.nblocks
  let b ← set16 b 36 0xFFF8
  let b ← setDate now b 40
  let b ← put b 48 [l.clfactor]
  let b ← set24 b 64 l.ixstblk
  let b ← set24 b 68 l.bmstblk
  set24 b 72 0

/-- The first block of the master directory -/
def directory : Option Buf := do
  let b ← setDirEntry zero 0 1 "INDEXF" "SYS" 1
  let b ← setDirEntry b 16 2 "BITMAP" "SYS" 1
  let b ← setDirEntry b 32 3 "BADBLK" "SYS" 1
  let b ← setDirEntry b 48 4 "BOOT" "SYS" 1
  let b ← setDirEntry b 64 5 "MASTER" "DIR" 1
  let b ← setDirEntry b 80 6 "CORIMG" "SYS" 1
  setDirEntry b 96 7 "SYSTEM" "SYS" 1

/-- The blocks that are written for the system files, or none when a byte is written behind the work
buffer. -/
def systemBlocks (clf : ℕ) (now : ℕ → ℕ) (l : Layout) (nfiles : ℕ) : Option (List Buf) := do
  let id ← volumeId now l
  let ix ← indexBlock clf now l
  let bm ← bitmap (storageHead l) l.bmblocks 0 (sysClusters l)
  let ixbm ← bitmap (indexHead nfiles) l.ixbmblocks 0 7
  let md ← directory
  some ([zero, id] ++ List.replicate (l.ixstblk - 2) zero
    ++ (ix :: List.replicate (l.ixblocks - 1) zero)
    ++ List.replicate (l.bmstblk - (l.ixstblk + l.ixblocks)) zero
    ++ bm ++ ixbm
    -- the buffer still has the last block of the bitmap
    ++ List.replicate (l.mdstblk - (l.bmstblk + l.bmblocks + l.ixbmblocks)) (ixbm.getLastD zero)
    ++ [md, zero])

inductive Fault
  | refused
  | outside
  deriving DecidableEq

/-- `create_disk`: the blocks of the image. The loop that fills it counts down, in a number without a
sign. -/
def createDisk (clf : ℕ) (now : ℕ → ℕ) (nblocks nfiles : ℕ) : Except Fault (List Buf) :=
  if !admits nblocks nfiles then .error .refused
  else
    let l := layout nblocks nfiles
    match systemBlocks clf now l nfiles with
    | none => .error .outside
    | some img =>
      let blkcnt := (2 ^ 64 + l.nblocks - img.length) % 2 ^ 64
      .ok (img ++ List.replicate blkcnt fun _ => 0xE5)

end RSX280.Mkdisk
