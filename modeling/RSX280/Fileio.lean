import RSX280.Bitmap

/-!
# Files of a volume (`fileio.mac`)

A file is known by its index file entry, and by the FCB of each task that has it open. Its
blocks are found by way of the block map, which has five clusters and the first of a chain of
allocation blocks, with 168 clusters each. Blocks are read and written through buffers: a block
is here what its buffer holds. Errors of the device and the dates of a file are left out.
-/

namespace RSX280.Fileio

open Bitmap (bk2cl)

/-! ## 24-bit arithmetic -/

/-- `INC24` -/
def inc24 (n : ℕ) : ℕ := (n + 1) % 16777216

/-- `DEC24` -/
def dec24 (n : ℕ) : ℕ := (n + 16777215) % 16777216

/-- `ADD24` -/
def add24 (m n : ℕ) : ℕ := (m + n) % 16777216

/-- `SUB24` -/
def sub24 (m n : ℕ) : ℕ := (m + 16777216 - n) % 16777216

/-- `CL2BK`: clusters to blocks -/
def cl2bk (clusters clf : ℕ) : ℕ := clusters <<< clf % 16777216

/-- The remainder that `BK2CL` returns -/
def rem (blocks clf : ℕ) : ℕ := blocks % 2 ^ clf

/-- `BK2CL`, and round up -/
def bk2clUp (blocks clf : ℕ) : ℕ :=
  if rem blocks clf = 0 then bk2cl blocks clf else inc24 (bk2cl blocks clf)

/-! ## Blocks -/

/-- The bytes of a block -/
abbrev Block : Type := ℕ → UInt8

namespace Block

/-- The three-byte number at an offset -/
def get (b : Block) (o : ℕ) : ℕ :=
  (b o).toNat + 256 * (b (o + 1)).toNat + 65536 * (b (o + 2)).toNat

def put (b : Block) (o n : ℕ) : Block := fun i =>
  if i = o then UInt8.ofNat n
  else if i = o + 1 then UInt8.ofNat (n / 256)
  else if i = o + 2 then UInt8.ofNat (n / 65536)
  else b i

end Block

/-! ## Files -/

/-- An index file entry -/
structure Inode where
  /-- `IE.LCNT` -/
  lcnt : ℕ
  /-- the bit `FA.CTG` of `IE.ATTR` -/
  ctg : Bool
  /-- `IE.USER` -/
  user : ℕ
  /-- `IE.GRP` -/
  grp : ℕ
  /-- `IE.PROT` -/
  prot : ℕ
  /-- `IE.ALOC` -/
  aloc : ℕ
  /-- `IE.USED` -/
  used : ℕ
  /-- `IE.LBCN` -/
  lbcn : ℕ
  /-- `IE.BMAP`, with six entries -/
  bmap : ℕ → ℕ

/-- A file control block -/
structure Fcb where
  /-- the bits `FA.RD`, `FA.WR`, `FA.CTG` and `FA.MODF` of `F.ATTR` -/
  rd : Bool
  wr : Bool
  ctg : Bool
  modf : Bool
  user : ℕ
  group : ℕ
  prot : ℕ
  inode : ℕ
  naloc : ℕ
  nused : ℕ
  lbcnt : ℕ
  bmap : ℕ → ℕ
  /-- the allocation block that was looked at last, and its number in the chain -/
  calbn : ℕ
  cavbn : ℕ

/-- A mounted volume -/
structure Volume extends Bitmap.Vcb where
  /-- the blocks by LBN, the bitmap and the index file apart -/
  disk : ℕ → Block
  /-- the index file -/
  inodes : ℕ → Inode

namespace Volume

variable (v : Volume)

/-- `ALLSGC` -/
def allsgc : Except Err ℕ × Volume :=
  (v.toVcb.allsgc.1, { v with toVcb := v.toVcb.allsgc.2 })

/-- `ALLCTG` -/
def allctg (n : ℕ) : Except Err ℕ × Volume :=
  ((v.toVcb.allctg n).1, { v with toVcb := (v.toVcb.allctg n).2 })

/-- `FREECL`, whatever it returns -/
def freecl (n : ℕ) : Volume := { v with toVcb := (v.toVcb.freecl n).2 }

/-- `FREECL` for one cluster after another -/
def freecls (l : List ℕ) : Volume := l.foldl freecl v

/-- A block is written. -/
def write (lbn : ℕ) (b : Block) : Volume := { v with disk := Function.update v.disk lbn b }

@[simp] theorem disk_write_self (lbn : ℕ) (b : Block) : (v.write lbn b).disk lbn = b :=
  Function.update_self _ _ _

theorem disk_write_of_ne {lbn m : ℕ} (h : m ≠ lbn) (b : Block) :
    (v.write lbn b).disk m = v.disk m := Function.update_of_ne h _ _

/-- `UPDINO`: write the state of an open file back to its index file entry. -/
def updino (f : Fcb) : Volume :=
  let ino := { v.inodes f.inode with
    bmap := f.bmap, aloc := f.naloc, used := f.nused, lbcn := f.lbcnt
    user := f.user, grp := f.group, prot := f.prot }
  { v with inodes := Function.update v.inodes f.inode ino }

@[simp] theorem toVcb_updino (f : Fcb) : (v.updino f).toVcb = v.toVcb := rfl

end Volume

end RSX280.Fileio
