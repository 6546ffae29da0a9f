import RSX280.Fileio

/-!
# Blocks of a file (`V2LBN` to `NEWALC` of `fileio.mac`)

The LBN of a cluster is in the block map for the first five clusters, and in the chain of
allocation blocks for the others. The allocation block that was looked at last is remembered in
the FCB, and the chain is followed from there, either way.
-/

namespace RSX280.Fileio

open Bitmap (bk2cl)

/-! ## `FNDALC` -/

/-- What `FNDALC` returns when it does not find the allocation block: an error, and with `E.EOF`
the number of blocks that are missing -/
structure Miss where
  err : Err
  de : ℕ

namespace Fcb

/-- Follow the chain backwards (`prev`). -/
def prev (disk : ℕ → Block) (f : Fcb) : ℕ → Except Miss Unit × Fcb
  | 0 => (.ok (), f)
  | de + 1 =>
    let link := (disk f.calbn).get 0
    if link = 0 then (.error ⟨.eof, de + 1⟩, f)
    else prev disk { f with calbn := link, cavbn := f.cavbn - 1 } de

/-- Follow the chain forwards (`nxt1`). -/
def nxt1 (disk : ℕ → Block) (f : Fcb) : ℕ → Except Miss Unit × Fcb
  | 0 => (.ok (), f)
  | de + 1 =>
    let link := (disk f.calbn).get 3
    if link = 0 then (.error ⟨.eof, de + 1⟩, f)
    else nxt1 disk { f with calbn := link, cavbn := f.cavbn + 1 } de

/-- Follow the chain from the first block on (`start`). -/
def start (disk : ℕ → Block) (f : Fcb) (avbn : ℕ) : Except Miss Unit × Fcb :=
  let f := { f with cavbn := 0, calbn := f.bmap 5 }
  if f.calbn = 0 then (.error ⟨.eof, avbn + 1⟩, f) else nxt1 disk f avbn

/-- The number of an allocation block, counted from zero -/
def avbn (vcn : ℕ) : ℕ := (vcn - 5) / 168

/-- `blkptr`: where the entry of a cluster is in its allocation block -/
def blkptr (vcn : ℕ) : ℕ := ((vcn - 5) % 168 + 2) * 3

/-- `FNDALC`: find the allocation block of a cluster from the fifth one on. -/
def fndalc (disk : ℕ → Block) (f : Fcb) (vcn : ℕ) : Except Miss Unit × Fcb :=
  let n := avbn vcn
  if 65536 ≤ n then (.error ⟨.badop, 0⟩, f)
  else if f.cavbn = 0 then f.start disk n
  else if n = f.cavbn then (.ok (), f)
  else if f.cavbn < n then f.nxt1 disk (n - f.cavbn)
  else if n < f.cavbn - n then f.start disk n
  else f.prev disk (f.cavbn - n)

/-! ## `V2LBN1` -/

/-- The LBN of the cluster; zero if it is not allocated -/
def cluster (disk : ℕ → Block) (f : Fcb) (vcn : ℕ) : ℕ :=
  if vcn < 5 then f.bmap vcn else (disk f.calbn).get (blkptr vcn)

/-- Find the allocation block, where there is one. -/
def find (disk : ℕ → Block) (f : Fcb) (vcn : ℕ) : Except Miss Unit × Fcb :=
  if vcn < 5 then (.ok (), f) else f.fndalc disk vcn

/-- `V2LBN1`: the LBN of a block of the file -/
def v2lbn1 (v : Volume) (f : Fcb) (vbn : ℕ) : Except Err ℕ × Fcb :=
  if f.ctg then (.ok (add24 (f.bmap 0) vbn), f)
  else
    let vcn := bk2cl vbn v.clf
    match f.find v.disk vcn with
    | (.error e, f) => (.error e.err, f)
    | (.ok _, f) =>
      let lbn := f.cluster v.disk vcn
      if lbn = 0 then (.error .una, f) else (.ok (add24 lbn (rem vbn v.clf)), f)

/-! ## `EXTALC` -/

/-- `NEWALC`: the LBN of a new allocation block. A cluster has room for several of them. -/
def newalc (v : Volume) (f : Fcb) : Except Err ℕ × Volume :=
  if v.clf = 0 ∨ f.calbn = 0 ∨ rem f.calbn v.clf = 2 ^ v.clf - 1 then
    match v.allsgc with
    | (.ok n, v) => (.ok (cl2bk n v.clf), v)
    | (.error e, v) => (.error e, v)
  else (.ok (inc24 f.calbn), v)

/-- Add an allocation block at the end of the chain (`new2`, `new3`). Only the lower byte of
`F.CAVBN` is counted up. -/
def chain (v : Volume) (f : Fcb) (lbn : ℕ) : Fcb × Volume :=
  let link := (v.disk f.calbn).put 3 lbn
  let v := if f.calbn = 0 then v else v.write f.calbn link
  let bmap := if f.calbn = 0 then Function.update f.bmap 5 lbn else f.bmap
  let v := v.write lbn (Block.put (fun _ => 0) 0 f.calbn)
  ({ f with bmap, calbn := lbn, cavbn := f.cavbn / 256 * 256 + (f.cavbn + 1) % 256 }, v)

/-- Add `n` allocation blocks (`new1`). -/
def new1 (v : Volume) (f : Fcb) : ℕ → Except Err Unit × Fcb × Volume
  | 0 => (.ok (), f, v)
  | n + 1 =>
    match f.newalc v with
    | (.error e, v) => (.error e, f, v)
    | (.ok lbn, v) =>
      let (f, v) := f.chain v lbn
      new1 v f n

/-- `EXTALC`: extend the chain for a new cluster. -/
def extalc (v : Volume) (f : Fcb) (vcn : ℕ) : Except Err Unit × Fcb × Volume :=
  match f.fndalc v.disk vcn with
  | (.ok _, f) => (.ok (), f, v)
  | (.error e, f) => if e.err = .eof then f.new1 v e.de else (.error e.err, f, v)

end Fcb

end RSX280.Fileio
