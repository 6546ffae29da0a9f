import RSX280.AlcMap

/-!
# Reading and writing blocks of a file (`FREAD`, `FWRITE`)

A request is for some bytes of one block. `F.NUSED` is the end of the file for `FREAD`, and
`F.NALOC` for a non-contiguous file is that of `FWRITE`.
-/

namespace RSX280.Fileio

open Bitmap (bk2cl)

/-! ## Bytes of a block -/

namespace Block

/-- `$MCOPY` into a block -/
def copy (b : Block) (offset : ℕ) (l : List UInt8) : Block := fun o =>
  if offset ≤ o then (l[o - offset]?).getD (b o) else b o

/-- `$MCOPY` from a block -/
def fetch (b : Block) (offset n : ℕ) : List UInt8 := (List.range n).map fun i => b (offset + i)

end Block

/-- The number of bytes of a request that are within the first `size` of the block. The sum has
16 bits. -/
def trim (offset len size : ℕ) : ℕ :=
  if size < (offset + len) % 65536 then size - offset else len

/-! ## `FREAD` -/

namespace Fcb

/-- `FREAD`: read `len` bytes from `offset` on, of block `vbn`. -/
def fread (v : Volume) (f : Fcb) (vbn offset len : ℕ) : Except Err (List UInt8) × Fcb :=
  if len = 0 then (.ok [], f)
  else if ¬f.rd then (.error .badop, f)
  else
    let last := inc24 vbn = f.nused
    let size := if last then f.lbcnt else 512
    if f.nused < inc24 vbn then (.error .eof, f)
    else if size ≤ offset then (if last then .error .eof else .ok [], f)
    else
      match f.v2lbn1 v vbn with
      | (.error e, f) => (.error e, f)
      | (.ok lbn, f) => (.ok ((v.disk lbn).fetch offset (trim offset len size)), f)

/-! ## `FWRITE` -/

/-- How `FWRITE` fails: with an error, with an error and `TRNALC` called to restore the chain, or
with its return address lost from the stack. -/
inductive Fail
  | err (e : Err)
  | undo (e : Err)
  | lost

/-- Zero-fill the gap before a new end (`fwr2`), from block `cde` on. -/
def fwr2 (v : Volume) (f : Fcb) (cde : ℕ) : ℕ → Volume
  | 0 => v
  | n + 1 => fwr2 (v.write (add24 (f.bmap 0) cde) fun _ => 0) f (cde + 1) n

/-- The end of the file, when there is a new last block. -/
def newEnd (f : Fcb) (n : ℕ) : Fcb := { f with nused := n, lbcnt := 0 }

/-- Find the block among those of the file, or make it the new last one (the first half of
`FWRITE`). Is it the last one? -/
def permit (v : Volume) (f : Fcb) (vbn : ℕ) : Except Fail Bool × Fcb × Volume :=
  let n := inc24 vbn
  if f.ctg then
    if f.naloc < n then (.error (.err .eof), f, v)
    else if n ≤ f.nused then (.ok (n = f.nused), f, v)
    else (.ok true, f.newEnd n, f.fwr2 v f.nused (vbn - f.nused))
  else if n ≤ f.naloc then (.ok (n = f.naloc), f, v)
  else
    let vcn := bk2cl n v.clf
    let r := if vcn < 5 then (.ok (), f, v) else f.extalc v vcn
    match r with
    | (.error e, f, v) => (.error (.undo e), f, v)
    | (.ok _, f, v) => (.ok true, { f with naloc := n }.newEnd n, v)

/-- Set the LBN of a cluster, in the FCB or in the allocation block. -/
def setLbn (v : Volume) (f : Fcb) (vcn lbn : ℕ) : Fcb × Volume :=
  if vcn < 5 then ({ f with bmap := Function.update f.bmap vcn lbn }, v)
  else (f, v.write f.calbn ((v.disk f.calbn).put (blkptr vcn) lbn))

/-- Allocate a cluster for the block (`fwr61` to `fwr66`). -/
def newLbn (v : Volume) (f : Fcb) (vbn : ℕ) : Except Fail (ℕ × Bool) × Fcb × Volume :=
  match v.allsgc with
  | (.error e, v) => (.error (.undo e), f, v)
  | (.ok n, v) =>
    let lbn := cl2bk n v.clf
    if f.ctg then (.ok (lbn, true), f, v)
    else (.ok (add24 lbn (rem vbn v.clf), true), f.setLbn v (bk2cl vbn v.clf) lbn)

/-- Find the LBN to write to (`fwr6`). Is the block a new one? -/
def locate (v : Volume) (f : Fcb) (vbn : ℕ) : Except Fail (ℕ × Bool) × Fcb × Volume :=
  match f.v2lbn1 v vbn with
  | (.ok lbn, f) => if lbn = 0 then f.newLbn v vbn else (.ok (lbn, false), f, v)
  | (.error e, f) => if e = .una ∧ ¬f.ctg then f.newLbn v vbn else (.error (.undo e), f, v)

/-- Write the bytes to block `lbn` (`fwr7` to `fwr11`). -/
def put (v : Volume) (f : Fcb) (lbn offset : ℕ) (l : List UInt8) (new last : Bool) :
    Fcb × Volume :=
  -- a block that is written as a whole is not read before
  let old : Block := if new ∨ (offset = 0 ∧ l.length = 512) then fun _ => 0 else v.disk lbn
  let v := v.write lbn (old.copy offset l)
  let f := { f with modf := true }
  let f := if last then { f with lbcnt := max f.lbcnt ((offset + l.length) % 65536) } else f
  (f, v.updino f)

/-- `FWRITE`: write bytes to block `vbn`, from `offset` on. -/
def fwrite (v : Volume) (f : Fcb) (vbn offset : ℕ) (l : List UInt8) :
    Except Fail ℕ × Fcb × Volume :=
  if l = [] then (.ok 0, f, v)
  else if ¬f.wr then (.error (.err .badop), f, v)
  else
    match f.permit v vbn with
    | (.error e, f, v) => (.error e, f, v)
    | (.ok last, f, v) =>
      if 512 ≤ offset then (.error .lost, f, v)
      else
        let l := l.take (trim offset l.length 512)
        match f.locate v vbn with
        | (.error e, f, v) => (.error e, f, v)
        | (.ok (lbn, new), f, v) => (.ok l.length, f.put v lbn offset l new last)

end Fcb

end RSX280.Fileio
