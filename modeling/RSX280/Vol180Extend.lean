import RSX280.Vol180Allocs
import RSX280.Vol180Maps

/-!
# Extension of files in vol180

`file_extend` is called for the block behind the last one that is in use. A contiguous file cannot grow
beyond what was allocated for it. For other files clusters are allocated, and allocation blocks to remember
them. When there are no more clusters it returns at once, with what has been done so far.
-/

namespace RSX280.Vol180

open Bitmap (vb)

/-! ### Blocks -/

/-- `new_block`: the buffer is cleared and not read. -/
def new_block (v : Vol) (s : St) (blkno : ℕ) : Option St :=
  if v.nblocks ≤ blkno then none
  else if blkno ∈ s.held ∨ s.held.dedup.length < NBUFFERS then
    some { data := Function.update s.data blkno fun _ => 0, held := blkno :: s.held }
  else none

/-- `SET_INT24` -/
def St.put24 (s : St) (blkno i x : ℕ) : St :=
  { s with data := Function.update s.data blkno (Fileio.Block.put (s.data blkno) i x) }

/-! ### `file_extend` -/

/-- One turn of the loop over the entries in the FCB. -/
def direct_step (v : Vol) (i : ℕ) (f : File) (s : St) : Bool × File × St :=
  if f.bmap i = 0 then
    let r := alloc_cluster v s
    if r.1 = 0 then (false, f, r.2)
    else (true, { f with bmap := Function.update f.bmap i r.1, nalloc := f.nalloc + 2 ^ v.clfactor }, r.2)
  else (true, f, s)

/-- The blocks up to `vbn` are in use when nothing has failed. -/
def set_nused (vbn : ℕ) (r : Bool × File × St) : Bool × File × St :=
  if r.1 then (true, { r.2.1 with nused := vbn + 1 }, r.2.2) else r

/-- The loop from entry `i` on. With `vcn` below 5 it does not get to the last entry. -/
def direct_loop (v : Vol) (vbn : ℕ) : ℕ → ℕ → File → St → Bool × File × St
  | 0, i, f, s => set_nused vbn (direct_step v i f s)
  | vcn + 1, i, f, s =>
    match direct_step v i f s with
    | (false, f, s) => (false, f, s)
    | (true, f, s) => direct_loop v vbn vcn (i + 1) f s

/-- The `while` loop: `prev`, `curalloc` and what remains of `vcn`, that is as it was in the last block when
there is no other one. The buffer is of `curalloc`, or else of `prev`. -/
def walk (v : Vol) : ℕ → ℕ → ℕ → ℕ → St → Option (ℕ × ℕ × ℕ × St)
  | 0, prev, curalloc, vcn, s => some (prev, curalloc, vcn, s)
  | q + 1, _, curalloc, vcn, s =>
    let next := get24 s curalloc 3
    if next = 0 then some (curalloc, 0, vcn, s)
    else
      match get_block v (release_block s curalloc) next with
      | none => none
      | some s => walk v q curalloc next (vcn - 168) s

/-- A new allocation block behind `prev`, when that is not zero. It is returned with the file. -/
def add_map (v : Vol) (prev : ℕ) (f : File) (s : St) : Option (Option ℕ × File × St) :=
  let r := if prev ≠ 0 ∧ prev % 2 ^ v.clfactor ≠ 2 ^ v.clfactor - 1 then (prev + 1, s) else alloc_cluster v s
  if r.1 = 0 then some (none, f, if prev = 0 then r.2 else release_block r.2 prev)
  else
    let f := if prev = 0 then { f with bmap := Function.update f.bmap 5 r.1 } else f
    let s := if prev = 0 then r.2 else release_block (r.2.put24 prev 3 r.1) prev
    match new_block v s r.1 with
    | none => none
    | some s => some (some r.1, { f with curalloc := r.1 }, s.put24 r.1 0 prev)

/-- One entry of the allocation block that is in the buffer, with a cluster for it when it has none. Is
there one? -/
def map_entry (v : Vol) (blkptr : ℕ) (f : File) (s : St) : Bool × File × St :=
  if get24 s f.curalloc blkptr = 0 then
    let r := alloc_cluster v s
    if r.1 = 0 then (false, f, release_block r.2 f.curalloc)
    else (true, { f with nalloc := f.nalloc + 2 ^ v.clfactor }, r.2.put24 f.curalloc blkptr r.1)
  else (true, f, s)

/-- The next entry, perhaps of the next block, or of a new one. -/
def map_next (v : Vol) (blkptr : ℕ) (f : File) (s : St) : Option (Option ℕ × File × St) :=
  if blkptr + 3 < 510 then some (some (blkptr + 3), f, s)
  else
    let prev := f.curalloc
    let next := get24 s prev 3
    let f := { f with curalloc := next }
    if next = 0 then
      match add_map v prev f s with
      | none => none
      | some (lbn, f, s) => some (lbn.map fun _ => 6, f, s)
    else
      match get_block v (release_block s prev) next with
      | none => none
      | some s => some (some 6, f, s)

/-- The loop over the entries in the allocation blocks. -/
def map_loop (v : Vol) : ℕ → ℕ → File → St → Option (Bool × File × St)
  | vcn, blkptr, f, s =>
    match map_entry v blkptr f s with
    | (false, f, s) => some (false, f, s)
    | (true, f, s) =>
      match map_next v blkptr f s, vcn with
      | none, _ => none
      | some (none, f, s), _ => some (false, f, s)
      | some (some _, f, s), 0 => some (true, f, release_block s f.curalloc)
      | some (some blkptr, f, s), vcn + 1 => map_loop v vcn blkptr f s

/-- `vcn`, rounded up -/
def up (v : Vol) (vbn : ℕ) : ℕ := vbn >>> v.clfactor + if vbn % 2 ^ v.clfactor = 0 then 0 else 1

/-- The allocation block that the entries are looked at from, as in `walk`. -/
def find_map (v : Vol) (vcn : ℕ) (f : File) (s : St) : Option (ℕ × ℕ × ℕ × St) :=
  if f.bmap 5 = 0 then some (0, 0, vcn, s)
  else
    match get_block v s (f.bmap 5) with
    | none => none
    | some s => walk v (vcn / 168) 0 (f.bmap 5) vcn s

/-- `file_extend`: is it done? -/
def file_extend (v : Vol) (f : File) (s : St) (vbn : ℕ) : Option (Bool × File × St) :=
  if vbn < f.nused then some (true, f, s)
  else if f.ctg then some (decide (vbn + 1 ≤ f.nalloc), { f with nused := vbn + 1 }, s)
  else if up v vbn < 5 then some (direct_loop v vbn (up v vbn) 0 f s)
  else
    match find_map v (up v vbn - 5) f s with
    | none => none
    | some (prev, curalloc, vcn, s) =>
      let f := { f with curalloc }
      match if curalloc = 0 then add_map v prev f s else some (some curalloc, f, s) with
      | none => none
      | some (none, f, s) => some (false, f, s)
      | some (some _, f, s) => (map_loop v vcn 6 f s).map (set_nused vbn)

end RSX280.Vol180
