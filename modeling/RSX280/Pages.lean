import Mathlib.Data.Nat.Notation
import Mathlib.Logic.Function.Basic

/-!
# The work file of the text editor (`ted/main.mac`)

The records of the text are in a work file, and some of its blocks are in buffers. The block map grows
from the start of the free memory upwards, the buffers from its end downwards. A map byte is the number
of the buffer that the block is in, or zero.

A record has a link, and its other 14 bytes are of a type `β`. Transfers succeed. `none` stands for a
fatal error, and for a search among no buffers.
-/

namespace RSX280.Ted

variable {β : Type}

/-- A record: the first word, and the other bytes. -/
structure Rec (β : Type) where
  link : ℕ
  rest : β

/-- `BUFSIZ`. -/
def BUFSIZ : ℕ := 516

/-- A buffer: the LRU count with the 'dirty' bit, the block number, and the records of the block. -/
structure Buf (β : Type) where
  count : ℕ
  dirty : Bool
  blk : ℕ
  recs : ℕ → Rec β

/-- The variables of the work file; `map` is the block map by address, `buf` are the buffers by
number, and `file` are the blocks in the file. -/
structure Sys (β : Type) where
  FSTFRE : ℕ
  NUMFRE : ℕ
  MEMBOT : ℕ
  ENDMAP : ℕ
  BFPOOL : ℕ
  MEMTOP : ℕ
  NUMBUF : ℕ
  WFBLKS : ℕ
  NBLKS : ℕ
  USECNT : ℕ
  map : ℕ → ℕ
  buf : ℕ → Buf β
  file : ℕ → ℕ → Rec β

/-! ### Buffers -/

/-- `SWPOUT`: write the block of a buffer if it is 'dirty'. -/
def SWPOUT (s : Sys β) (n : ℕ) : Sys β :=
  let b := s.buf n
  { s with
    file := if b.dirty then Function.update s.file b.blk b.recs else s.file
    buf := Function.update s.buf n { b with dirty := false }
    map := Function.update s.map (s.MEMBOT + b.blk) 0 }

/-- The second byte of a buffer: the upper bits of the count, with the 'dirty' bit. -/
def Buf.hi (b : Buf β) : ℕ := b.count / 256 + if b.dirty then 128 else 0

/-- `nb1`: the search for the oldest buffer, from buffer `b - 1` up to the end of memory; `c` is the
best one so far. -/
def nb1 (buf : ℕ → Buf β) : ℕ → ℕ → ℕ
  | 0, c => c
  | b + 1, c =>
    if b = 0 then c
    else if (buf c).hi ≤ (buf b).hi then nb1 buf b c
    else if (buf c).count % 256 ≤ (buf b).count % 256 then nb1 buf b c
    else nb1 buf b b

/-- `NEWBUF`: the number of a buffer to use. A new one if there is space between the map and the
buffers, or else the one that is swapped out. -/
def NEWBUF (s : Sys β) : Option (Sys β × ℕ) :=
  let bfpool := (s.BFPOOL + 65536 - BUFSIZ) % 65536
  if s.ENDMAP ≤ bfpool then some ({ s with BFPOOL := bfpool, NUMBUF := s.NUMBUF + 1 }, s.NUMBUF + 1)
  else if s.NUMBUF = 0 then none
  else
    let c := nb1 s.buf s.NUMBUF s.NUMBUF
    some (SWPOUT s c, c)

/-! ### Records -/

/-- `lr5`: a buffer is used. -/
def lr5 (s : Sys β) (n : ℕ) (b : Bool) : Sys β :=
  let usecnt := (s.USECNT + 1) % 32768
  { s with
    USECNT := usecnt
    buf := Function.update s.buf n
      { s.buf n with count := usecnt, dirty := (s.buf n).dirty || b } }

/-- `LDREC`, or `LDRECD` if `b`: the number of the buffer that has the record. The record number
selects one of its 32 records. -/
def LDREC (s : Sys β) (r : ℕ) (b : Bool) : Option (Sys β × ℕ) :=
  let blk := r / 32
  if r = 0 ∨ s.NBLKS ≤ blk then none
  else if s.map (s.MEMBOT + blk) = 0 then
    match NEWBUF s with
    | none => none
    | some (s, c) =>
      let s := { s with
        buf := Function.update s.buf c ⟨(s.buf c).count, false, blk, s.file blk⟩
        map := Function.update s.map (s.MEMBOT + blk) c }
      some (lr5 s c b, c)
  else
    let n := s.map (s.MEMBOT + blk)
    some (lr5 s n b, n)

/-- The record at an address. -/
def Sys.get (s : Sys β) (n r : ℕ) : Rec β := (s.buf n).recs (r % 32)

/-- The record at an address is written. -/
def Sys.set (s : Sys β) (n r : ℕ) (x : Rec β) : Sys β :=
  let recs := Function.update (s.buf n).recs (r % 32) x
  { s with buf := Function.update s.buf n { s.buf n with recs } }

/-! ### Allocation -/

/-- The records of a new block: a free list, and the record that is allocated. -/
def links (blk : ℕ) (recs : ℕ → Rec β) : ℕ → Rec β := fun i =>
  ⟨if i < 30 then 32 * blk + i + 1 else 0, (recs i).rest⟩

/-- `alc1`: space for one more byte of the map. -/
def alc1 (s : Sys β) : Option (Sys β) :=
  if s.ENDMAP < s.BFPOOL then some s
  else if s.NUMBUF = 0 then none
  else
    let s := SWPOUT s s.NUMBUF
    some { s with BFPOOL := s.BFPOOL + BUFSIZ, NUMBUF := s.NUMBUF - 1 }

/-- A new block is in the buffer `c`; `a` is the address of its map byte. -/
def newblk (a : ℕ) (s : Sys β) (c : ℕ) : ℕ × Sys β :=
  let first := 32 * s.NBLKS
  (first + 31, { s with
    map := Function.update s.map a c
    buf := Function.update s.buf c ⟨s.USECNT, true, s.NBLKS, links s.NBLKS (s.buf c).recs⟩
    NBLKS := s.NBLKS + 1
    FSTFRE := if first = 0 then 1 else first
    NUMFRE := if first = 0 then (s.NUMFRE + 65534) % 65536 else (s.NUMFRE + 65535) % 65536 })

/-- `alc2`: a new block. -/
def alc2 (s : Sys β) : Option (ℕ × Sys β) :=
  (NEWBUF { s with ENDMAP := s.ENDMAP + 1 }).map fun u => newblk s.ENDMAP u.1 u.2

/-- `ALLREC`: the number of a new record, or zero if the work file is full. -/
def ALLREC (s : Sys β) : Option (ℕ × Sys β) :=
  if s.FSTFRE = 0 then
    if s.WFBLKS ≤ s.NBLKS then some (0, s)
    else
      match alc1 s with
      | none => none
      | some s => alc2 s
  else
    match LDREC s s.FSTFRE true with
    | none => none
    | some (t, n) =>
      let x := t.get n s.FSTFRE
      let t := t.set n s.FSTFRE { x with link := 0 }
      some (s.FSTFRE, { t with
        FSTFRE := x.link
        NUMFRE := (t.NUMFRE + 65535) % 65536 })

/-- `frc1`: count the records of a chain, and link the last one to the old free list. There are no
more than 65536 of them. -/
def frc1 : ℕ → Sys β → ℕ → ℕ → Option (Sys β)
  | 0, _, _, _ => none
  | k + 1, s, old, r =>
    match LDREC { s with NUMFRE := (s.NUMFRE + 1) % 65536 } r true with
    | none => none
    | some (s, n) =>
      let x := s.get n r
      if x.link = 0 then some (s.set n r { x with link := old }) else frc1 k s old x.link

/-- `FREREC`: a record and the ones it is linked to are free. -/
def FREREC (s : Sys β) (r : ℕ) : Option (Sys β) := frc1 65536 { s with FSTFRE := r } s.FSTFRE r

/-! ### Runs -/

/-- The calls. `LDRECD` is followed by what the caller writes to the record. -/
inductive Op (β : Type)
  | ALLREC
  | FREREC (r : ℕ)
  | LDREC (r : ℕ)
  | LDRECD (r : ℕ) (f : Rec β → Rec β)

/-- What the caller sees: a record number, or the record. -/
inductive Out (β : Type)
  | num (r : ℕ)
  | data (x : Rec β)
  | unit

/-- One call. -/
def step (s : Sys β) : Op β → Option (Sys β × Out β)
  | .ALLREC =>
    match ALLREC s with
    | none => none
    | some (r, s) => some (s, .num r)
  | .FREREC r =>
    match FREREC s r with
    | none => none
    | some s => some (s, .unit)
  | .LDREC r =>
    match LDREC s r false with
    | none => none
    | some (s, n) => some (s, .data (s.get n r))
  | .LDRECD r f =>
    match LDREC s r true with
    | none => none
    | some (s, n) => some (s.set n r (f (s.get n r)), .data (s.get n r))

/-- The free memory. `START` wants 2 KB of it, and it is behind the program. -/
structure Area where
  MEMBOT : ℕ
  MEMTOP : ℕ
  program : BUFSIZ ≤ MEMBOT
  room : MEMBOT + 2048 ≤ MEMTOP
  word : MEMTOP < 65536

/-- `START`. The contents of the memory and of the work file do not matter. -/
def START (a : Area) (wfblks : ℕ) (map : ℕ → ℕ) (buf : ℕ → Buf β) (file : ℕ → ℕ → Rec β) : Sys β where
  FSTFRE := 0
  NUMFRE := (wfblks - 1) * 32
  MEMBOT := a.MEMBOT
  ENDMAP := a.MEMBOT
  BFPOOL := a.MEMTOP
  MEMTOP := a.MEMTOP
  NUMBUF := 0
  WFBLKS := wfblks
  NBLKS := 0
  USECNT := 0
  map
  buf
  file

end RSX280.Ted
