import RSX280.Match
import RSX280.Pfn

/-!
# Searching a directory (`search.mac`)

`SRCHDR` calls back for the entries of a directory that match the name in an FNB. For the newest or the oldest
version of each file it first writes a temporary file, which has one entry for each name (`TADD`), and then
searches that. The directory can be opened, all transfers succeed, and the callback does not abort.

Lengths and places in the buffers count entries, of `DESZ` bytes, 32 in a block.
-/

namespace RSX280.Srchdr

open Match Pfn

/-- A directory entry; `indx` is zero if it is not used. -/
structure Entry where
  indx : UInt16
  name : Vector UInt8 9
  ext : Vector UInt8 3
  ver : UInt16
  deriving DecidableEq

/-- The fields of the FNB with the search pattern. -/
structure Fnb where
  attr : UInt8
  name : Vector UInt8 9
  ext : Vector UInt8 3
  ver : UInt16
  wldc : UInt8
  deriving DecidableEq

/-! ### The pattern -/

/-- The null-terminated search pattern; addresses are from the stack frame on. -/
def pattrn : ℕ := 12

/-- The null-terminated filename string. -/
def fname : ℕ := pattrn + 14

def blank : UInt8 := 32

def period : UInt8 := 46

/-- The loop of `CPNAME` and `CPEXT`: what remains of the field is at `HL`. The results are in `DE` and `C`. -/
def cpn1 (m : Mem) (de c : ℕ) : List UInt8 → Mem × ℕ × ℕ
  | [] => (m.wr8 de 0, de, c)
  | a :: hl => if a = 0 ∨ a = blank then (m.wr8 de 0, de, c) else cpn1 (m.wr8 de a) (inc de) (c + 1) hl

def CPNAME (m : Mem) (de : ℕ) (hl : Vector UInt8 9) : Mem × ℕ × ℕ := cpn1 m de 0 hl.toList

def CPEXT (m : Mem) (de : ℕ) (hl : Vector UInt8 3) : Mem × ℕ × ℕ := cpn1 m de 0 hl.toList

/-- The component was specified. -/
def Fnb.Has (fnb : Fnb) (c : UInt8) : Prop := fnb.attr &&& c ≠ 0

instance (fnb : Fnb) (c : UInt8) : Decidable (fnb.Has c) := inferInstanceAs (Decidable (_ ≠ _))

/-- The component was specified with wildcards. -/
def Fnb.Wild (fnb : Fnb) (c : UInt8) : Prop := fnb.wldc &&& c ≠ 0

instance (fnb : Fnb) (c : UInt8) : Decidable (fnb.Wild c) := inferInstanceAs (Decidable (_ ≠ _))

/-- A null pattern means `*.*;*`. -/
def nullpat (fnb : Fnb) : Fnb :=
  if fnb.Has (FN.NAME ||| FN.EXT ||| FN.VER) then fnb
  else { fnb with attr := fnb.attr ||| FN.VER, wldc := fnb.wldc ||| FN.VER }

def bp3 (fnb : Fnb) (m : Mem) (de : ℕ) : Mem :=
  -- the pattern does not get its null here
  if fnb.Has (FN.EXT ||| FN.NAME) then m else (m.wr8 de asterisk).wr8 (inc de) 0

def bp2 (fnb : Fnb) (m : Mem) (de : ℕ) : Mem :=
  let m := m.wr8 de period
  if fnb.Has FN.EXT then
    let (m, de, c) := CPEXT m (inc de) fnb.ext
    if c ≠ 0 then m else bp3 fnb m de
  else bp3 fnb m (inc de)

def bp1 (fnb : Fnb) (m : Mem) (de : ℕ) : Mem :=
  if fnb.Has FN.EXT then bp2 fnb m de else bp2 fnb (m.wr8 de asterisk) (inc de)

def bp0 (fnb : Fnb) (m : Mem) : Mem :=
  if fnb.Has FN.NAME then
    let (m, de, c) := CPNAME m pattrn fnb.name
    if c ≠ 0 then bp2 fnb m de else bp1 fnb m de
  else bp1 fnb m pattrn

def bldpat (fnb : Fnb) (m : Mem) : Fnb × Mem := (nullpat fnb, bp0 (nullpat fnb) m)

/-- `vmode`, the version search mode: 1, 0 and -1. -/
inductive Vmode where
  /-- explicit or `*` -/
  | normal
  | newest
  | oldest
  deriving DecidableEq

def chksv (fnb : Fnb) : Vmode :=
  if fnb.Wild FN.VER then .normal
  else if fnb.Has FN.VER then
    if fnb.ver = 0 then .newest
    else if fnb.ver = 0xFFFF then .oldest
    else .normal
  else .newest

/-- The first part of `fmatch` puts the name of the entry together. -/
def entname (m : Mem) (dirent : Entry) : Mem :=
  let (m, de, _) := CPNAME m fname dirent.name
  (CPEXT (m.wr8 de period) (inc de) dirent.ext).1

/-- Whether the version matches. In the temporary file it does. -/
def fm1 (fnb : Fnb) (temp : Bool) (dirent : Entry) : Bool := temp ∨ fnb.Wild FN.VER ∨ fnb.ver = dirent.ver

/-- Match the directory entry against the pattern, with at most `n` rounds of `MATCH`. -/
def fmatch (n : ℕ) (fnb : Fnb) (temp : Bool) (m : Mem) (dirent : Entry) : Option (Mem × Bool) :=
  let m := entname m dirent
  if m pattrn = 0 then some (m, fm1 fnb temp dirent)
  else (run m n (matchStart fname pattrn)).map fun z => (m, z && fm1 fnb temp dirent)

/-! ### The directory -/

/-- A block of a file; it is empty behind the end. -/
def readBlock (file : List Entry) (n : ℕ) : List Entry := (file.drop (32 * n)).take 32

/-- Where `RDDIR` is: the entries from `bufptr` on, of which there are `bufcnt` bytes, and `blkno`. -/
structure Place where
  buf : List Entry
  blkno : ℕ

/-- `scan`: rewind the directory. -/
def rewind : Place := ⟨[], 65535⟩

/-- Read the next entry; none at the end. The block numbers are of 16 bits: "we don't expect dirs larger than
32Mb". -/
def RDDIR (file : List Entry) (p : Place) : Option (Entry × Place) :=
  match p.buf with
  | e :: l => some (e, { p with buf := l })
  | [] =>
    match readBlock file (inc p.blkno) with
    | e :: l => some (e, ⟨l, inc p.blkno⟩)
    | [] => none

/-! ### The temporary file -/

/-- The file and its buffer -/
structure Tmp where
  file : List Entry
  tbuf : ℕ → Entry
  /-- pointer into the buffer -/
  tptr : ℕ
  /-- current block -/
  tblk : ℕ
  /-- length of the buffer -/
  tlen : ℕ
  /-- buffer modified flag -/
  tmodf : Bool

def TCREAT (t : Tmp) : Tmp := { t with file := [], tblk := 0, tmodf := false }

/-- Entries are written at the begin of a block. -/
def writeBlock (file : List Entry) (n : ℕ) (l : List Entry) : List Entry :=
  file.take (32 * n) ++ (l ++ file.drop (32 * n + l.length))

def TFLUSH (t : Tmp) : Tmp :=
  if t.tmodf then { t with file := writeBlock t.file t.tblk ((List.range t.tlen).map t.tbuf), tmodf := false }
  else t

/-- The name and the extension are the same. -/
def cmpent (e e' : Entry) : Bool := e.name = e'.name ∧ e.ext = e'.ext

/-- There is nothing to do, as the version in the buffer is the one that is wanted. -/
def tcmp (vmode : Vmode) (old dirent : Entry) : Bool :=
  if vmode = .oldest then old.ver < dirent.ver else dirent.ver < old.ver

def tsave (dirent : Entry) (t : Tmp) : Tmp :=
  { t with tbuf := Function.update t.tbuf t.tptr dirent, tmodf := true }

def t3 (dirent : Entry) (t : Tmp) : Tmp := tsave dirent { t with tlen := t.tlen + 1 }

/-- A new block. -/
def tdone (dirent : Entry) (t : Tmp) : Tmp := t3 dirent { t with tptr := 0, tlen := 0 }

/-- From `t2` on: look for the name in the `tcnt` entries that are left. -/
def t2 (dirent : Entry) (t : Tmp) : ℕ → Tmp × Bool
  | 0 => (t, false)
  | tcnt + 1 =>
    if cmpent (t.tbuf t.tptr) dirent then (t, true) else t2 dirent { t with tptr := t.tptr + 1 } tcnt

/-- At most `n` blocks from `tloop` on. -/
def tloop (vmode : Vmode) (dirent : Entry) : ℕ → Tmp → Option Tmp
  | 0, _ => none
  | n + 1, t =>
    let l := readBlock t.file t.tblk
    let t := { t with tbuf := fun i => l.getD i (t.tbuf i), tptr := 0, tlen := l.length }
    if l = [] then some (tdone dirent t)
    else
      let (t, found) := t2 dirent t l.length
      if found then some (if tcmp vmode (t.tbuf t.tptr) dirent then t else tsave dirent t)
      else if t.tlen = 32 then
        let t := TFLUSH t
        tloop vmode dirent n { t with tblk := inc t.tblk }
      else some (t3 dirent t)

def TADD (n : ℕ) (vmode : Vmode) (dirent : Entry) (t : Tmp) : Option Tmp :=
  tloop vmode dirent n { TFLUSH t with tblk := 0 }

/-! ### `SRCHDR` -/

/-- The calls of the external routine: 0, 1 and 2. -/
inductive Call where
  /-- upon opening the directory -/
  | opened
  /-- a file that matches -/
  | file (dirent : Entry)
  /-- after closing the directory -/
  | closed
  deriving DecidableEq

/-- The variables, and the calls until now; `temp` says that `lun` is `LUNTMP`. -/
structure State where
  m : Mem
  vmode : Vmode
  temp : Bool
  place : Place
  tmp : Tmp
  calls : List Call

/-- At most `n` rounds of the loop. -/
def loop (dir : List Entry) (fnb : Fnb) : ℕ → State → Option State
  | 0, _ => none
  | n + 1, s =>
    match RDDIR (if s.temp then s.tmp.file else dir) s.place with
    | none => some s
    | some (dirent, place) =>
      if dirent.indx = 0 then loop dir fnb n { s with place }
      else if s.vmode = .normal then
        match fmatch n fnb s.temp s.m dirent with
        | none => none
        | some (m, z) =>
          loop dir fnb n { s with place, m, calls := if z then s.calls ++ [.file dirent] else s.calls }
      else
        match TADD n s.vmode dirent s.tmp with
        | none => none
        | some tmp => loop dir fnb n { s with place, tmp }

/-- `SRCHDR` with at most `n` rounds of each loop: the calls of the external routine. -/
def SRCHDR (n : ℕ) (dir : List Entry) (fnb : Fnb) (m : Mem) (tmp : Tmp) : Option (List Call) :=
  let (fnb, m) := bldpat fnb m
  let vmode := chksv fnb
  let tmp := if vmode = .normal then tmp else TCREAT tmp
  match loop dir fnb n { m, vmode, temp := false, place := rewind, tmp, calls := [.opened] } with
  | none => none
  | some s =>
    if s.vmode = .normal then some (s.calls ++ [.closed])
    else
      -- search again, this time using the temporary file as source
      let s := { s with tmp := TFLUSH s.tmp, vmode := .normal, temp := true, place := rewind }
      (loop dir fnb n s).map fun s => s.calls ++ [.closed]

end RSX280.Srchdr
