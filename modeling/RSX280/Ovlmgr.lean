import Mathlib.Data.Nat.Notation
import Mathlib.Logic.Function.Basic
import Mathlib.Tactic.Common

/-!
# The overlay manager (`ovlmgr.mac`)

Overlays are loaded in records of 128 bytes from the task file, to the address that the linker has
put into `?OVLTB`. `OVLTBL` lists those in memory. A byte of memory is known by its place in the
task file and by the overlay it has been loaded for. `none` is an aborted task.
-/

namespace RSX280.Ovlmgr

/-- An entry of `?OVLTB`: record number in the task file, load address and length -/
structure Ent where
  recno : ℕ
  load : ℕ
  len : ℕ

/-- `OVLTOP`: the end address, at the end of a record -/
def Ent.top (e : Ent) : ℕ := (e.load + e.len + 65535) % 65536 / 128 * 128 + 127

/-- The number of records to load -/
def Ent.rdlen (e : Ent) : ℕ := ((e.top + 65536 - e.load) % 65536 + 127) % 65536 / 128

/-- `?OVLTB` as the linker makes it: every overlay begins with a record behind the root section
and after it in the file. -/
structure Table (N : ℕ) where
  ent : Fin N → Ent
  size : N ≤ 255
  aligned : ∀ n, (ent n).load % 128 = 0
  root : ∀ n, 0 < (ent n).load
  fits : ∀ n, (ent n).load + (ent n).len ≤ 65536
  header : ∀ n, 4 ≤ (ent n).recno
  file : ∀ n, (ent n).recno + ((ent n).len + 127) / 128 ≤ 65536

/-- An entry of `OVLTBL`, free if the number is zero -/
structure Slot where
  num : ℕ
  bot : ℕ
  top : ℕ
  deriving DecidableEq

def maxovl : ℕ := 5

/-- A byte of an overlay: the overlay that has been loaded, and the place in the file -/
abbrev Cell (N : ℕ) := Fin N × ℕ

structure State (N : ℕ) where
  /-- `LDFLAG` -/
  ldflag : Bool
  ovltbl : List Slot
  mem : ℕ → Option (Cell N)
  /-- The block of the task file in `IOBUF` -/
  iobuf : ℕ

variable {N : ℕ}

/-- `FNDOVL`: is the overlay in the table? -/
def fndovl (s : State N) (n : Fin N) : Bool := s.ovltbl.any fun e => e.num = n + 1

/-- The loop `load2`: free the entries that the overlay overlaps. -/
def load2 (bot top : ℕ) (l : List Slot) : List Slot :=
  l.map fun e => if e.num = 0 ∨ top < e.bot ∨ e.top < bot then e else { e with num := 0 }

/-- The loop `load5`: use the first free entry. -/
def load5 (new : Slot) : List Slot → Option (List Slot)
  | [] => none
  | e :: l => if e.num = 0 then some (new :: l) else (load5 new l).map (e :: ·)

/-- `RDREC`: read a record to an address. `blk` is `Q.BLK`, the block that is in the buffer. -/
def rdrec (io : ℕ → Bool) (n : Fin N) (s : State N) (blk dest recno : ℕ) :
    Option (ℕ × State N) :=
  (if recno / 4 = blk then some s.iobuf
    else if io (recno / 4) then some (recno / 4) else none).map fun iobuf =>
    (recno / 4, { s with
      iobuf := iobuf
      mem := fun a =>
        if dest ≤ a ∧ a < dest + 128 then some (n, iobuf * 512 + recno % 4 * 128 + (a - dest))
        else s.mem a })

/-- The loop `load7` -/
def load7 (io : ℕ → Bool) (n : Fin N) : ℕ → State N → ℕ → ℕ → ℕ → Option (State N)
  | 0, s, _, _, _ => some s
  | rdlen + 1, s, blk, ovlbot, recno =>
    (rdrec io n s blk ovlbot recno).bind fun r =>
      load7 io n rdlen r.2 r.1 ((ovlbot + 128) % 65536) ((recno + 1) % 65536)

/-- `LOAD`, with the contents of `?MEMRY` -/
def load (T : Table N) (memry : ℕ) (io : ℕ → Bool) (s : State N) (n : Fin N) : Option (State N) :=
  let e := T.ent n
  if memry ≤ e.top then none
  else
    (load5 ⟨n + 1, e.load, e.top⟩ (load2 e.load e.top s.ovltbl)).bind fun l =>
      load7 io n e.rdlen { s with ovltbl := l } 0 e.load e.recno

/-- `?OVLA0` for a routine of the overlay, which gets control in the state it returns -/
def ovla0 (T : Table N) (memry : ℕ) (io : ℕ → Bool) (s : State N) (n : Fin N) :
    Option (State N) :=
  let flag := s.ldflag
  let s := { s with ldflag := false }
  if flag then some s else if fndovl s n then some s else load T memry io s n

/-- `?OVLAY`, with the load flag of the parameter block -/
def ovlay (T : Table N) (memry : ℕ) (io : ℕ → Bool) (s : State N) (n : Fin N) (force : Bool) :
    Option (State N) :=
  let s := { s with ldflag := true }
  if !force && fndovl s n then some s else load T memry io s n

end RSX280.Ovlmgr
