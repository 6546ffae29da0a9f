import RSX280.Errors
import Mathlib.Data.Nat.Notation
import Mathlib.Logic.Function.Basic
import Mathlib.Tactic.Common

/-!
# Mounting, opening, closing and dismounting (`mount.mac`, `main.mac`)

One unit and the tasks' logical units on it. What the kernel, the index file and the directories
answer on the way is the `Env` of a request. `FCLOSE`, `FREFCB` and `DISMNT` call each other, on
the stack of the ACP, so they take fuel, and `none` is a stack that is too small.

`F.REFS` is set by `MOUNT` and never looked at. The status of `UPDINO`, and what `FDEL` writes to
a directory, are left out.
-/

namespace RSX280.Mount

/-- `F.ATTR`, and `IE.ATTR`, where the bits of the access mode are not used -/
structure Attr where
  dir : Bool
  file : Bool
  ctg : Bool
  lck : Bool
  rd : Bool
  wr : Bool
  shr : Bool
  modf : Bool
  deriving DecidableEq

/-- Neither `FA.FILE` nor `FA.DIR` -/
def Attr.temp (a : Attr) : Bool := !a.file && !a.dir

/-- The mode bits for `FOPEN` -/
structure Mode where
  rd : Bool
  wr : Bool
  shr : Bool

structure Fcb where
  attr : Attr
  inode : ℕ

structure Inode where
  attr : Attr
  lcnt : ℕ

/-- A mounted volume control block, with the addresses of the FCBs in `M.FCBL` -/
structure Vcb where
  addr : ℕ
  fcbl : List ℕ
  mfcb : ℕ

/-- What is done to control blocks and files, for the statements -/
inductive Event
  | newvcb (a : ℕ)
  | frevcb (a : ℕ)
  | getfcb (a : ℕ)
  | frefcb (a : ℕ)
  /-- `FCLOSE` of an FCB -/
  | close (a : ℕ)
  /-- `fdl2`: the file goes, with or without the attribute of a temporary file -/
  | delete (ino : ℕ) (temp : Bool)
  /-- `dsm1`: the unit is dismounted -/
  | unmount (a : ℕ)
  deriving DecidableEq

structure State where
  /-- Is the volume in `$MVTBL`? -/
  mvtbl : Bool
  /-- What is at `LUNVCB`. It stays there when the block is freed. -/
  vcb : Vcb
  /-- `US.MNT` -/
  mnt : Bool
  /-- `US.DMO` -/
  dmo : Bool
  fcb : ℕ → Fcb
  inode : ℕ → Inode
  /-- The FCB of a logical unit, or zero -/
  lun : ℕ → ℕ
  /-- The newest event first -/
  log : List Event

/-- The answers that a request gets, each after what has been done -/
structure Env where
  /-- `$ALLOC` -/
  alloc : List Event → Option ℕ
  /-- `$FREE` writes the size of the block to where `F.ATTR` was. -/
  size : List Event → Attr
  /-- `RDINOD` and `CKPRMI`: may the file be deleted? -/
  perm : List Event → Bool
  /-- `OPNDIR`: the index file entry of a directory -/
  find : List Event → Option ℕ
  /-- Has the directory no entries? -/
  empty : List Event → Bool

def State.emit (s : State) (e : Event) : State := { s with log := e :: s.log }

/-! ## FCBs and VCBs -/

section

variable (env : Env)

/-- `GETFCB` -/
def getfcb (s : State) : Option (ℕ × State) :=
  (env.alloc s.log).map fun a => (a, { s with
    vcb := { s.vcb with fcbl := a :: s.vcb.fcbl }
    fcb := Function.update s.fcb a ⟨⟨false, false, false, false, false, false, false, false⟩, 0⟩
    log := .getfcb a :: s.log })

/-- `SETFCB`: mode bits and the attributes of the index file entry -/
def setfcb (s : State) (a ino : ℕ) (m : Mode) : State :=
  let attr := { (s.inode ino).attr with rd := m.rd, wr := m.wr, shr := m.shr }
  { s with fcb := Function.update s.fcb a ⟨attr, ino⟩ }

/-- `NEWVCB` -/
def newvcb (s : State) : Option State :=
  (env.alloc s.log).map fun a =>
    { s with mvtbl := true, vcb := ⟨a, [], 0⟩, log := .newvcb a :: s.log }

/-- `FREVCB` -/
def frevcb (s : State) (hl : ℕ) : Except Err Unit × State :=
  if s.mvtbl ∧ hl = s.vcb.addr then (.ok (), { s with mvtbl := false, log := .frevcb hl :: s.log })
  else (.error .badop, s)

/-- `CHKOPN`: is there no FCB but the one of the master directory? -/
def chkopn (s : State) : Bool := s.vcb.fcbl.all (· = s.vcb.mfcb)

/-! ## Closing and dismounting -/

/-- `FREFCB`, with `DISMNT` after it if the unit is being dismounted -/
def frefcb (dismnt : State → Option State) (de : ℕ) (s : State) : Option State :=
  if de ∉ s.vcb.fcbl then some s
  else
    let s := { s with
      vcb := { s.vcb with fcbl := s.vcb.fcbl.erase de }
      fcb := Function.update s.fcb de { s.fcb de with attr := env.size s.log }
      log := .frefcb de :: s.log }
    if s.dmo then dismnt s else some s

/-- `DISMNT` -/
def dismnt (fclose : ℕ → State → Option State) (s : State) : Option (Except Err Unit × State) :=
  if ¬chkopn s then
    if s.dmo then some (.error .dmop, s) else some (.error .dmoi, { s with dmo := true })
  else
    let iy := s.vcb.addr
    (if s.vcb.mfcb ≠ 0 then fclose s.vcb.mfcb s else some s).map fun s =>
      frevcb { s with mnt := false, dmo := false, log := .unmount iy :: s.log } iy

/-- `OPNDIR`, for the directory with an index file entry: the FCB, in a new state -/
def opndir (s : State) (ino : ℕ) : Except Err (ℕ × State) :=
  if ¬(s.inode ino).attr.dir then .error .nodir
  else
    match getfcb env s with
    | none => .error .nomem
    | some (a, s) => .ok (a, setfcb s a ino ⟨true, true, true⟩)

/-- `fdl0` of `FDEL`. The variable `inode` is what is written at the end, and `OPNDIR` reads an
index file entry into it. -/
def fdl0 (fclose : ℕ → State → Option State) (ino : ℕ) (s : State) : Option State :=
  if ¬env.perm s.log then some s
  else
    let inode := s.inode ino
    let inode := { inode with lcnt := (inode.lcnt + 65535) % 65536 }
    if inode.lcnt ≠ 0 then some { s with inode := Function.update s.inode ino inode }
    else if inode.attr.dir then
      match env.find s.log with
      | none => some s
      | some n =>
        match opndir env s n with
        | .error _ => some s
        | .ok (a, s) =>
          let inode := s.inode n
          let empty := env.empty s.log
          (fclose a s).map fun s =>
            if ¬empty then s
            else { s with
              inode := Function.update s.inode ino inode
              log := .delete ino (s.inode ino).attr.temp :: s.log }
    else
      some { s with
        inode := Function.update s.inode ino inode
        log := .delete ino inode.attr.temp :: s.log }

/-- `FCLOSE` -/
def fclose : ℕ → ℕ → State → Option State
  | 0, _, _ => none
  | n + 1, hl, s =>
    let s := s.emit (.close hl)
    let ret := frefcb env (fun s => (dismnt (fclose n) s).map Prod.snd) hl
    if (s.fcb hl).attr.temp then (fdl0 env (fclose n) (s.fcb hl).inode s).bind ret else ret s

/-! ## Requests -/

/-- `MOUNT`, of a volume with the given index file, or one that it refuses -/
def mount (disk : Except Err (ℕ → Inode)) (s : State) : Except Err Unit × State :=
  if s.mvtbl then
    if ¬s.dmo then (.error .devam, s) else (.ok (), { s with dmo := false })
  else
    match newvcb env s with
    | none => (.error .nomem, s)
    | some s =>
      match disk with
      | .error e => (.error e, (frevcb s s.vcb.addr).2)
      | .ok inode =>
        let s := { s with inode := inode }
        match getfcb env s with
        | none => (.error .nomem, (frevcb s s.vcb.addr).2)
        | some (a, s) =>
          let s := setfcb s a 5 ⟨true, true, true⟩
          (.ok (), { s with vcb := { s.vcb with mfcb := a }, mnt := true })

/-- `GETDIR`: the master directory, or one with an index file entry, which is opened -/
def getdir (dir : Option ℕ) (s : State) : Except Err (Option ℕ × State) :=
  if s.dmo then .error .dmop
  else
    match dir with
    | none => .ok (none, s)
    | some ino => (opndir env s ino).map fun r => (some r.1, r.2)

/-- `clsdir`: close the directory if it has been opened. -/
def clsdir (n : ℕ) (dir : Option ℕ) (s : State) : Option State :=
  match dir with
  | none => some s
  | some a => fclose env n a s

/-- `FOPEN`, of what is found in a directory -/
def fopen (n : ℕ) (dir : Option ℕ) (file : Except Err ℕ) (m : Mode) (s : State) :
    Option (Except Err ℕ × State) :=
  match getdir env dir s with
  | .error e => some (.error e, s)
  | .ok (dir, s) =>
    match file with
    | .error e => (clsdir env n dir s).map fun s => (.error e, s)
    | .ok ino =>
      if (s.inode ino).attr.lck then (clsdir env n dir s).map fun s => (.error .flck, s)
      else
        match getfcb env s with
        | none => (clsdir env n dir s).map fun s => (.error .nomem, s)
        | some (a, s) => (clsdir env n dir (setfcb s a ino m)).map fun s => (.ok a, s)

/-- `FCREAT` of a temporary file: the index file entry, and then the FCB -/
def fcreat (n ino : ℕ) (ctg : Bool) (s : State) : Option (Except Err ℕ × State) :=
  let attr : Attr := ⟨false, false, ctg, false, false, false, false, false⟩
  let s := { s with inode := Function.update s.inode ino ⟨attr, 1⟩ }
  match getfcb env s with
  | none => (fdl0 env (fclose env n) ino s).map fun s => (.error .nomem, s)
  | some (a, s) => some (.ok a, setfcb s a ino ⟨true, true, false⟩)

end

/-- `STOFCB`, with the FCB or zero -/
def stofcb (lun : ℕ) (r : Except Err ℕ × State) : State :=
  { r.2 with lun := Function.update r.2.lun lun (match r.1 with | .ok a => a | .error _ => 0) }

/-- A request to the ACP (`fnmnt`, `fnopen`, `fnmake`, `fnclse`, `fndsm`) -/
inductive Op
  | mount (disk : Except Err (ℕ → Inode))
  | access (lun : ℕ) (dir : Option ℕ) (file : Except Err ℕ) (m : Mode)
  | create (lun ino : ℕ) (ctg : Bool)
  | close (lun : ℕ)
  | dismount

/-- Process a request. All but `IO.MNT` are for a mounted volume, opening is for a logical unit
without a file, and closing for one with a file. -/
def Op.run (n : ℕ) (env : Env) (s : State) : Op → Option State
  | .mount disk => some (Mount.mount env disk s).2
  | .access lun dir file m =>
    if s.lun lun ≠ 0 ∨ ¬s.mvtbl then some s else (fopen env n dir file m s).map (stofcb lun)
  | .create lun ino ctg =>
    if s.lun lun ≠ 0 ∨ ¬s.mvtbl then some s else (fcreat env n ino ctg s).map (stofcb lun)
  | .close lun =>
    if s.lun lun = 0 ∨ ¬s.mvtbl then some s
    else (fclose env n (s.lun lun) s).map fun s => { s with lun := Function.update s.lun lun 0 }
  | .dismount =>
    if ¬s.mvtbl then some s else (dismnt (fclose env n) s).map Prod.snd

end RSX280.Mount
