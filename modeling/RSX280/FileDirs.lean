import RSX280.Errors
import Mathlib.Data.Nat.Notation
import Mathlib.Logic.Function.Basic
import Mathlib.Order.Nat
import Mathlib.Tactic.Common
import Mathlib.Algebra.GroupWithZero.Nat

/-!
# Directories (`FMAKE`, `MKDIR`, `FREN` and `FDEL` of `fileio.mac`)

A directory is a file of entries. `RDDIR` reads one entry after another up to the end that the
FCB has for the file, and `WRDIR` writes one. The master directory is open all the time by
`M.MFCB`, which does not follow when the file grows through another FCB. What comes before the
directory is looked at (access rights, the search for the directory itself) is left out, and
`NEWINO`, of which the operations get a number.
-/

namespace RSX280.FileDirs

universe u

/-- There are versions. -/
instance neZero_versions : NeZero 65536 := ⟨Nat.succ_ne_zero _⟩

/-- A directory entry. It is unused if `DE.INDX` is zero. -/
structure Entry (N : Type u) where
  indx : ℕ
  /-- `DE.NAME` and `DE.EXT` -/
  name : N
  ver : Fin 65536

/-- A directory, up to the end that an FCB has for it -/
structure Dir (N : Type u) where
  entries : ℕ → Entry N
  size : ℕ

/-- A parsed filespec: the name with the extension, `F.VER`, and the bit `FN.VER` of `F.ATTR` -/
structure Spec (N : Type u) where
  name : N
  ver : Fin 65536
  fnver : Bool

variable {N : Type u} [DecidableEq N]

/-- `vmode`: is the version explicit? -/
def Spec.vmode (s : Spec N) : Bool := s.ver ≠ 0 && s.fnver

/-- `FCBCMP`: compare an entry with a filespec, with or without the version. -/
def fcbcmp (s : Spec N) (vmode : Bool) (e : Entry N) : Bool :=
  s.name = e.name && (!vmode || s.ver == e.ver)

/-! ## Searching -/

/-- Look for the name and for an unused entry (`mkf2` of `FMAKE`), in `n` entries from `dirno`
on. -/
def mkf2 (d : Dir N) (s : Spec N) :
    ℕ → ℕ → Fin 65536 → Option ℕ → Except Err (Fin 65536 × Option ℕ)
  | 0, _, fvers, dirpos => .ok (fvers, dirpos)
  | n + 1, dirno, fvers, dirpos =>
    let e := d.entries dirno
    if e.indx = 0 then mkf2 d s n (dirno + 1) fvers (some (dirpos.getD dirno))
    else if fcbcmp s s.vmode e then
      if s.vmode then .error .exist else
        mkf2 d s n (dirno + 1) (if fvers < e.ver then e.ver else fvers) dirpos
    else mkf2 d s n (dirno + 1) fvers dirpos

/-- Look for the new name and for the old one (`fren2` of `FREN`). -/
def fren2 (d : Dir N) (old new : Spec N) :
    ℕ → ℕ → Fin 65536 → Option (ℕ × ℕ) → Except Err (Fin 65536 × Option (ℕ × ℕ))
  | 0, _, fvers, found => .ok (fvers, found)
  | n + 1, dirno, fvers, found =>
    let e := d.entries dirno
    if e.indx = 0 then fren2 d old new n (dirno + 1) fvers found
    else if fcbcmp new new.vmode e && new.vmode then .error .exist
    else
      let fvers := if fcbcmp new new.vmode e ∧ fvers < e.ver then e.ver else fvers
      let found := if fcbcmp old true e then some (dirno, e.indx) else found
      fren2 d old new n (dirno + 1) fvers found

/-- Look for a name (`fdl1` of `FDEL`, `mopn1` of `OPNDIR`). -/
def search (d : Dir N) (s : Spec N) (vmode : Bool) : ℕ → ℕ → Option ℕ
  | 0, _ => none
  | n + 1, dirno =>
    let e := d.entries dirno
    if e.indx ≠ 0 ∧ fcbcmp s vmode e then some dirno else search d s vmode n (dirno + 1)

/-! ## Writing -/

/-- The version of a new file: the given one, or the next one -/
def newVer (s : Spec N) (fvers : Fin 65536) : Except Err (Fin 65536) :=
  if s.vmode then .ok s.ver
  else if fvers + 1 = 65535 then .error .vlim
  else .ok (fvers + 1)

/-- What comes of a write: an error, a block written and the end where it was, or the end
behind the entry. (`FWRITE` moves the end or not by what is allocated to the file.) -/
inductive Outcome
  | fail
  | stay
  | grow
  deriving DecidableEq

/-- `WRDIR` -/
def Dir.write (d : Dir N) (i : ℕ) (e : Entry N) : Outcome → Dir N
  | .fail => d
  | .stay => { d with entries := Function.update d.entries i e }
  | .grow => ⟨Function.update d.entries i e, max d.size (i + 1)⟩

/-- A mounted volume, as far as its directories go -/
structure Vol (N : Type u) where
  /-- the contents of the directory with an index file entry -/
  dirs : ℕ → Dir N
  /-- the bit `FA.DIR` of the index file entry -/
  isDir : ℕ → Bool
  /-- the master directory by way of `M.MFCB` -/
  mfcb : Dir N
  /-- whether it has the blocks of index file entry 5 -/
  shared : Bool

/-- The FCB that `GETDIR` returns: `M.MFCB`, or one of the directory with an index file entry,
which is opened for the operation -/
inductive At
  | mfcb
  | inode (n : ℕ)
  deriving DecidableEq

namespace Vol

/-- The directory that is searched -/
def view (v : Vol N) : At → Dir N
  | .mfcb => v.mfcb
  | .inode n => v.dirs n

/-- The same by its index file entry. 5 is the one of the master directory. -/
def target (v : Vol N) : At → Dir N
  | .mfcb => v.dirs 5
  | .inode n => v.dirs n

/-- `OPNDIR` opens directories only. -/
def opens (v : Vol N) : At → Bool
  | .mfcb => true
  | .inode n => v.isDir n

/-- `WRDIR`, and `UPDINO` after it, which writes the whole state of the FCB to the index file
entry -/
def wrdir (v : Vol N) (i : ℕ) (e : Entry N) (o : Outcome) : At → Vol N
  | .mfcb =>
    if o = .fail then v
    else
      let d := v.mfcb.write i e o
      { v with mfcb := d, dirs := Function.update v.dirs 5 d, shared := true }
  | .inode n =>
    let seen := n = 5 ∧ v.shared ∧ o ≠ .fail
    { v with
      dirs := Function.update v.dirs n ((v.dirs n).write i e o)
      mfcb := if seen then v.mfcb.write i e .stay else v.mfcb }

/-! ## Operations -/

section Ops

variable (valid : N → Bool) (v : Vol N)

/-- `FMAKE`: create a file, with the number `ino` from `NEWINO`, and return its version. -/
def fmake (s : Spec N) (ino : ℕ) (o : Outcome) (a : At) : Except Err (Fin 65536) × Vol N :=
  if ¬valid s.name then (.error .badf, v)
  else if s.ver = 65535 then (.error .badop, v)
  else if ¬v.opens a then (.error .nodir, v)
  else
    let d := v.view a
    match mkf2 d s d.size 0 0 none with
    | .error e => (.error e, v)
    | .ok (fvers, dirpos) =>
      match newVer s fvers with
      | .error e => (.error e, v)
      | .ok ver =>
        if o = .fail then (.error .dskf, v)
        else
          let v := v.wrdir (dirpos.getD d.size) ⟨ino, s.name, ver⟩ o a
          (.ok ver, { v with isDir := Function.update v.isDir ino false })

/-- `MKDIR`: create an empty directory. -/
def mkdir (name : N) (ino : ℕ) (o : Outcome) : Except Err (Fin 65536) × Vol N :=
  match fmake valid v ⟨name, 1, true⟩ ino o (.inode 5) with
  | (.error e, v) => (.error e, v)
  | (.ok ver, v) =>
    let d := { v.dirs ino with size := 0 }
    (.ok ver, { v with
      dirs := Function.update v.dirs ino d
      isDir := Function.update v.isDir ino true
      shared := v.shared && ino ≠ 5 })

/-- `FREN`: rename a file. -/
def fren (old new : Spec N) (o : Outcome) (a : At) : Except Err Unit × Vol N :=
  if ¬valid new.name then (.error .badf, v)
  else if new.ver = 65535 then (.error .badop, v)
  else if ¬old.fnver then (.error .badop, v)
  else if old.ver = 0 then (.error .badop, v)
  else if old.ver = 65535 then (.error .badop, v)
  else if ¬v.opens a then (.error .nodir, v)
  else
    let d := v.view a
    match fren2 d old new d.size 0 0 none with
    | .error e => (.error e, v)
    | .ok (_, none) => (.error .fnf, v)
    | .ok (fvers, some (dirpos, ino)) =>
      let ver := if new.vmode then new.ver else fvers + 1
      (if o = .fail then .error .io else .ok (), v.wrdir dirpos ⟨ino, new.name, ver⟩ o a)

/-- Is there no entry in the directory (`fdl11` of `FDEL`)? -/
def empty (d : Dir N) : Bool := (List.range d.size).all fun i => (d.entries i).indx = 0

/-- `FDEL`: delete a file. `last` says whether this is its last link. When a directory goes, the
variables `dirno`, `dirent` and `inode` are those that `OPNDIR` leaves. -/
def fdel (s : Spec N) (last : Bool) (o : Outcome) (a : At) : Except Err Unit × Vol N :=
  if ¬s.fnver then (.error .badop, v)
  else if ¬v.opens a then (.error .nodir, v)
  else
    let d := v.view a
    match search d s true d.size 0 with
    | none => (.error .fnf, v)
    | some dirno =>
      let e := d.entries dirno
      let res : Except Err Unit := if o = .fail then .error .io else .ok ()
      if last ∧ v.isDir e.indx then
        match search v.mfcb ⟨e.name, e.ver, true⟩ false v.mfcb.size 0 with
        | none => (.error .fnf, v)
        | some dirno =>
          let e' := v.mfcb.entries dirno
          if ¬v.isDir e'.indx then (.error .nodir, v)
          else if ¬empty (v.dirs e'.indx) then (.error .dne, v)
          else
            let v := v.wrdir dirno { e' with indx := 0 } o a
            if o = .fail then (res, v)
            else (res, { v with
              dirs := Function.update v.dirs e.indx (v.dirs e'.indx)
              shared := v.shared && e.indx ≠ 5 })
      else (res, v.wrdir dirno { e with indx := 0 } o a)

end Ops

end Vol

end RSX280.FileDirs
