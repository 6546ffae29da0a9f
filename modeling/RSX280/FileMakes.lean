import RSX280.FileDirs
import RSX280.FreeCountRuns

/-!
# Files that cannot be made (`FMAKE`)

`FMAKE` takes an inode, and clusters if the file is contiguous, and then writes the directory entry
and the inode. When the entry cannot be written it gives back what it has taken; the loop that frees
the clusters tests its counter before it counts down (`mkf9_eq`), and goes on far beyond the last
one. When the inode cannot be written nothing is given back. A directory entry that cannot be written
leaves the directory as it was; what `FWRITE` does when it fails is not looked at here.
-/

namespace RSX280.FileMakes

open Bitmap (Blocks bk2cl bmfree bmsngl)
open Fileio (Inode Volume bk2clUp cl2bk fdl3 inc24)
open FileDirs (At Outcome Spec mkf2 newVer)

universe u

variable {N : Type u} [DecidableEq N]

/-! ## The routines -/

/-- A mounted volume, with its directories and the bitmap of the index file -/
structure Disk (N : Type u) where
  vol : Volume
  dirs : FileDirs.Vol N
  /-- the bitmap at `M.IBLBN` -/
  ibm : Blocks
  /-- `M.IXSZ` -/
  ixsz : ℕ

/-- What `FMAKE` is called with, and what it finds -/
structure Req (N : Type u) where
  spec : Spec N
  /-- `FA.CTG` -/
  ctg : Bool
  /-- neither `FA.FILE` nor `FA.DIR` -/
  temp : Bool
  /-- the number of blocks of a contiguous file -/
  cblks : ℕ
  user : ℕ
  grp : ℕ
  prot : ℕ
  /-- what `GETDIR` and `CKPRMF` return -/
  dir : Except Err At
  /-- what becomes of the directory entry -/
  wrdir : Outcome
  /-- does `WRINOD` succeed? -/
  wrinod : Bool

namespace Disk

variable (s : Disk N)

/-- The number of index file entries -/
def files : ℕ := s.ixsz * 8

/-- `ALLIXE` -/
def allixe : Except Err ℕ × Disk N :=
  match bmsngl s.ibm s.files with
  | (.ok n, ibm) => (.ok n, { s with ibm })
  | (.error e, ibm) => (.error (if e = .dskf then .idxf else e), { s with ibm })

/-- `FREIXE` -/
def freixe (n : ℕ) : Disk N := if n < s.files then { s with ibm := bmfree s.ibm n } else s

/-- `NEWINO`: the number of a free inode, counted from zero, in `n` tries. Each of them sets another
bit. -/
def newino (s : Disk N) : ℕ → Except Err ℕ × Disk N
  | 0 => (.error .idxf, s)
  | n + 1 =>
    match s.allixe with
    | (.error e, s) => (.error e, s)
    | (.ok i, s) => if (s.vol.inodes (i + 1)).lcnt = 0 then (.ok i, s) else newino s n

variable (r : Req N)

/-- Look for the place of the entry in the directory, and for the version (`mkf1` to `mkf5`). -/
def place : Except Err (Option (At × ℕ × Fin 65536)) :=
  if r.temp then .ok none
  else
    match r.dir with
    | .error e => .error e
    | .ok a =>
      if ¬s.dirs.opens a then .error .nodir
      else
        let d := s.dirs.view a
        match mkf2 d r.spec d.size 0 0 none with
        | .error e => .error e
        | .ok (fvers, dirpos) =>
          match newVer r.spec fvers with
          | .error e => .error e
          | .ok ver => .ok (some (a, dirpos.getD d.size, ver))

/-- Allocate the clusters of a contiguous file, and return the LBN of the first one (`mkf5` to
`mkf7`). -/
def space : Except Err ℕ × Disk N :=
  if r.ctg then
    match s.vol.allctg (bk2clUp r.cblks s.vol.clf) with
    | (.ok c, vol) => (.ok (cl2bk c s.vol.clf), { s with vol })
    | (.error e, vol) => (.error e, { s with vol })
  else (.ok 0, s)

/-- The inode of the new file -/
def fresh (lbn : ℕ) : Inode where
  lcnt := 1
  ctg := r.ctg
  user := r.user
  grp := r.grp
  prot := r.prot
  aloc := if r.ctg then r.cblks else 0
  used := 0
  lbcn := 0
  bmap i := if i = 0 then lbn else 0

/-- The clusters that `mkf9` frees, when `DE` is `de` and `C` is zero again after `c` times -/
def mkf9 : ℕ → ℕ → ℕ → List ℕ
  | bhl, c, de + 1 => bhl :: mkf9 (inc24 bhl) c de
  | bhl, c + 1, 0 => bhl :: mkf9 (inc24 bhl) c 65535
  | bhl, 0, 0 => [bhl]

/-- The clusters are given back (`mkf8`). `C` is counted down before it is tested. -/
def undo (lbn : ℕ) : Disk N :=
  if r.ctg then
    let cde := bk2clUp r.cblks s.vol.clf
    let l := mkf9 (bk2cl lbn s.vol.clf) ((cde / 65536 + 255) % 256) (cde % 65536)
    { s with vol := s.vol.freecls l }
  else s

/-- Write the inode (`mkf11`). -/
def mkf11 (i lbn : ℕ) : Except Err Unit × Disk N :=
  if r.wrinod then
    (.ok (), { s with vol := { s.vol with
      inodes := Function.update s.vol.inodes (i + 1) (fresh r lbn) } })
  else (.error .io, s)

/-- `FMAKE`, with an inode, from `mkf1` on -/
def fmake1 (i : ℕ) : Except Err Unit × Disk N :=
  match s.place r with
  | .error e => (.error e, s.freixe i)
  | .ok p =>
    match s.space r with
    | (.error e, s) => (.error e, s.freixe i)
    | (.ok lbn, s) =>
      match p with
      | none => s.mkf11 r i lbn
      | some (a, pos, ver) =>
        if r.wrdir = .fail then (.error .dskf, (s.undo r lbn).freixe i)
        else
          { s with dirs := s.dirs.wrdir pos ⟨i + 1, r.spec.name, ver⟩ r.wrdir a }.mkf11 r i lbn

/-- `FMAKE` -/
def fmake (valid : N → Bool) : Except Err Unit × Disk N :=
  if ¬valid r.spec.name then (.error .badf, s)
  else if r.spec.ver = 65535 then (.error .badop, s)
  else
    match s.newino (s.files + 1) with
    | (.error e, s) => (.error e, s)
    | (.ok i, s) => s.fmake1 r i

end Disk

/-! ## What is asked for -/

/-- The bitmaps, `M.FREE` and the directories are as before. -/
structure Undone (s s' : Disk N) : Prop where
  used : ∀ n, s'.vol.bm.used n = s.vol.bm.used n
  free : s'.vol.free = s.vol.free
  index : ∀ n, s'.ibm.used n = s.ibm.used n
  dirs : s'.dirs = s.dirs

namespace Disk

variable (s : Disk N) (r : Req N)

/-- The number of clusters of a contiguous file -/
def clusters : ℕ := bk2clUp r.cblks s.vol.clf

/-- The inode can be had, and the clusters of a contiguous file. -/
def Taken : Prop := (∃ i s', s.newino (s.files + 1) = (.ok i, s')) ∧
  (r.ctg → ∃ c vol, s.vol.allctg (s.clusters r) = (.ok c, vol))

/-- When it fails with the inode and the clusters allocated, `FMAKE` leaves all as it was. -/
def Atomic (valid : N → Bool) : Prop :=
  s.Taken r → ∀ e, (s.fmake r valid).1 = .error e → Undone s (s.fmake r valid).2

/-- The first index file entry with an unset bit is free. -/
def First : Prop := ∀ i s', s.allixe = (.ok i, s') → (s.vol.inodes (i + 1)).lcnt = 0

/-- The clusters that are allocated are the last ones of a volume with less than 65536 of them. -/
def Last : Prop := ∀ c vol, s.vol.allctg (s.clusters r) = (.ok c, vol) →
  c + s.clusters r = s.vol.clusters ∧ s.vol.clusters < 65536

/-- When `FMAKE` leaves all as it was -/
def Clean (valid : N → Bool) : Prop :=
  s.Taken r → valid r.spec.name → r.spec.ver ≠ 65535 →
    (∀ e, s.place r = .error e → s.First) ∧
    ∀ p, s.place r = .ok p →
      if p.isSome ∧ r.wrdir = .fail then s.First ∧ (r.ctg → s.Last r) else r.wrinod = true

end Disk

/-! ## The inode -/

variable {s s' : Disk N} {r : Req N} {i : ℕ}

/-- What is known of the inode that is found -/
structure Found (s s' : Disk N) (i : ℕ) : Prop where
  eq : s' = { s with ibm := s'.ibm }
  lt : i < s.files
  free : s.ibm.used i = false
  used : s'.ibm.used i = true
  mono : ∀ j, s.ibm.used j = true → s'.ibm.used j = true
  first : s.First → s'.ibm = s.ibm.mark i
  later : ¬s.First → ∃ j, j ≠ i ∧ s.ibm.used j = false ∧ s'.ibm.used j = true

omit [DecidableEq N] in
/-- The inode is freed again, and what `NEWINO` has passed over stays marked. -/
theorem Found.index_iff (h : Found s s' i) {s₁ : Disk N} (hi : s₁.ibm = s'.ibm)
    (hx : s₁.ixsz = s.ixsz) :
    (∀ n, (s₁.freixe i).ibm.used n = s.ibm.used n) ↔ s.First := by
  have hfre (n : ℕ) : (s₁.freixe i).ibm.used n = (decide (n ≠ i) && s'.ibm.used n) := by
    have hlt := h.lt
    rw [Disk.freixe, if_pos (by rw [Disk.files, hx]; exact hlt)]
    dsimp only
    rw [hi]
    exact Bitmap.used_bmfree s'.ibm i n
  constructor
  · intro hall
    by_contra hf
    obtain ⟨j, hj, h₀, h₁⟩ := h.later hf
    have := hall j
    rw [hfre, decide_eq_true hj, h₁, h₀] at this
    cases this
  · intro hf n
    rw [hfre, h.first hf]
    by_cases hn : n = i
    · rw [hn, h.free, decide_eq_false (not_not.mpr rfl), Bool.false_and]
    · rw [Bitmap.used_mark, decide_eq_true hn, decide_eq_false hn, Bool.true_and, Bool.false_or]

/-! ## The clusters -/

/-- What `ALLCTG` has done when it returns cluster `c` -/
structure Run (v w : Volume) (n c : ℕ) : Prop where
  pos : 0 < n
  le : c + n ≤ v.clusters
  empty : ∀ j, c ≤ j → j < c + n → v.bm.used j = false
  used : ∀ j, w.bm.used j = (decide (c ≤ j ∧ j < c + n) || v.bm.used j)
  clusters : w.clusters = v.clusters
  clf : w.clf = v.clf
  free : w.free = (v.free + 16777216 - n) % 16777216

/-- The clusters that are allocated, in the order of their numbers -/
def Run.list (c n : ℕ) : List ℕ := (List.range n).map (c + ·)

omit [DecidableEq N] in
/-- What is left when only the inode is given back -/
theorem Found.undone_iff (h : Found s s' i) {s₁ : Disk N} (hi : s₁.ibm = s'.ibm)
    (hx : s₁.ixsz = s.ixsz) (hd : s₁.dirs = s.dirs) :
    Undone s (s₁.freixe i) ↔ s.First ∧
      (∀ n, s₁.vol.bm.used n = s.vol.bm.used n) ∧ s₁.vol.free = s.vol.free := by
  have hvol : (s₁.freixe i).vol = s₁.vol := by
    rw [Disk.freixe]
    split <;> rfl
  have hdirs : (s₁.freixe i).dirs = s.dirs := by
    rw [← hd, Disk.freixe]
    split <;> rfl
  constructor
  · rintro ⟨hu, hf, hx', -⟩
    rw [hvol] at hu hf
    exact ⟨(h.index_iff hi hx).mp hx', hu, hf⟩
  · rintro ⟨hfirst, hu, hf⟩
    exact ⟨by rw [hvol]; exact hu, by rw [hvol]; exact hf, (h.index_iff hi hx).mpr hfirst, hdirs⟩

/-- A volume of eight clusters, of which six are free, with room for eight files -/
def blank : Disk Unit where
  vol :=
    { blks := 8, clf := 0, free := 6, bm := fun _ hl => if hl = Bitmap.bmhsz then 0xC0 else 0
      disk := fun _ _ => 0
      inodes := fun _ => ⟨0, false, 0, 0, 0, 0, 0, 0, fun _ => 0⟩ }
  dirs := ⟨fun _ => ⟨fun _ => ⟨0, (), 0⟩, 0⟩, fun _ => false, ⟨fun _ => ⟨0, (), 0⟩, 0⟩, true⟩
  ibm := fun _ _ => 0
  ixsz := 1

/-- A contiguous file of `n` blocks whose directory entry cannot be written -/
def refused (n : ℕ) : Req Unit :=
  ⟨⟨(), 1, true⟩, true, false, n, 0, 0, 0, .ok .mfcb, .fail, true⟩

end RSX280.FileMakes
