import RSX280.DirScan
import RSX280.Runs

/-!
# Names stay unique in a directory

A master directory that `M.MFCB` sees up to an old end is a prefix of the real one, and unique
with it.
-/

namespace RSX280.FileDirs

universe u

variable {N : Type u}

namespace Vol

/-! ## Writing an entry -/

section Write

variable {v : Vol N} {o : Outcome} {a : At} {i : ℕ} {e : Entry N}

/-- What holds of a volume between operations -/
structure Sound (v : Vol N) : Prop where
  dirs : ∀ n, v.isDir n = true → (v.dirs n).Valid
  mfcb : v.mfcb.Valid
  size : v.shared = true → v.mfcb.size ≤ (v.dirs 5).size
  entries : v.shared = true → ∀ i < v.mfcb.size, v.mfcb.entries i = (v.dirs 5).entries i

/-- Every directory is well formed. -/
def Unique (v : Vol N) : Prop := ∀ n, v.isDir n = true → (v.dirs n).Valid

/-- The master directory is a directory, and `M.MFCB` has just been opened. -/
structure Mounted (v : Vol N) : Prop where
  isDir : v.isDir 5 = true
  mfcb : v.mfcb = v.dirs 5
  shared : v.shared = true

theorem Mounted.sound (h : v.Mounted) (hu : v.Unique) : v.Sound where
  dirs := hu
  mfcb := h.mfcb ▸ hu 5 h.isDir
  size _ := h.mfcb ▸ le_rfl
  entries _ _ _ := by rw [h.mfcb]

theorem Sound.view (h : v.Sound) (ha : v.opens a = true) : (v.view a).Valid := by
  cases a with
  | mfcb => exact h.mfcb
  | inode n => exact h.dirs n ha

@[simp] theorem isDir_wrdir : (v.wrdir i e o a).isDir = v.isDir := by
  cases a with
  | mfcb => by_cases ho : o = .fail <;> simp [wrdir, ho]
  | inode n => rfl

theorem valid_update {f : ℕ → Dir N} {d : Dir N} {n : ℕ}
    (h : ∀ k, v.isDir k = true → (f k).Valid) (hd : d.Valid) :
    ∀ k, v.isDir k = true → (Function.update f n d k).Valid := by
  intro k hk
  by_cases hkn : k = n
  · rw [hkn, Function.update_self]
    exact hd
  · rw [Function.update_of_ne hkn]
    exact h k hk

theorem Sound.wrdir_mfcb (h : v.Sound) (hw : (v.mfcb.write i e o).Valid) :
    (v.wrdir i e o .mfcb).Sound := by
  by_cases ho : o = .fail
  · simpa only [wrdir, if_pos ho] using h
  · simp only [wrdir, if_neg ho]
    exact ⟨valid_update h.dirs hw, hw, by simp, by simp⟩

/-- `M.MFCB` sees what is written to the blocks that it has. -/
theorem Sound.seen (h : v.Sound) (hs : v.shared = true) (ho : o ≠ .fail) :
    v.mfcb.size ≤ ((v.dirs 5).write i e o).size ∧ ∀ j < v.mfcb.size,
      (v.mfcb.write i e .stay).entries j = ((v.dirs 5).write i e o).entries j := by
  have hle := h.size hs
  have hent : ∀ j < v.mfcb.size,
      Function.update v.mfcb.entries i e j = Function.update (v.dirs 5).entries i e j := by
    intro j hj
    by_cases hji : j = i
    · rw [hji, Function.update_self, Function.update_self]
    · rw [Function.update_of_ne hji, Function.update_of_ne hji, h.entries hs j hj]
  cases o with
  | fail => exact absurd rfl ho
  | stay => exact ⟨hle, hent⟩
  | grow => exact ⟨hle.trans (le_max_left _ _), hent⟩

theorem Sound.wrdir_inode {n : ℕ} (h : v.Sound) (hw : ((v.dirs n).write i e o).Valid) :
    (v.wrdir i e o (.inode n)).Sound := by
  have hdirs := valid_update (n := n) h.dirs hw
  by_cases hseen : n = 5 ∧ v.shared = true ∧ o ≠ .fail
  · obtain ⟨rfl, hs, ho⟩ := hseen
    obtain ⟨hle, hent⟩ := h.seen (i := i) (e := e) hs ho
    simp only [wrdir, hs, ho, true_and, if_true, ne_eq, not_false_eq_true]
    refine ⟨hdirs, hw.prefix hle hent, fun _ => ?_, fun _ => ?_⟩
    · dsimp only
      rw [Function.update_self]
      exact hle
    · dsimp only
      rw [Function.update_self]
      exact hent
  · simp only [wrdir, if_neg hseen]
    have hsame : v.shared = true →
        Function.update v.dirs n ((v.dirs n).write i e o) 5 = v.dirs 5 := by
      intro hs
      by_cases hn : n = 5
      · subst hn
        have ho : o = .fail := by_contra fun ho => hseen ⟨rfl, hs, ho⟩
        rw [Function.update_self, ho]
        rfl
      · exact Function.update_of_ne (Ne.symm hn) _ _
    refine ⟨hdirs, h.mfcb, fun hs => ?_, fun hs => ?_⟩
    · simpa only [hsame hs] using h.size hs
    · simpa only [hsame hs] using h.entries hs

/-- An entry is written to a directory that is open, at its end or before, with a new name. -/
theorem Sound.wrdir (h : v.Sound) (ha : v.opens a = true) (hi : i ≤ (v.view a).size)
    (hf : (v.view a).Fresh i e) : (v.wrdir i e o a).Sound := by
  have hw := (h.view ha).write hi hf o
  cases a with
  | mfcb => exact h.wrdir_mfcb hw
  | inode n => exact h.wrdir_inode hw

/-- The state of an index file entry is replaced. -/
theorem Sound.replace {n : ℕ} {d : Dir N} {isDir : ℕ → Bool} (h : v.Sound)
    (hisDir : ∀ k ≠ n, isDir k = true → v.isDir k = true) (hd : isDir n = true → d.Valid) :
    Sound { v with
      dirs := Function.update v.dirs n d
      isDir := isDir
      shared := v.shared && n ≠ 5 } := by
  have hsh : ∀ {b : Bool}, (b && decide (n ≠ 5)) = true → b = true ∧ 5 ≠ n := by
    intro b hb
    simp only [Bool.and_eq_true, decide_eq_true_eq] at hb
    exact ⟨hb.1, hb.2.symm⟩
  refine ⟨fun k hk => ?_, h.mfcb, fun hs => ?_, fun hs => ?_⟩
  · by_cases hkn : k = n
    · subst hkn
      simpa only [Function.update_self] using hd hk
    · simpa only [Function.update_of_ne hkn] using h.dirs k (hisDir k hkn hk)
  · obtain ⟨hs, hne⟩ := hsh hs
    simpa only [Function.update_of_ne hne] using h.size hs
  · obtain ⟨hs, hne⟩ := hsh hs
    simpa only [Function.update_of_ne hne] using h.entries hs

end Write

/-! ## One operation -/

section Ops

variable [DecidableEq N] (valid : N → Bool) (v : Vol N) (ino : ℕ) (o : Outcome) (a : At)

theorem fmake_cases (s : Spec N) :
    (∃ e, v.fmake valid s ino o a = (.error e, v)) ∨
    ∃ fvers dirpos ver, s.ver ≠ 65535 ∧ v.opens a = true ∧
      mkf2 (v.view a) s (v.view a).size 0 0 none = .ok (fvers, dirpos) ∧
      newVer s fvers = .ok ver ∧
      v.fmake valid s ino o a = (.ok ver, { v.wrdir (dirpos.getD (v.view a).size)
        ⟨ino, s.name, ver⟩ o a with isDir := Function.update v.isDir ino false }) := by
  unfold fmake
  by_cases hname : ¬valid s.name = true
  · exact Or.inl ⟨_, if_pos hname⟩
  by_cases hver : s.ver = 65535
  · exact Or.inl ⟨_, (if_neg hname).trans (if_pos hver)⟩
  by_cases ha : ¬v.opens a = true
  · exact Or.inl ⟨_, (if_neg hname).trans ((if_neg hver).trans (if_pos ha))⟩
  rw [if_neg hname, if_neg hver, if_neg ha]
  dsimp only
  rcases hscan : mkf2 (v.view a) s (v.view a).size 0 0 none with e | ⟨fvers, dirpos⟩
  · exact Or.inl ⟨e, rfl⟩
  rcases hnew : newVer s fvers with e | ver
  · exact Or.inl ⟨e, by simp only [hnew]⟩
  dsimp only
  rw [hnew]
  dsimp only
  by_cases ho : o = .fail
  · exact Or.inl ⟨_, if_pos ho⟩
  · refine Or.inr ⟨fvers, dirpos, ver, hver, not_not.mp ha, rfl, hnew, ?_⟩
    rw [if_neg ho, isDir_wrdir]

theorem fren_cases (old new : Spec N) :
    (v.fren valid old new o a).2 = v ∨
    ∃ fvers dirpos ino, new.ver ≠ 65535 ∧ v.opens a = true ∧
      fren2 (v.view a) old new (v.view a).size 0 0 none = .ok (fvers, some (dirpos, ino)) ∧
      (v.fren valid old new o a).2 = v.wrdir dirpos
        ⟨ino, new.name, if new.vmode then new.ver else fvers + 1⟩ o a := by
  unfold fren
  by_cases hname : ¬valid new.name = true
  · exact Or.inl (by rw [if_pos hname])
  by_cases hver : new.ver = 65535
  · exact Or.inl (by rw [if_neg hname, if_pos hver])
  rw [if_neg hname, if_neg hver]
  by_cases hfn : ¬old.fnver = true
  · exact Or.inl (by rw [if_pos hfn])
  by_cases hold : old.ver = 0
  · exact Or.inl (by rw [if_neg hfn, if_pos hold])
  rw [if_neg hfn, if_neg hold]
  by_cases hlow : old.ver = 65535
  · exact Or.inl (by rw [if_pos hlow])
  by_cases ha : ¬v.opens a = true
  · exact Or.inl (by rw [if_neg hlow, if_pos ha])
  rw [if_neg hlow, if_neg ha]
  dsimp only
  rcases hscan : fren2 (v.view a) old new (v.view a).size 0 0 none
    with e | ⟨fvers, _ | ⟨dirpos, ino⟩⟩
  · exact Or.inl rfl
  · exact Or.inl rfl
  · exact Or.inr ⟨fvers, dirpos, ino, hver, not_not.mp ha, rfl, rfl⟩

/-- A deletion clears an entry, that of the file or the one where `OPNDIR` stopped, and may put
one directory in the place of another. -/
theorem fdel_cases (s : Spec N) (last : Bool) :
    (v.fdel s last o a).2 = v ∨
    ∃ i, v.opens a = true ∧ search (v.view a) s true (v.view a).size 0 = some i ∧
      ((v.fdel s last o a).2 = v ∨
      (v.fdel s last o a).2 = v.wrdir i { (v.view a).entries i with indx := 0 } o a ∨
      last = true ∧ v.isDir ((v.view a).entries i).indx = true ∧
        ∃ j, search v.mfcb ⟨((v.view a).entries i).name, ((v.view a).entries i).ver, true⟩ false
            v.mfcb.size 0 = some j ∧ v.isDir (v.mfcb.entries j).indx = true ∧
          ∃ w, w = v.wrdir j { v.mfcb.entries j with indx := 0 } o a ∧
            ((v.fdel s last o a).2 = w ∨ (v.fdel s last o a).2 = { w with
              dirs := Function.update w.dirs ((v.view a).entries i).indx
                (w.dirs (v.mfcb.entries j).indx)
              shared := w.shared && ((v.view a).entries i).indx ≠ 5 })) := by
  unfold fdel
  by_cases hfn : ¬s.fnver = true
  · exact Or.inl (by rw [if_pos hfn])
  by_cases ha : ¬v.opens a = true
  · exact Or.inl (by rw [if_neg hfn, if_pos ha])
  rw [if_neg hfn, if_neg ha]
  dsimp only
  rcases hscan : search (v.view a) s true (v.view a).size 0 with _ | i
  · exact Or.inl rfl
  refine Or.inr ⟨i, not_not.mp ha, rfl, ?_⟩
  dsimp only
  by_cases hdir : last = true ∧ v.isDir ((v.view a).entries i).indx = true
  · rw [if_pos hdir]
    rcases hopn : search v.mfcb ⟨((v.view a).entries i).name, ((v.view a).entries i).ver, true⟩
      false v.mfcb.size 0 with _ | j
    · exact Or.inl rfl
    dsimp only
    by_cases hj : ¬v.isDir (v.mfcb.entries j).indx = true
    · exact Or.inl (by rw [if_pos hj])
    by_cases hne : ¬empty (v.dirs (v.mfcb.entries j).indx) = true
    · exact Or.inl (by rw [if_neg hj, if_pos hne])
    rw [if_neg hj, if_neg hne]
    refine Or.inr (Or.inr ⟨hdir.1, hdir.2, j, rfl, not_not.mp hj, _, rfl, ?_⟩)
    by_cases ho : o = .fail
    · exact Or.inl (by rw [if_pos ho])
    · exact Or.inr (by rw [if_neg ho])
  · rw [if_neg hdir]
    exact Or.inr (Or.inl rfl)

end Ops

end Vol

/-! ## Runs -/

/-- An operation on the directories of a volume. `NEWINO` and `FWRITE` choose the number and
the outcome, and the index file the number of links. -/
inductive Op (N : Type u)
  | fmake (s : Spec N) (ino : ℕ) (o : Outcome) (a : At)
  | mkdir (name : N) (ino : ℕ) (o : Outcome)
  | fren (old new : Spec N) (o : Outcome) (a : At)
  | fdel (s : Spec N) (last : Bool) (o : Outcome) (a : At)

/-- The directory has a version of the name. -/
def Dir.Has (d : Dir N) (name : N) (ver : Fin 65536) : Prop :=
  ∃ i, d.Used i ∧ (d.entries i).name = name ∧ (d.entries i).ver = ver

/-- When an operation does as it should. A version that is not given comes from the directory as
`GETDIR` has it, and `FREN` does not look at the limit. What `OPNDIR` finds for `FDEL` is an entry
of the master directory. -/
def Op.Careful [DecidableEq N] (v : Vol N) : Op N → Prop
  | fmake s _ _ a => s.vmode = false → ∀ ver, (v.target a).Has s.name ver →
    ∃ ver' ≥ ver, (v.view a).Has s.name ver'
  | mkdir _ _ _ => True
  | fren old new _ a => new.vmode = false → (v.view a).Has old.name old.ver →
    ¬(v.view a).Has new.name 65534
  | fdel s last _ a => last = true → ∀ i, (v.view a).Used i → fcbcmp s true ((v.view a).entries i) →
    v.isDir ((v.view a).entries i).indx = true →
    ∀ j, search v.mfcb s false v.mfcb.size 0 = some j → j ≤ (v.view a).size

section Steps

variable [DecidableEq N] (valid : N → Bool)

def machine : Machine (Op N) (Vol N) where
  run
    | .fmake s ino o a, v => (v.fmake valid s ino o a).2
    | .mkdir name ino o, v => (v.mkdir valid name ino o).2
    | .fren old new o a, v => (v.fren valid old new o a).2
    | .fdel s last o a, v => (v.fdel s last o a).2
  Ready _ _ := True

/-- A version that is not given is greater than all there are. -/
def Op.Newest (v : Vol N) : Op N → Prop
  | .fmake s ino o a => s.vmode = false → ∀ ver, (v.fmake valid s ino o a).1 = .ok ver →
    ∀ ver', (v.target a).Has s.name ver' → ver' < ver
  | _ => True

variable {valid} {v : Vol N} {ino : ℕ} {o : Outcome} {a : At}

namespace Vol

theorem Sound.fmake (valid : N → Bool) (ino : ℕ) (o : Outcome) (a : At) (h : v.Sound) (s : Spec N) :
    (v.fmake valid s ino o a).2.Sound := by
  rcases fmake_cases valid v ino o a s with
    ⟨e, heq⟩ | ⟨fvers, dirpos, ver, hver, ha, hscan, hnew, heq⟩
  · rw [heq]
    exact h
  have hview := h.view ha
  have hi : dirpos.getD (v.view a).size ≤ (v.view a).size := by
    cases dirpos with
    | none => exact le_rfl
    | some q =>
      rcases mkf2_dirpos hscan rfl with hq | hq
      · cases hq
      · exact (by omega : q ≤ (v.view a).size)
  have hfresh : (v.view a).Fresh (dirpos.getD (v.view a).size) ⟨ino, s.name, ver⟩ := by
    intro _
    cases hs : s.vmode with
    | true =>
      rw [newVer_explicit hs] at hnew
      cases hnew
      exact ⟨⟨pos_of_ne_zero (vmode_ne hs), lt_of_ne hver⟩, fun j hj _ =>
        mkf2_explicit hscan hs j (Nat.zero_le j) (by have := hj.1; omega) hj.2⟩
    | false =>
      have hlt : fvers < 65535 := hview.fvers_lt ((mkf2_fvers hscan).imp_right
        fun ⟨i, hi, hused, _, hver⟩ => ⟨i, hi, hused, hver⟩)
      obtain ⟨hgt, hlim⟩ := newVer_next hs hlt hnew
      refine ⟨⟨(Fin.zero_le fvers).trans_lt hgt, hlim⟩, fun j hj _ hname => ?_⟩
      have hle := (mkf2_newest hscan hs).2 j (Nat.zero_le j) (by have := hj.1; omega) hj.2 hname
      exact (hle.trans_lt hgt).ne
  rw [heq]
  have hw := h.wrdir (o := o) ha hi hfresh
  refine ⟨fun n hn => hw.dirs n ?_, hw.mfcb, hw.size, hw.entries⟩
  by_cases hne : n = ino
  · simp [hne] at hn
  · rw [isDir_wrdir]
    simpa [Function.update_of_ne hne] using hn

theorem Sound.mkdir (h : v.Sound) (name : N) : (v.mkdir valid name ino o).2.Sound := by
  have hf := h.fmake valid ino o (.inode 5) ⟨name, 1, true⟩
  unfold Vol.mkdir
  split
  next e w heq =>
    rw [heq] at hf
    exact hf
  next ver w heq =>
    rw [heq] at hf
    refine hf.replace (fun k hk hdir => ?_) fun _ => ⟨fun i j hi => ?_, fun i hi => ?_⟩
    · simpa [Function.update_of_ne hk] using hdir
    · exact absurd hi.1 (Nat.not_lt_zero i)
    · exact absurd hi.1 (Nat.not_lt_zero i)

theorem Sound.fren (h : v.Sound) {old new : Spec N} (hc : (Op.fren old new o a).Careful v) :
    (v.fren valid old new o a).2.Sound := by
  rcases fren_cases valid v o a old new with
    heq | ⟨fvers, dirpos, ino, hver, ha, hscan, heq⟩
  · rw [heq]
    exact h
  have hview := h.view ha
  rcases fren2_found hscan rfl with hq | ⟨hi, hused, -, hold⟩
  · cases hq
  have hpos : (v.view a).Used dirpos := ⟨by omega, hused⟩
  have hfresh : (v.view a).Fresh dirpos
      ⟨ino, new.name, if new.vmode then new.ver else fvers + 1⟩ := by
    intro _
    cases hs : new.vmode with
    | true =>
      exact ⟨⟨pos_of_ne_zero (vmode_ne hs), lt_of_ne hver⟩, fun j hj _ =>
        fren2_explicit hscan hs j (Nat.zero_le j) (by have := hj.1; omega) hj.2⟩
    | false =>
      have hhas := hc hs ⟨dirpos, hpos, (fcbcmp_iff.mp hold).1.symm,
        ((fcbcmp_iff.mp hold).2 rfl).symm⟩
      have hlt : fvers < 65535 := hview.fvers_lt ((fren2_fvers hscan).imp_right
        fun ⟨i, hi, hused, _, hver⟩ => ⟨i, hi, hused, hver⟩)
      have hne : fvers ≠ 65534 := by
        rintro rfl
        rcases fren2_fvers hscan with h0 | ⟨i, hi, hu, hname, hver⟩
        · cases h0
        · exact hhas ⟨i, ⟨by omega, hu⟩, hname, hver⟩
      have hgt := lt_succ hlt
      refine ⟨⟨(Fin.zero_le fvers).trans_lt hgt, succ_lt hlt hne⟩, fun j hj _ hname => ?_⟩
      have hle := (fren2_newest hscan hs).2 j (Nat.zero_le j) (by have := hj.1; omega) hj.2 hname
      exact (hle.trans_lt hgt).ne
  rw [heq]
  exact h.wrdir ha (by omega) hfresh

theorem Sound.fdel (h : v.Sound) {s : Spec N} {last : Bool}
    (hc : (Op.fdel s last o a).Careful v) : (v.fdel s last o a).2.Sound := by
  rcases fdel_cases v o a s last with heq | ⟨i, ha, hscan, hres⟩
  · rw [heq]
    exact h
  obtain ⟨hi, hused, hcmp⟩ := search_some hscan
  rcases hres with heq | heq | ⟨hlast, hdir, j, hopn, hj, w, rfl, heq⟩
  · rw [heq]
    exact h
  · rw [heq]
    exact h.wrdir ha (by omega) (fresh_unused rfl)
  have hslot : j ≤ (v.view a).size := by
    exact hc hlast i ⟨by omega, hused⟩ hcmp hdir j
      ((search_congr (fcbcmp_iff.mp hcmp).1).trans hopn)
  have hw := h.wrdir (o := o) ha hslot (fresh_unused (e := { v.mfcb.entries j with indx := 0 }) rfl)
  rcases heq with heq | heq <;> rw [heq]
  · exact hw
  · refine hw.replace (fun k _ hk => hk) fun _ => hw.dirs _ ?_
    rw [isDir_wrdir]
    exact hj

/-- What one operation preserves -/
theorem Sound.run (h : v.Sound) {op : Op N} (hc : op.Careful v) :
    ((machine valid).run op v).Sound := by
  cases op with
  | fmake s ino o a => exact h.fmake valid ino o a s
  | mkdir name ino o => exact h.mkdir name
  | fren old new o a => exact h.fren hc
  | fdel s last o a => exact h.fdel hc

theorem Sound.newest (h : v.Sound) {op : Op N} (hc : op.Careful v) : op.Newest valid v := by
  cases op with
  | fmake s ino o a =>
    intro hs ver hok ver' hhas
    rcases fmake_cases valid v ino o a s with
      ⟨e, heq⟩ | ⟨fvers, dirpos, ver₁, -, ha, hscan, hnew, heq⟩
    · rw [heq] at hok
      cases hok
    rw [heq] at hok
    cases hok
    have hlt : fvers < 65535 := (h.view ha).fvers_lt ((mkf2_fvers hscan).imp_right
      fun ⟨i, hi, hused, _, hver⟩ => ⟨i, hi, hused, hver⟩)
    obtain ⟨ver₂, hle, i, hi, hname, rfl⟩ := hc hs ver' hhas
    calc ver' ≤ ((v.view a).entries i).ver := hle
      _ ≤ fvers := (mkf2_newest hscan hs).2 i (Nat.zero_le i) (by have := hi.1; omega) hi.2 hname
      _ < ver := (newVer_next hs hlt hnew).1
  | mkdir => trivial
  | fren => trivial
  | fdel => trivial

theorem Sound.reach {v' : Vol N} (h : v.Sound)
    (hrun : Reach ((machine valid).Step fun op v => op.Careful v) v v') : v'.Sound := by
  induction hrun with
  | refl => exact h
  | tail _ hstep ih =>
    obtain ⟨op, -, hc, rfl⟩ := hstep
    exact ih.run hc

end Vol

variable (valid)

/-- In a run of careful operations, directories stay well formed, and a version that is not given
is greater than all there are. -/
theorem unique_of_careful {v v' : Vol N} (hm : v.Mounted) (hu : v.Unique)
    (hrun : Reach ((machine valid).Step fun op v => op.Careful v) v v') :
    v'.Unique ∧ ∀ op : Op N, op.Careful v' → op.Newest valid v' := by
  have h := (hm.sound hu).reach hrun
  exact ⟨h.dirs, fun op hc => h.newest hc⟩

end Steps

/-! ## A rename at the limit -/

/-- A volume with the master directory only, and two files in it -/
def twoFiles (ver : Fin 65536) : Vol String :=
  let d : Dir String := ⟨fun i => if i = 0 then ⟨6, "A.TXT", ver⟩ else ⟨7, "B.TXT", 1⟩, 2⟩
  ⟨fun _ => d, fun n => n = 5, d, true⟩

theorem twoFiles_mounted (ver : Fin 65536) : (twoFiles ver).Mounted := ⟨rfl, rfl, rfl⟩

theorem twoFiles_unique {ver : Fin 65536} (h : 0 < ver ∧ ver < 65535) :
    (twoFiles ver).Unique := by
  intro n _
  refine ⟨fun i j hi hj hname _ => ?_, fun i hi => ?_⟩
  · have hi := hi.1
    have hj := hj.1
    simp only [twoFiles] at hi hj hname
    split at hname <;> split at hname
    · omega
    · simp at hname
    · simp at hname
    · omega
  · simp only [twoFiles]
    split
    · exact h
    · exact ⟨by decide, by decide⟩

/-- `FREN` gives a file version 65535. -/
theorem not_unique_limit : ¬∀ v v' : Vol String, v.Mounted → v.Unique →
    Reach ((machine fun _ => true).Step fun _ _ => True) v v' →
    v'.Unique ∧ ∀ op : Op String, op.Newest (fun _ => true) v' := by
  intro h
  have hrun : Reach ((machine fun _ => true).Step fun _ _ => True) (twoFiles 65534)
      ((twoFiles 65534).fren (fun _ => true) ⟨"B.TXT", 1, true⟩ ⟨"A.TXT", 0, false⟩ .stay .mfcb).2 :=
    .single ⟨.fren ⟨"B.TXT", 1, true⟩ ⟨"A.TXT", 0, false⟩ .stay .mfcb, trivial, trivial, rfl⟩
  have hv := (h _ _ (twoFiles_mounted _) (twoFiles_unique (by decide)) hrun).1 5 rfl
  have hlt := (hv.range 1 ⟨by decide, by decide⟩).2
  revert hlt
  decide

/-- A new version of a file is made. -/
theorem unique_newFile :
    ((twoFiles 1).fmake (fun _ => true) ⟨"A.TXT", 0, false⟩ 8 .grow .mfcb).2.Unique :=
  (unique_of_careful (fun _ => true) (twoFiles_mounted 1) (twoFiles_unique (by decide))
    (.single ⟨.fmake ⟨"A.TXT", 0, false⟩ 8 .grow .mfcb, trivial,
      fun _ ver h => ⟨ver, le_rfl, h⟩, rfl⟩)).1

end RSX280.FileDirs
