import RSX280.Mount

/-!
# The life of FCBs and of a mounted volume

The log of events says which control blocks are allocated and which FCBs are open. It is legal if
each event is of a block for which it may happen.
-/

namespace RSX280.Mount

/-! ## The log -/

/-- The control block is allocated. -/
def Live : List Event → ℕ → Prop
  | [], _ => False
  | .newvcb a :: l, b | .getfcb a :: l, b => b = a ∨ Live l b
  | .frevcb a :: l, b | .frefcb a :: l, b => b ≠ a ∧ Live l b
  | .close _ :: l, b | .delete _ _ :: l, b | .unmount _ :: l, b => Live l b

/-- The FCB is allocated, and has not been closed. -/
def Open : List Event → ℕ → Prop
  | [], _ => False
  | .getfcb a :: l, b => b = a ∨ Open l b
  | .close a :: l, b | .frefcb a :: l, b => b ≠ a ∧ Open l b
  | .newvcb _ :: l, b | .frevcb _ :: l, b | .delete _ _ :: l, b | .unmount _ :: l, b => Open l b

/-- Each event comes when it may: a block that is allocated is a new one, one that is freed is
allocated, an FCB is closed once, a file that goes is temporary, and a volume is dismounted while
it has its control block. -/
def Legal : List Event → Prop
  | [] => True
  | .newvcb a :: l | .getfcb a :: l => ¬Live l a ∧ Legal l
  | .frevcb a :: l | .frefcb a :: l | .unmount a :: l => Live l a ∧ Legal l
  | .close a :: l => Open l a ∧ Legal l
  | .delete _ temp :: l => temp = true ∧ Legal l

theorem Legal.of_append {l l' : List Event} (h : Legal (l' ++ l)) : Legal l := by
  induction l' with
  | nil => exact h
  | cons e l' ih =>
    cases e <;> exact ih h.2

/-! ## A mounted volume -/

/-- The files that are open: all FCBs but that of the master directory -/
def State.files (s : State) : List ℕ := s.vcb.fcbl.filter (· ≠ s.vcb.mfcb)

/-- What holds of a volume between two requests: the control blocks are those that are allocated,
and an FCB is in the list until it is closed. -/
structure Up (s : State) : Prop where
  legal : Legal s.log
  mvtbl : s.mvtbl = true
  mfcb_ne : s.vcb.mfcb ≠ 0
  mfcb_mem : s.vcb.mfcb ∈ s.vcb.fcbl
  nodup : s.vcb.fcbl.Nodup
  addr : s.vcb.addr ∉ s.vcb.fcbl
  live : ∀ a, Live s.log a ↔ a = s.vcb.addr ∨ a ∈ s.vcb.fcbl
  opened : ∀ a, Open s.log a ↔ a ∈ s.vcb.fcbl
  temp : ∀ a ∈ s.vcb.fcbl, (s.fcb a).attr.temp = true →
    (s.inode (s.fcb a).inode).attr.temp = true

/-- No volume -/
structure Down (s : State) : Prop where
  legal : Legal s.log
  mvtbl : s.mvtbl = false
  dmo : s.dmo = false
  live : ∀ a, ¬Live s.log a
  opened : ∀ a, ¬Open s.log a

/-- The kernel gives blocks that are not allocated. -/
def Env.Fresh (env : Env) : Prop := ∀ l a, env.alloc l = some a → a ≠ 0 ∧ ¬Live l a

/-! ## Closing -/

variable {env : Env} {s s' : State} {a ino n : ℕ}

/-- A deletion, or nothing: it does not say anything about blocks. -/
def Deletes (l : List Event) : Prop := l = [] ∨ ∃ ino, l = [.delete ino true]

section Deletes

variable {l log : List Event} {b : ℕ}

theorem Deletes.live (h : Deletes l) : Live (l ++ log) b ↔ Live log b := by
  rcases h with rfl | ⟨ino, rfl⟩ <;> rfl

theorem Deletes.open (h : Deletes l) : Open (l ++ log) b ↔ Open log b := by
  rcases h with rfl | ⟨ino, rfl⟩ <;> rfl

theorem Deletes.legal (h : Deletes l) : Legal (l ++ log) ↔ Legal log := by
  rcases h with rfl | ⟨ino, rfl⟩
  · rfl
  · simp [Legal]

end Deletes

/-- A state in which an FCB has been closed and freed -/
def State.closed (s : State) (a : ℕ) (attr : Attr) (inode : ℕ → Inode) (l : List Event) : State :=
  { s with
    vcb := { s.vcb with fcbl := s.vcb.fcbl.erase a }
    fcb := Function.update s.fcb a { s.fcb a with attr := attr }
    inode := inode
    log := .frefcb a :: (l ++ .close a :: s.log) }

/-- A temporary file is deleted without `OPNDIR`. -/
theorem fdl0_eq (env : Env) (f : ℕ → State → Option State) (h : (s.inode ino).attr.temp = true) :
    ∃ inode l, fdl0 env f ino s = some { s with inode := inode, log := l ++ s.log } ∧
      (∀ i, (inode i).attr = (s.inode i).attr) ∧ Deletes l := by
  have hdir : (s.inode ino).attr.dir = false := by
    simp only [Attr.temp, Bool.and_eq_true, Bool.not_eq_true'] at h
    exact h.2
  have hattr : ∀ c i, (Function.update s.inode ino ⟨(s.inode ino).attr, c⟩ i).attr =
      (s.inode i).attr := by
    intro c i
    by_cases hi : i = ino
    · rw [hi, Function.update_self]
    · rw [Function.update_of_ne hi]
  unfold fdl0
  split
  · exact ⟨s.inode, [], rfl, fun _ => rfl, Or.inl rfl⟩
  · dsimp only
    rw [hdir, h]
    split
    · exact ⟨_, [], rfl, hattr _, Or.inl rfl⟩
    · exact ⟨_, [.delete ino true], rfl, hattr _, Or.inr ⟨ino, rfl⟩⟩

/-- `FCLOSE` up to the place where `FREFCB` looks at `US.DMO` -/
theorem fclose_eq (env : Env) (n : ℕ) (hmem : a ∈ s.vcb.fcbl)
    (ht : (s.fcb a).attr.temp = true → (s.inode (s.fcb a).inode).attr.temp = true) :
    ∃ attr inode l, (∀ i, (inode i).attr = (s.inode i).attr) ∧ Deletes l ∧
      fclose env (n + 1) a s =
        if s.dmo then (dismnt (fclose env n) (s.closed a attr inode l)).map Prod.snd
        else some (s.closed a attr inode l) := by
  have hfree : ∀ inode l, frefcb env (fun s => (dismnt (fclose env n) s).map Prod.snd) a
      { s with inode := inode, log := l ++ .close a :: s.log } =
        if s.dmo then (dismnt (fclose env n) (s.closed a (env.size (l ++ .close a :: s.log))
          inode l)).map Prod.snd
        else some (s.closed a (env.size (l ++ .close a :: s.log)) inode l) := by
    intro inode l
    exact if_neg (not_not.mpr hmem)
  by_cases htemp : (s.fcb a).attr.temp = true
  · obtain ⟨inode, l, hdel, hattr, hl⟩ :=
      fdl0_eq env (fclose env n) (s := s.emit (.close a)) (ht htemp)
    refine ⟨env.size (l ++ .close a :: s.log), inode, l, hattr, hl, ?_⟩
    rw [← hfree]
    simp only [fclose, State.emit, htemp, if_true]
    simp only [State.emit] at hdel
    rw [hdel]
    rfl
  · refine ⟨env.size ([] ++ .close a :: s.log), s.inode, [], fun _ => rfl, Or.inl rfl, ?_⟩
    rw [← hfree]
    simp only [fclose, State.emit, htemp]
    rfl

section Closed

variable {attr : Attr} {inode : ℕ → Inode} {l : List Event} {b : ℕ}

theorem live_closed (hl : Deletes l) :
    Live (s.closed a attr inode l).log b ↔ b ≠ a ∧ Live s.log b :=
  and_congr_right fun _ => hl.live

theorem open_closed (hl : Deletes l) :
    Open (s.closed a attr inode l).log b ↔ b ≠ a ∧ Open s.log b := by
  refine and_congr_right fun hne => hl.open.trans ?_
  simp only [Open, hne, ne_eq, not_false_eq_true, true_and]

theorem legal_closed (hl : Deletes l) (h : Legal s.log) (hlive : Live s.log a)
    (hopen : Open s.log a) : Legal (s.closed a attr inode l).log :=
  ⟨hl.live.mpr hlive, hl.legal.mpr ⟨hopen, h⟩⟩

theorem Up.closed (h : Up s) (hmem : a ∈ s.vcb.fcbl) (hne : a ≠ s.vcb.mfcb)
    (hattr : ∀ i, (inode i).attr = (s.inode i).attr) (hl : Deletes l) :
    Up (s.closed a attr inode l) where
  legal := legal_closed hl h.legal ((h.live a).mpr (Or.inr hmem)) ((h.opened a).mpr hmem)
  mvtbl := h.mvtbl
  mfcb_ne := h.mfcb_ne
  mfcb_mem := (List.mem_erase_of_ne hne.symm).mpr h.mfcb_mem
  nodup := h.nodup.erase a
  addr hmem := h.addr (List.mem_of_mem_erase hmem)
  live b := by
    rw [live_closed hl, h.live b]
    simp only [State.closed, h.nodup.mem_erase_iff]
    have : b = s.vcb.addr → b ≠ a := by
      rintro rfl rfl
      exact h.addr hmem
    tauto
  opened b := by
    rw [open_closed hl, h.opened b]
    exact h.nodup.mem_erase_iff.symm
  temp b hb := by
    have hb := h.nodup.mem_erase_iff.mp hb
    simp only [State.closed, Function.update_of_ne hb.1, hattr]
    exact h.temp b hb.2

end Closed

/-! ## Files -/

theorem chkopn_iff : chkopn s = true ↔ s.files = [] := by
  simp [chkopn, State.files, List.filter_eq_nil_iff]

theorem mem_files {b : ℕ} : b ∈ s.files ↔ b ∈ s.vcb.fcbl ∧ b ≠ s.vcb.mfcb := by
  simp [State.files]

theorem Up.files_closed (h : Up s) (attr : Attr) (inode : ℕ → Inode) (l : List Event) :
    (s.closed a attr inode l).files = s.files.erase a := by
  have hf : s.files.Nodup := h.nodup.filter _
  rw [hf.erase_eq_filter]
  simp only [State.files, State.closed, h.nodup.erase_eq_filter, List.filter_filter]
  exact List.filter_congr fun b _ => Bool.and_comm _ _

theorem dismnt_of_files {f : ℕ → State → Option State} (hf : s.files ≠ []) (hd : s.dmo = true) :
    dismnt f s = some (.error .dmop, s) := by
  unfold dismnt
  rw [if_pos (mt chkopn_iff.mp hf), if_pos hd]

/-- What does not change when files are opened and closed -/
structure Kept (s s' : State) : Prop where
  addr : s'.vcb.addr = s.vcb.addr
  mfcb : s'.vcb.mfcb = s.vcb.mfcb
  dmo : s'.dmo = s.dmo
  lun : s'.lun = s.lun

theorem Kept.trans {s'' : State} (h : Kept s s') (h' : Kept s' s'') : Kept s s'' :=
  ⟨h'.addr.trans h.addr, h'.mfcb.trans h.mfcb, h'.dmo.trans h.dmo, h'.lun.trans h.lun⟩

theorem eq_singleton_of_erase {l : List ℕ} (hmem : a ∈ l) (h : l.erase a = []) : l = [a] := by
  have := List.perm_cons_erase hmem
  rw [h] at this
  exact List.perm_singleton.mp this

/-- A file is closed that is not the last one of a volume to be dismounted. -/
theorem Up.fclose (h : Up s) (env : Env) (n : ℕ) (hmem : a ∈ s.files) (hd : s.dmo = false ∨ s.files ≠ [a]) :
    ∃ s', fclose env (n + 1) a s = some s' ∧ Up s' ∧ Kept s s' ∧
      s'.vcb.fcbl = s.vcb.fcbl.erase a ∧ s'.files = s.files.erase a := by
  obtain ⟨hmem', hne⟩ := mem_files.mp hmem
  obtain ⟨attr, inode, l, hattr, hl, heq⟩ := fclose_eq env n hmem' (h.temp a hmem')
  have hfiles := h.files_closed (a := a) attr inode l
  refine ⟨s.closed a attr inode l, ?_, h.closed hmem' hne hattr hl, ⟨rfl, rfl, rfl, rfl⟩, rfl, hfiles⟩
  rw [heq]
  rcases hd with hd | hd
  · rw [if_neg (by simp [hd])]
  · split
    next hdmo =>
      have hne : (s.closed a attr inode l).files ≠ [] := by
        rw [hfiles]
        exact mt (eq_singleton_of_erase hmem) hd
      rw [dismnt_of_files hne hdmo]
      rfl
    next => rfl

/-! ## Opening -/

theorem getfcb_eq {s₁ : State} (h : getfcb env s = some (a, s₁)) :
    env.alloc s.log = some a ∧ s₁.vcb = { s.vcb with fcbl := a :: s.vcb.fcbl } ∧
      s₁.log = .getfcb a :: s.log ∧ (∀ b ≠ a, s₁.fcb b = s.fcb b) ∧ s₁.inode = s.inode ∧
      s₁.mvtbl = s.mvtbl ∧ s₁.dmo = s.dmo ∧ s₁.lun = s.lun := by
  obtain ⟨b, hb, heq⟩ := Option.map_eq_some_iff.mp h
  cases heq
  exact ⟨hb, rfl, rfl, fun c hc => Function.update_of_ne hc _ _, rfl, rfl, rfl, rfl⟩

/-- A new FCB for a file -/
theorem Up.newfcb {s₁ : State} (h : Up s) (henv : env.Fresh) (hget : getfcb env s = some (a, s₁))
    (ino : ℕ) (m : Mode) :
    Up (setfcb s₁ a ino m) ∧ Kept s (setfcb s₁ a ino m) ∧ a ≠ 0 ∧ a ∉ s.vcb.fcbl ∧
      (setfcb s₁ a ino m).vcb.fcbl = a :: s.vcb.fcbl := by
  obtain ⟨halloc, hvcb, hlog, hfcb, hinode, hmv, hdmo, hlun⟩ := getfcb_eq hget
  obtain ⟨hne0, hnew⟩ := henv _ _ halloc
  rw [h.live a, not_or] at hnew
  refine ⟨⟨?_, ?_, ?_, ?_, ?_, ?_, fun b => ?_, fun b => ?_, fun b hb => ?_⟩,
    ⟨?_, ?_, hdmo, hlun⟩, hne0, hnew.2, ?_⟩
  · simp only [setfcb, hlog]
    exact ⟨by rw [h.live a, not_or]; exact hnew, h.legal⟩
  · exact hmv.trans h.mvtbl
  · simp only [setfcb, hvcb]
    exact h.mfcb_ne
  · simp only [setfcb, hvcb]
    exact List.mem_cons_of_mem _ h.mfcb_mem
  · simp only [setfcb, hvcb]
    exact List.nodup_cons.mpr ⟨hnew.2, h.nodup⟩
  · simp only [setfcb, hvcb]
    exact List.not_mem_cons_of_ne_of_not_mem (Ne.symm hnew.1) h.addr
  · simp only [setfcb, hvcb, hlog, Live, h.live b, List.mem_cons]
    tauto
  · simp only [setfcb, hvcb, hlog, Open, h.opened b, List.mem_cons]
  · simp only [setfcb, hvcb, hinode] at hb ⊢
    by_cases hba : b = a
    · subst hba
      simp [Attr.temp]
    · rw [Function.update_of_ne hba, hfcb b hba]
      exact h.temp b ((List.mem_cons.mp hb).resolve_left hba)
  · simp only [setfcb, hvcb]
  · simp only [setfcb, hvcb]
  · simp only [setfcb, hvcb]

/-- The index file changes, but not which entries are temporary. -/
theorem Up.inode {inode : ℕ → Inode} {l : List Event} (h : Up s) (hl : Deletes l)
    (hattr : ∀ i, (s.inode i).attr.temp = true → (inode i).attr.temp = true) :
    Up { s with inode := inode, log := l ++ s.log } where
  legal := hl.legal.mpr h.legal
  mvtbl := h.mvtbl
  mfcb_ne := h.mfcb_ne
  mfcb_mem := h.mfcb_mem
  nodup := h.nodup
  addr := h.addr
  live a := hl.live.trans (h.live a)
  opened a := hl.open.trans (h.opened a)
  temp a ha ht := hattr _ (h.temp a ha ht)

theorem opndir_ok {s₂ : State} (h : opndir env s ino = .ok (a, s₂)) :
    ∃ s₁, getfcb env s = some (a, s₁) ∧ s₂ = setfcb s₁ a ino ⟨true, true, true⟩ := by
  unfold opndir at h
  split at h
  next => cases h
  next =>
    rcases hfcb : getfcb env s with _ | ⟨b, s₁⟩
    · rw [hfcb] at h
      cases h
    · rw [hfcb] at h
      cases h
      exact ⟨s₁, rfl, rfl⟩

/-- What `GETDIR` returns: the directory that has been opened, if any -/
theorem Up.getdir {dir : Option ℕ} {r : Option ℕ × State} (h : Up s) (henv : env.Fresh)
    (hget : getdir env dir s = .ok r) :
    s.dmo = false ∧ Up r.2 ∧ Kept s r.2 ∧ r.2.vcb.fcbl = r.1.toList ++ s.vcb.fcbl ∧
      ∀ d ∈ r.1, d ∉ s.vcb.fcbl := by
  unfold Mount.getdir at hget
  split at hget
  next => cases hget
  next hdmo =>
    have hdmo : s.dmo = false := by simpa using hdmo
    cases dir with
    | none =>
      cases hget
      exact ⟨hdmo, h, ⟨rfl, rfl, rfl, rfl⟩, rfl, by simp⟩
    | some ino =>
      dsimp only at hget
      rcases hopn : opndir env s ino with e | ⟨d, s₂⟩
      · rw [hopn] at hget
        cases hget
      · rw [hopn] at hget
        cases hget
        obtain ⟨s₁, hfcb, rfl⟩ := opndir_ok hopn
        obtain ⟨hup, hk, -, hnew, hlist⟩ := h.newfcb henv hfcb ino ⟨true, true, true⟩
        refine ⟨hdmo, hup, hk, hlist, ?_⟩
        simpa using hnew

theorem Up.clsdir {dir : Option ℕ} (h : Up s) (env : Env) (n : ℕ) (l₁ l₂ : List ℕ)
    (hdmo : s.dmo = false) (hl : s.vcb.fcbl = l₁ ++ (dir.toList ++ l₂)) (hm : s.vcb.mfcb ∉ dir) (h₁ : ∀ d ∈ dir, d ∉ l₁) :
    ∃ s', clsdir env (n + 1) dir s = some s' ∧ Up s' ∧ Kept s s' ∧ s'.vcb.fcbl = l₁ ++ l₂ := by
  cases dir with
  | none => exact ⟨s, rfl, h, ⟨rfl, rfl, rfl, rfl⟩, hl⟩
  | some d =>
    have hmem : d ∈ s.files := by
      refine mem_files.mpr ⟨?_, ?_⟩
      · simp [hl]
      · rintro rfl
        exact hm rfl
    obtain ⟨s', heq, hup, hk, hlist, -⟩ := h.fclose env n hmem (Or.inl hdmo)
    refine ⟨s', heq, hup, hk, ?_⟩
    rw [hlist, hl, List.erase_append_right _ (h₁ d rfl)]
    simp

end RSX280.Mount
