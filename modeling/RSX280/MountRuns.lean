import RSX280.MountLife
import RSX280.Memory

/-!
# Runs of a unit that is mounted and dismounted

Closing the last file of a volume that is to be dismounted closes the FCB of the master directory,
and `FREFCB` then starts to dismount once more.
-/

namespace RSX280.Mount

variable {env : Env} {s s' : State} {a ino n : ℕ}

/-! ## Files and logical units -/

/-- The files are those of the logical units, each of one. -/
structure Units (s : State) : Prop where
  mem : ∀ a, a ∈ s.files ↔ a ≠ 0 ∧ ∃ l, s.lun l = a
  inj : ∀ l l', s.lun l = s.lun l' → s.lun l ≠ 0 → l = l'

/-- A file more, or not, before its address is stored -/
structure Opens (s s' : State) (r : Except Err ℕ) : Prop where
  up : Up s'
  kept : Kept s s'
  fcbl : s'.vcb.fcbl = (match r with | .ok a => [a] | .error _ => []) ++ s.vcb.fcbl
  new : ∀ a, r = .ok a → a ≠ 0 ∧ a ∉ s.vcb.fcbl

theorem Opens.error {e : Err} (hup : Up s') (hk : Kept s s') (hl : s'.vcb.fcbl = s.vcb.fcbl) :
    Opens s s' (.error e) :=
  ⟨hup, hk, hl, fun _ h => nomatch h⟩

theorem Up.fopen (h : Up s) (henv : env.Fresh) (n : ℕ) (dir : Option ℕ) (file : Except Err ℕ)
    (m : Mode) :
    ∃ r s', fopen env (n + 1) dir file m s = some (r, s') ∧ Opens s s' r := by
  unfold Mount.fopen
  rcases hget : Mount.getdir env dir s with e | ⟨dir, s₁⟩
  · exact ⟨_, s, rfl, .error h ⟨rfl, rfl, rfl, rfl⟩ rfl⟩
  obtain ⟨hdmo, hup, hk, hlist, hnew⟩ := h.getdir henv hget
  dsimp only at hup hk hlist hnew ⊢
  have hm : s.vcb.mfcb ∉ dir := fun hm => hnew _ hm h.mfcb_mem
  obtain ⟨s₂, hcls, hup₂, hk₂, hlist₂⟩ := hup.clsdir env n [] _
    (hk.dmo.trans hdmo) hlist (by rw [hk.mfcb]; exact hm) (by simp)
  have hfail : ∀ e : Err, ∃ r s', ((Mount.clsdir env (n + 1) dir s₁).map fun s => (.error e, s)) =
      some (r, s') ∧ Opens s s' r := by
    intro e
    rw [hcls]
    exact ⟨_, s₂, rfl, .error hup₂ (hk.trans hk₂) hlist₂⟩
  rcases file with e | ino
  · exact hfail e
  dsimp only
  split
  · exact hfail .flck
  rcases hfcb : getfcb env s₁ with _ | ⟨a, s₃⟩
  · exact hfail .nomem
  obtain ⟨hup₃, hk₃, hne0, hnew₃, hlist₃⟩ := hup.newfcb henv hfcb ino m
  rw [hlist] at hlist₃ hnew₃
  rw [List.mem_append, not_or] at hnew₃
  have hda : ∀ d ∈ dir, d ∉ [a] := by
    rintro d hd hda
    rw [List.mem_singleton.mp hda] at hd
    exact hnew₃.1 (by simpa using hd)
  obtain ⟨s₄, hcls₄, hup₄, hk₄, hlist₄⟩ := hup₃.clsdir env n [a] s.vcb.fcbl
    (hk₃.dmo.trans (hk.dmo.trans hdmo)) hlist₃ (by rw [hk₃.mfcb, hk.mfcb]; exact hm) hda
  dsimp only
  rw [hcls₄]
  refine ⟨.ok a, s₄, rfl, ⟨hup₄, hk.trans (hk₃.trans hk₄), hlist₄, fun b hb => ?_⟩⟩
  cases hb
  exact ⟨hne0, hnew₃.2⟩

theorem Up.fcreat (h : Up s) (henv : env.Fresh) (n ino : ℕ) (ctg : Bool) :
    ∃ r s', fcreat env n ino ctg s = some (r, s') ∧ Opens s s' r := by
  unfold Mount.fcreat
  dsimp only
  generalize hinode : Function.update s.inode ino _ = inode
  have htemp : (inode ino).attr.temp = true := by
    rw [← hinode, Function.update_self]
    rfl
  have hup : Up { s with inode := inode } := by
    refine h.inode (l := []) (Or.inl rfl) fun i hi => ?_
    by_cases hii : i = ino
    · rw [hii]
      exact htemp
    · rw [← hinode, Function.update_of_ne hii]
      exact hi
  rcases hfcb : getfcb env { s with inode := inode } with _ | ⟨a, s₁⟩
  · obtain ⟨inode', l, hdel, hattr, hl⟩ :=
      fdl0_eq env (Mount.fclose env n) (s := { s with inode := inode }) htemp
    dsimp only
    rw [hdel]
    refine ⟨_, _, rfl, .error (hup.inode hl fun i hi => ?_) ⟨rfl, rfl, rfl, rfl⟩ rfl⟩
    rw [hattr i]
    exact hi
  · obtain ⟨hup₁, hk₁, hne0, hnew, hlist⟩ := hup.newfcb henv hfcb ino ⟨true, true, false⟩
    refine ⟨.ok a, _, rfl, ⟨hup₁, ⟨hk₁.addr, hk₁.mfcb, hk₁.dmo, hk₁.lun⟩, hlist, fun b hb => ?_⟩⟩
    cases hb
    exact ⟨hne0, hnew⟩

/-- The logical units do not matter to the control blocks. -/
theorem Up.lun (h : Up s) (lun : ℕ → ℕ) : Up { s with lun := lun } :=
  ⟨h.legal, h.mvtbl, h.mfcb_ne, h.mfcb_mem, h.nodup, h.addr, h.live, h.opened, h.temp⟩

theorem Up.setDmo (h : Up s) (b : Bool) : Up { s with dmo := b } :=
  ⟨h.legal, h.mvtbl, h.mfcb_ne, h.mfcb_mem, h.nodup, h.addr, h.live, h.opened, h.temp⟩

/-- The files after an FCB has been opened or not -/
theorem Opens.files {r : Except Err ℕ} (h : Opens s s' r) (hup : Up s) :
    s'.files = (match r with | .ok a => [a] | .error _ => []) ++ s.files := by
  unfold State.files
  rw [h.fcbl, h.kept.mfcb]
  cases r with
  | error e => rfl
  | ok a =>
    have hne : a ≠ s.vcb.mfcb := fun heq => (h.new a rfl).2 (heq ▸ hup.mfcb_mem)
    rw [List.filter_append]
    simp [hne]

/-- The FCB is stored. -/
theorem Units.stofcb {r : Except Err ℕ} {lun : ℕ} (hu : Units s) (h : Opens s s' r) (hup : Up s)
    (hlun : s.lun lun = 0) : Units (stofcb lun (r, s')) := by
  have hfiles := h.files hup
  have hlun' := h.kept.lun
  cases r with
  | error e =>
    have hsame : Function.update s'.lun lun 0 = s.lun := by
      rw [hlun', ← hlun, Function.update_eq_self]
    refine ⟨fun b => ?_, ?_⟩
    · simp only [Mount.stofcb, hsame]
      exact (congrArg (b ∈ ·) hfiles).to_iff.trans (hu.mem b)
    · simp only [Mount.stofcb, hsame]
      exact hu.inj
  | ok a =>
    obtain ⟨hne0, hnew⟩ := h.new a rfl
    have hold : ∀ l ≠ lun, Function.update s'.lun lun a l = s.lun l := by
      intro l hl
      rw [Function.update_of_ne hl, hlun']
    have hused : ∀ l, s.lun l ≠ a := by
      rintro l rfl
      exact hnew (mem_files.mp ((hu.mem _).mpr ⟨hne0, l, rfl⟩)).1
    refine ⟨fun b => ?_, fun l l' heq hne => ?_⟩
    · refine (congrArg (b ∈ ·) hfiles).to_iff.trans ?_
      simp only [Mount.stofcb, List.singleton_append, List.mem_cons, hu.mem b]
      refine ⟨?_, fun ⟨hb, l, hl⟩ => ?_⟩
      · rintro (rfl | ⟨hb, l, hl⟩)
        · exact ⟨hne0, lun, Function.update_self ..⟩
        · refine ⟨hb, l, ?_⟩
          rw [hold l (by rintro rfl; exact hb (hl.symm.trans hlun))]
          exact hl
      · by_cases hll : l = lun
        · subst hll
          rw [Function.update_self] at hl
          exact Or.inl hl.symm
        · rw [hold l hll] at hl
          exact Or.inr ⟨hb, l, hl⟩
    · simp only [Mount.stofcb] at heq hne
      by_cases hl : l = lun <;> by_cases hl' : l' = lun
      · rw [hl, hl']
      · rw [hl, Function.update_self, hold l' hl'] at heq
        exact absurd heq.symm (hused l')
      · rw [hl', Function.update_self, hold l hl] at heq
        exact absurd heq (hused l)
      · rw [hold l hl, hold l' hl'] at heq
        rw [hold l hl] at hne
        exact hu.inj l l' heq hne

/-- A logical unit gives up its file. -/
theorem Units.close {lun : ℕ} (hu : Units s) (hup : Up s) (hk : Kept s s')
    (hf : s'.files = s.files.erase (s.lun lun)) :
    Units { s' with lun := Function.update s'.lun lun 0 } := by
  have hnd : s.files.Nodup := hup.nodup.filter _
  refine ⟨fun b => ?_, fun l l' heq hne => ?_⟩
  · refine (congrArg (b ∈ ·) hf).to_iff.trans ?_
    rw [hnd.mem_erase_iff, hu.mem b, hk.lun]
    refine ⟨fun ⟨hb, hb0, l, hl⟩ => ⟨hb0, l, ?_⟩, fun ⟨hb0, l, hl⟩ => ?_⟩
    · have hne : l ≠ lun := by
        rintro rfl
        exact hb hl.symm
      simpa only [Function.update_of_ne hne] using hl
    · by_cases hll : l = lun
      · rw [hll] at hl
        simp only [Function.update_self] at hl
        exact absurd hl.symm hb0
      · simp only [Function.update_of_ne hll] at hl
        refine ⟨?_, hb0, l, hl⟩
        rintro rfl
        exact hll (hu.inj l lun hl (hl ▸ hb0))
  · simp only [hk.lun] at heq hne
    by_cases hl : l = lun
    · rw [hl, Function.update_self] at hne
      exact absurd rfl hne
    · rw [Function.update_of_ne hl] at heq hne
      by_cases hl' : l' = lun
      · rw [hl', Function.update_self] at heq
        exact absurd heq hne
      · rw [Function.update_of_ne hl'] at heq
        exact hu.inj l l' heq hne

/-! ## Mounting and dismounting -/

/-- What holds between two requests -/
inductive Sound (s : State) : Prop
  | up (h : Up s) (hu : Units s) (hd : s.dmo = true → s.files ≠ [])
  | down (h : Down s) (hl : ∀ l, s.lun l = 0)

theorem Up.fcbl_eq (h : Up s) (hf : s.files = []) : s.vcb.fcbl = [s.vcb.mfcb] := by
  refine eq_singleton_of_erase h.mfcb_mem ?_
  rw [h.nodup.erase_eq_filter, ← hf]
  exact List.filter_congr fun b _ => by simp [bne, Bool.beq_eq_decide_eq]

/-- A volume without files is dismounted, when it has not been asked for before. -/
theorem Up.dismnt (h : Up s) (env : Env) (n : ℕ) (hf : s.files = []) (hd : s.dmo = false) :
    ∃ r s', dismnt (Mount.fclose env (n + 1)) s = some (r, s') ∧ Down s' ∧ s'.lun = s.lun := by
  obtain ⟨attr, inode, l, -, hl, heq⟩ := fclose_eq env n h.mfcb_mem (h.temp _ h.mfcb_mem)
  rw [if_neg (by simp [hd])] at heq
  have hlist := h.fcbl_eq hf
  have hne : s.vcb.addr ≠ s.vcb.mfcb := by
    intro heq
    exact h.addr (heq ▸ h.mfcb_mem)
  have hlive : ∀ b, Live (s.closed s.vcb.mfcb attr inode l).log b ↔ b = s.vcb.addr := by
    intro b
    rw [live_closed hl, h.live, hlist, List.mem_singleton]
    refine ⟨fun ⟨hb, hor⟩ => hor.resolve_right hb, ?_⟩
    rintro rfl
    exact ⟨hne, Or.inl rfl⟩
  have hopen : ∀ b, ¬Open (s.closed s.vcb.mfcb attr inode l).log b := by
    intro b
    rw [open_closed hl, h.opened, hlist, List.mem_singleton]
    exact fun ⟨hb, heq⟩ => hb heq
  have hlegal : Legal (s.closed s.vcb.mfcb attr inode l).log :=
    legal_closed hl h.legal ((h.live _).mpr (Or.inr h.mfcb_mem)) ((h.opened _).mpr h.mfcb_mem)
  unfold Mount.dismnt
  rw [if_neg (not_not.mpr (chkopn_iff.mpr hf)), if_pos h.mfcb_ne, heq]
  refine ⟨_, _, congrArg some (if_pos ⟨h.mvtbl, rfl⟩), ⟨?_, rfl, rfl, fun b => ?_, hopen⟩, rfl⟩
  · exact ⟨(hlive _).mpr rfl, (hlive _).mpr rfl, hlegal⟩
  · exact fun ⟨hb, hb'⟩ => hb ((hlive b).mp hb')

theorem dismnt_of_open (f : ℕ → State → Option State) (hf : s.files ≠ []) (hd : s.dmo = false) :
    Mount.dismnt f s = some (.error .dmoi, { s with dmo := true }) := by
  unfold Mount.dismnt
  rw [if_pos (mt chkopn_iff.mp hf), if_neg (by simp [hd])]

/-- A volume with a control block and no FCB -/
def State.fresh (s : State) (v : ℕ) (inode : ℕ → Inode) : State :=
  { s with mvtbl := true, vcb := ⟨v, [], 0⟩, inode := inode, log := .newvcb v :: s.log }

theorem Down.frevcb (h : Down s) (v : ℕ) (inode : ℕ → Inode) :
    (Mount.frevcb (s.fresh v inode) v).2.lun = s.lun ∧
      Down (Mount.frevcb (s.fresh v inode) v).2 := by
  have heq : Mount.frevcb (s.fresh v inode) v = (.ok (), { s.fresh v inode with
      mvtbl := false, log := .frevcb v :: .newvcb v :: s.log }) := if_pos ⟨rfl, rfl⟩
  rw [heq]
  refine ⟨rfl, ⟨⟨Or.inl rfl, h.live v, h.legal⟩, rfl, h.dmo, fun b hb => ?_, h.opened⟩⟩
  exact h.live b (hb.2.resolve_left hb.1)

theorem Down.mounted {s₁ : State} {v : ℕ} (h : Down s) (henv : env.Fresh) {inode : ℕ → Inode}
    (hfcb : getfcb env (s.fresh v inode) = some (a, s₁)) (m : Mode) :
    Up { setfcb s₁ a 5 m with vcb := { s₁.vcb with mfcb := a }, mnt := true } ∧
      s₁.vcb = ⟨v, [a], 0⟩ ∧ s₁.dmo = false ∧ s₁.lun = s.lun := by
  obtain ⟨halloc, hvcb, hlog, hfcb, hinode, hmv, hdmo, hlun⟩ := getfcb_eq hfcb
  obtain ⟨hne0, hnew⟩ := henv _ _ halloc
  have hne : a ≠ v := fun heq => hnew (Or.inl heq)
  refine ⟨⟨?_, hmv, hne0, ?_, ?_, ?_, fun b => ?_, fun b => ?_, fun b hb => ?_⟩, hvcb,
    hdmo.trans h.dmo, hlun⟩
  · simp only [setfcb, hlog]
    exact ⟨hnew, h.live v, h.legal⟩
  · simp only [hvcb]
    exact List.mem_cons_self
  · simp [hvcb, State.fresh]
  · simp only [hvcb]
    exact fun hmem => hne (List.mem_singleton.mp hmem).symm
  · simp only [setfcb, hlog, hvcb, State.fresh, Live, h.live b, or_false, List.mem_singleton]
    exact or_comm
  · simp only [setfcb, hlog, hvcb, State.fresh, Open, h.opened b, or_false, List.mem_singleton]
  · simp only [hvcb, State.fresh, List.mem_singleton] at hb
    subst hb
    simp [setfcb, Attr.temp]

/-- `MOUNT` of a volume that is not mounted: it is, or nothing is left. -/
theorem Down.mount (h : Down s) (henv : env.Fresh) (disk : Except Err (ℕ → Inode)) :
    (Mount.mount env disk s).2.lun = s.lun ∧ (Down (Mount.mount env disk s).2 ∨
      Up (Mount.mount env disk s).2 ∧ (Mount.mount env disk s).2.files = [] ∧
      (Mount.mount env disk s).2.dmo = false) := by
  unfold Mount.mount
  rw [if_neg (by simp [h.mvtbl])]
  rcases halloc : env.alloc s.log with _ | v
  · simp only [newvcb, halloc]
    exact ⟨rfl, Or.inl h⟩
  have hnew : newvcb env s = some (s.fresh v s.inode) := by
    simp only [newvcb, halloc]
    rfl
  rw [hnew]
  rcases disk with e | inode
  · obtain ⟨hl, hd⟩ := h.frevcb v s.inode
    exact ⟨hl, Or.inl hd⟩
  have hsame : { s.fresh v s.inode with inode := inode } = s.fresh v inode := rfl
  dsimp only
  rw [hsame]
  rcases hfcb : getfcb env (s.fresh v inode) with _ | ⟨a, s₁⟩
  · obtain ⟨hl, hd⟩ := h.frevcb v inode
    exact ⟨hl, Or.inl hd⟩
  · obtain ⟨hup, hvcb, hdmo, hlun⟩ := h.mounted henv hfcb ⟨true, true, true⟩
    refine ⟨hlun, Or.inr ⟨hup, ?_, hdmo⟩⟩
    simp [State.files, setfcb, hvcb]

/-! ## Closing the last file of a volume to be dismounted -/

theorem dismnt_suffix {f : ℕ → State → Option State} {r : Except Err Unit × State}
    (hf : ∀ a s s', f a s = some s' → s.log <:+ s'.log) (h : dismnt f s = some r) :
    s.log <:+ r.2.log := by
  unfold Mount.dismnt at h
  split at h
  · split at h <;> cases h <;> exact List.suffix_refl _
  · obtain ⟨t, ht, rfl⟩ := Option.map_eq_some_iff.mp h
    have hst : s.log <:+ t.log := by
      split at ht
      · exact hf _ _ _ ht
      · cases ht
        exact List.suffix_refl _
    unfold Mount.frevcb
    split
    · exact hst.trans ((List.suffix_cons _ _).trans (List.suffix_cons _ _))
    · exact hst.trans (List.suffix_cons _ _)

theorem frefcb_suffix {f : State → Option State}
    (hf : ∀ s s', f s = some s' → s.log <:+ s'.log) (h : frefcb env f a s = some s') :
    s.log <:+ s'.log := by
  unfold frefcb at h
  split at h
  · cases h
    exact List.suffix_refl _
  · dsimp only at h
    split at h
    · exact (List.suffix_cons _ _).trans (hf _ _ h)
    · cases h
      exact List.suffix_cons _ _

theorem fdl0_suffix {f : ℕ → State → Option State}
    (hf : ∀ a s s', f a s = some s' → s.log <:+ s'.log) (h : fdl0 env f ino s = some s') :
    s.log <:+ s'.log := by
  unfold fdl0 at h
  split at h
  · cases h
    exact List.suffix_refl _
  dsimp only at h
  split at h
  · cases h
    exact List.suffix_refl _
  split at h
  · split at h
    · cases h
      exact List.suffix_refl _
    · split at h
      · cases h
        exact List.suffix_refl _
      next a s₂ hopn =>
        obtain ⟨s₁, hfcb, rfl⟩ := opndir_ok hopn
        obtain ⟨t, ht, rfl⟩ := Option.map_eq_some_iff.mp h
        have hlog : s.log <:+ t.log := by
          have := hf _ _ _ ht
          simp only [setfcb, (getfcb_eq hfcb).2.2.1] at this
          exact (List.suffix_cons _ _).trans this
        split
        · exact hlog
        · exact hlog.trans (List.suffix_cons _ _)
  · cases h
    exact List.suffix_cons _ _

/-- Whatever `FCLOSE` comes to, it has closed the FCB. -/
theorem fclose_suffix (n : ℕ) (h : fclose env n a s = some s') : .close a :: s.log <:+ s'.log := by
  induction n generalizing a s s' with
  | zero => cases h
  | succ n ih =>
    have hf : ∀ a s s', fclose env n a s = some s' → s.log <:+ s'.log :=
      fun a s s' h => (List.suffix_cons _ _).trans (ih h)
    have hd : ∀ s s', (dismnt (fclose env n) s).map Prod.snd = some s' → s.log <:+ s'.log := by
      intro s s' h
      obtain ⟨r, hr, rfl⟩ := Option.map_eq_some_iff.mp h
      exact dismnt_suffix hf hr
    unfold fclose at h
    dsimp only at h
    split at h
    · obtain ⟨t, ht, h⟩ := Option.bind_eq_some_iff.mp h
      exact (fdl0_suffix hf ht).trans (frefcb_suffix hd h)
    · exact frefcb_suffix hd h

/-- `dsm1`: the FCB of the master directory is closed. -/
theorem dismnt_close {f : ℕ → State → Option State} {r : Except Err Unit × State}
    (hf : s.files = []) (hm : s.vcb.mfcb ≠ 0) (h : dismnt f s = some r) :
    ∃ t, f s.vcb.mfcb s = some t ∧ t.log <:+ r.2.log := by
  unfold Mount.dismnt at h
  rw [if_neg (not_not.mpr (chkopn_iff.mpr hf)), if_pos hm] at h
  obtain ⟨t, ht, rfl⟩ := Option.map_eq_some_iff.mp h
  refine ⟨t, ht, ?_⟩
  unfold Mount.frevcb
  split
  · exact (List.suffix_cons _ _).trans (List.suffix_cons _ _)
  · exact List.suffix_cons _ _

/-- The FCB of the master directory is closed again after it has been freed. -/
theorem Up.not_legal (h : Up s) (hd : s.dmo = true) (hf : s.files = [a])
    (hcl : Mount.fclose env n a s = some s') : ¬Legal s'.log := by
  obtain ⟨hmem, hne⟩ := mem_files.mp (hf ▸ List.mem_singleton_self a)
  cases n with
  | zero => cases hcl
  | succ n =>
    obtain ⟨attr, inode, l, hattr, hl, heq⟩ := fclose_eq env n hmem (h.temp a hmem)
    have h₁ : Up (s.closed a attr inode l) := h.closed hmem hne hattr hl
    have hf₁ : (s.closed a attr inode l).files = [] := by
      rw [h.files_closed, hf]
      simp
    rw [heq, if_pos hd] at hcl
    obtain ⟨r, hr, rfl⟩ := Option.map_eq_some_iff.mp hcl
    obtain ⟨t, ht, hsuf⟩ := dismnt_close hf₁ h₁.mfcb_ne hr
    cases n with
    | zero => cases ht
    | succ n =>
      obtain ⟨attr₂, inode₂, l₂, -, hl₂, heq₂⟩ := fclose_eq env n h₁.mfcb_mem (h₁.temp _ h₁.mfcb_mem)
      rw [heq₂, if_pos (show (s.closed a attr inode l).dmo = true from hd)] at ht
      obtain ⟨r₂, hr₂, rfl⟩ := Option.map_eq_some_iff.mp ht
      have hf₂ : ((s.closed a attr inode l).closed s.vcb.mfcb attr₂ inode₂ l₂).files = [] := by
        rw [h₁.files_closed, hf₁]
        rfl
      obtain ⟨t₂, ht₂, hsuf₂⟩ := dismnt_close hf₂ h₁.mfcb_ne hr₂
      obtain ⟨l₃, hl₃⟩ := (fclose_suffix n ht₂).trans (hsuf₂.trans hsuf)
      intro hlegal
      rw [← hl₃] at hlegal
      have hopen := hlegal.of_append.1
      exact ((open_closed hl₂).mp hopen).1 rfl

/-! ## Runs -/

/-- The control blocks are those that are allocated, and the FCBs in the list are open. -/
def Books (s : State) : Prop :=
  ∀ a, (Live s.log a ↔ s.mvtbl = true ∧ (a = s.vcb.addr ∨ a ∈ s.vcb.fcbl)) ∧
    (Open s.log a ↔ s.mvtbl = true ∧ a ∈ s.vcb.fcbl)

/-- What a request does to a mounted volume: files come and go one by one, and the volume goes
with `DISMNT`, or when the last file is closed after it. -/
def Lives (s : State) (op : Op) (s' : State) : Prop :=
  s.mvtbl = true →
    match op with
    | .mount _ => s'.mvtbl = true ∧ s'.vcb = s.vcb
    | .access .. | .create .. => s'.mvtbl = true ∧ s'.dmo = s.dmo ∧ ∃ l, s'.files = l ++ s.files
    | .close lun =>
      if s.dmo = true ∧ s.files = [s.lun lun] then s'.mvtbl = false
      else s'.mvtbl = true ∧ s'.dmo = s.dmo ∧ s'.files = s.files.erase (s.lun lun)
    | .dismount =>
      if s.files = [] then s'.mvtbl = false else s'.mvtbl = true ∧ s'.dmo = true ∧ s'.vcb = s.vcb

/-- The life cycle as it should be, over one request: every block is freed once, every FCB closed
once, and only temporary files are deleted. -/
def Proper (n : ℕ) (env : Env) (s : State) (op : Op) : Prop :=
  ∃ s', op.run n env s = some s' ∧ Legal s'.log ∧ Books s' ∧ Lives s op s'

/-- The request does not close the last file of a volume that is to be dismounted. -/
def Op.Careful (s : State) : Op → Prop
  | .close lun => ¬(s.mvtbl = true ∧ s.dmo = true ∧ s.lun lun ≠ 0 ∧ s.files = [s.lun lun])
  | _ => True

theorem Up.books (h : Up s) : Books s := fun a =>
  ⟨(h.live a).trans (by simp [h.mvtbl]), (h.opened a).trans (by simp [h.mvtbl])⟩

theorem Down.books (h : Down s) : Books s := fun a =>
  ⟨by simp [h.mvtbl, h.live a], by simp [h.mvtbl, h.opened a]⟩

theorem Sound.legal (h : Sound s) : Legal s.log := by
  cases h with
  | up h => exact h.legal
  | down h => exact h.legal

theorem Sound.books (h : Sound s) : Books s := by
  cases h with
  | up h => exact h.books
  | down h => exact h.books

theorem Units.of_eq (hu : Units s) (hf : s'.files = s.files) (hl : s'.lun = s.lun) : Units s' :=
  ⟨fun a => by rw [hf, hl]; exact hu.mem a, by rw [hl]; exact hu.inj⟩

theorem Down.run (h : Down s) (hl : ∀ l, s.lun l = 0) (henv : env.Fresh) (n : ℕ) (op : Op) :
    ∃ s', op.run n env s = some s' ∧ Sound s' := by
  cases op with
  | mount disk =>
    refine ⟨_, rfl, ?_⟩
    obtain ⟨hlun, hdown | ⟨hup, hf, hd⟩⟩ := h.mount henv disk
    · exact .down hdown fun l => by rw [hlun]; exact hl l
    · refine .up hup ⟨fun a => ?_, fun l l' _ hne => ?_⟩ fun hd' => ?_
      · rw [hf, hlun]
        simp [hl, eq_comm]
      · exact absurd (by rw [hlun]; exact hl l) hne
      · rw [hd] at hd'
        cases hd'
  | access | create | close | dismount => exact ⟨s, by simp [Op.run, h.mvtbl], .down h hl⟩

/-- What a file more, or not, does -/
theorem Opens.sound {r : Except Err ℕ} {lun : ℕ} (h : Opens s s' r) (hup : Up s) (hu : Units s)
    (hd : s.dmo = true → s.files ≠ []) (hlun : s.lun lun = 0) :
    Sound (stofcb lun (r, s')) ∧ (stofcb lun (r, s')).mvtbl = true ∧
      (stofcb lun (r, s')).dmo = s.dmo ∧ ∃ l, (stofcb lun (r, s')).files = l ++ s.files := by
  have hf : ∃ l, (stofcb lun (r, s')).files = l ++ s.files := ⟨_, h.files hup⟩
  refine ⟨.up (h.up.lun _) (hu.stofcb h hup hlun) fun hd' hnil => ?_, h.up.mvtbl, h.kept.dmo, hf⟩
  obtain ⟨l, hl⟩ := hf
  rw [hl] at hnil
  exact hd (h.kept.dmo ▸ hd') (List.append_eq_nil_iff.mp hnil).2

theorem Up.run (h : Up s) (hu : Units s) (hd : s.dmo = true → s.files ≠ []) (henv : env.Fresh)
    (n : ℕ) {op : Op} (hc : op.Careful s) :
    ∃ s', op.run (n + 1) env s = some s' ∧ Sound s' ∧ Lives s op s' := by
  cases op with
  | mount disk =>
    simp only [Op.run, Mount.mount]
    rw [if_pos h.mvtbl]
    split
    · exact ⟨_, rfl, .up h hu hd, fun _ => ⟨h.mvtbl, rfl⟩⟩
    · exact ⟨_, rfl, .up (h.setDmo false) (hu.of_eq rfl rfl) nofun, fun _ => ⟨h.mvtbl, rfl⟩⟩
  | access lun dir file m =>
    simp only [Op.run]
    split
    next => exact ⟨_, rfl, .up h hu hd, fun _ => ⟨h.mvtbl, rfl, [], rfl⟩⟩
    next hlun =>
      obtain ⟨r, s', heq, ho⟩ := h.fopen henv n dir file m
      obtain ⟨hs, hl⟩ := ho.sound h hu hd (not_not.mp (not_or.mp hlun).1)
      rw [heq]
      exact ⟨_, rfl, hs, fun _ => hl⟩
  | create lun ino ctg =>
    simp only [Op.run]
    split
    next => exact ⟨_, rfl, .up h hu hd, fun _ => ⟨h.mvtbl, rfl, [], rfl⟩⟩
    next hlun =>
      obtain ⟨r, s', heq, ho⟩ := h.fcreat henv (n + 1) ino ctg
      obtain ⟨hs, hl⟩ := ho.sound h hu hd (not_not.mp (not_or.mp hlun).1)
      rw [heq]
      exact ⟨_, rfl, hs, fun _ => hl⟩
  | close lun =>
    simp only [Op.run]
    split
    next hlun =>
      have hlun : s.lun lun = 0 := hlun.resolve_right (not_not.mpr h.mvtbl)
      have hnot : s.lun lun ∉ s.files := by
        rw [hu.mem, hlun]
        exact fun hne => hne.1 rfl
      refine ⟨_, rfl, .up h hu hd, fun _ => ?_⟩
      dsimp only
      rw [if_neg, List.erase_of_not_mem hnot]
      · exact ⟨h.mvtbl, rfl, rfl⟩
      · rintro ⟨-, hf⟩
        exact hnot (hf ▸ List.mem_singleton_self _)
    next hlun =>
      have hne := (not_or.mp hlun).1
      have hmem : s.lun lun ∈ s.files := (hu.mem _).mpr ⟨hne, lun, rfl⟩
      have hlast : ¬(s.dmo = true ∧ s.files = [s.lun lun]) :=
        fun ⟨hd, hf⟩ => hc ⟨h.mvtbl, hd, hne, hf⟩
      obtain ⟨s', heq, hup, hk, -, hf⟩ := h.fclose env n hmem (by
        cases hdmo : s.dmo with
        | false => exact Or.inl rfl
        | true => exact Or.inr fun hf => hlast ⟨hdmo, hf⟩)
      rw [heq]
      refine ⟨_, rfl, .up (hup.lun _) (hu.close h hk hf) fun hd' hnil => ?_, fun _ => ?_⟩
      · have hdmo : s.dmo = true := hk.dmo ▸ hd'
        have hnil : s'.files = [] := hnil
        exact hlast ⟨hdmo, eq_singleton_of_erase hmem (hf ▸ hnil)⟩
      · dsimp only
        rw [if_neg hlast]
        exact ⟨hup.mvtbl, hk.dmo, hf⟩
  | dismount =>
    simp only [Op.run, h.mvtbl, not_true, if_false]
    by_cases hf : s.files = []
    · have hdmo : s.dmo = false := by
        cases hdmo : s.dmo with
        | false => rfl
        | true => exact absurd hf (hd hdmo)
      obtain ⟨r, s', heq, hdown, hl⟩ := h.dismnt env n hf hdmo
      rw [heq]
      refine ⟨_, rfl, .down hdown fun l => ?_, fun _ => ?_⟩
      · by_contra hne
        have hmem := (hu.mem (s.lun l)).mpr ⟨by rw [← hl]; exact hne, l, rfl⟩
        rw [hf] at hmem
        cases hmem
      · dsimp only
        rw [if_pos hf]
        exact hdown.mvtbl
    · cases hdmo : s.dmo with
      | false =>
        rw [dismnt_of_open _ hf hdmo]
        refine ⟨_, rfl, .up (h.setDmo true) (hu.of_eq rfl rfl) fun _ => hf, fun _ => ?_⟩
        dsimp only
        rw [if_neg hf]
        exact ⟨h.mvtbl, rfl, rfl⟩
      | true =>
        rw [dismnt_of_files hf hdmo]
        refine ⟨_, rfl, .up h hu hd, fun _ => ?_⟩
        dsimp only
        rw [if_neg hf]
        exact ⟨h.mvtbl, hdmo, rfl⟩

theorem Sound.run (h : Sound s) (henv : env.Fresh) (n : ℕ) {op : Op} (hc : op.Careful s) :
    ∃ s', op.run (n + 1) env s = some s' ∧ Sound s' ∧ Lives s op s' := by
  cases h with
  | up h hu hd => exact h.run hu hd henv n hc
  | down h hl =>
    obtain ⟨s', heq, hs⟩ := h.run hl henv (n + 1) op
    exact ⟨s', heq, hs, fun hmv => absurd (h.mvtbl.symm.trans hmv) (by decide)⟩

/-- A request that is careful, with whatever answers -/
def Step (n : ℕ) (s s' : State) : Prop :=
  ∃ env op, Env.Fresh env ∧ Op.Careful s op ∧ op.run n env s = some s'

/-- The unit before a volume is mounted -/
structure Initial (s : State) : Prop where
  mvtbl : s.mvtbl = false
  dmo : s.dmo = false
  lun : ∀ l, s.lun l = 0
  log : s.log = []

theorem Initial.sound (h : Initial s) : Sound s :=
  .down ⟨h.log ▸ trivial, h.mvtbl, h.dmo, fun _ => h.log ▸ id, fun _ => h.log ▸ id⟩ h.lun

theorem Sound.reach (h : Sound s) (hrun : Reach (Step (n + 1)) s s') : Sound s' := by
  induction hrun with
  | refl => exact h
  | tail _ hstep ih =>
    obtain ⟨env, op, henv, hc, heq⟩ := hstep
    obtain ⟨t, ht, hs, -⟩ := ih.run henv n hc
    cases ht.symm.trans heq
    exact hs

/-- After careful requests, each request keeps the life cycle if and only if it is careful, too. -/
theorem proper_iff_careful {s₀ : State} (h₀ : Initial s₀) (hrun : Reach (Step (n + 1)) s₀ s) :
    Legal s.log ∧ Books s ∧
      ∀ env op, Env.Fresh env → (Proper (n + 1) env s op ↔ Op.Careful s op) := by
  have hs := h₀.sound.reach hrun
  refine ⟨hs.legal, hs.books, fun env op henv => ⟨fun hp => ?_, fun hc => ?_⟩⟩
  · obtain ⟨s', hop, hlegal, -⟩ := hp
    cases op with
    | close lun =>
      rintro ⟨hmv, hd, hne, hf⟩
      cases hs with
      | down h => exact absurd (h.mvtbl.symm.trans hmv) (by decide)
      | up h =>
        simp only [Op.run, hne, hmv, not_true, or_self, if_false] at hop
        obtain ⟨t, ht, rfl⟩ := Option.map_eq_some_iff.mp hop
        exact h.not_legal hd hf ht hlegal
    | mount | access | create | dismount => trivial
  · obtain ⟨s', heq, hs', hl⟩ := hs.run henv n hc
    exact ⟨s', heq, hs'.legal, hs'.books, hl⟩

/-! ## A deferred dismount -/

/-- A number above all addresses of the log -/
def top : List Event → ℕ
  | [] => 0
  | .newvcb a :: l | .getfcb a :: l => max a (top l)
  | _ :: l => top l

theorem le_top {l : List Event} {b : ℕ} (h : Live l b) : b ≤ top l := by
  induction l with
  | nil => cases h
  | cons e l ih =>
    cases e with
    | newvcb a | getfcb a =>
      rcases h with rfl | h
      · exact Nat.le_max_left ..
      · exact Nat.le_trans (ih h) (Nat.le_max_right ..)
    | frevcb a | frefcb a => exact ih h.2
    | close | delete | unmount => exact ih h

/-- A pool that gives higher and higher blocks. The size of an FCB is 48h, so that it looks like a
temporary file when it has been freed, but may not be deleted. -/
def answers : Env where
  alloc l := some (top l + 1)
  size _ := ⟨false, false, true, false, false, false, false, true⟩
  perm _ := false
  find _ := none
  empty _ := true

theorem answers_fresh : answers.Fresh := by
  intro l a h
  cases h
  exact ⟨Nat.succ_ne_zero _, fun hl => by have := le_top hl; omega⟩

/-- The unit at the beginning -/
def off : State where
  mvtbl := false
  vcb := ⟨0, [], 0⟩
  mnt := false
  dmo := false
  fcb _ := ⟨⟨false, false, false, false, false, false, false, false⟩, 0⟩
  inode _ := ⟨⟨false, false, false, false, false, false, false, false⟩, 0⟩
  lun _ := 0
  log := []

/-- An index file with the master directory and regular files -/
def disk (i : ℕ) : Inode := ⟨⟨i = 5, i ≠ 5, false, false, false, false, false, false⟩, 1⟩

/-- The state after some requests -/
def after (n : ℕ) (s : State) (l : List Op) : State :=
  l.foldl (fun s op => (op.run n answers s).getD s) s

/-- A volume is mounted, and a file is opened. -/
def opened : State :=
  after 8 off [.mount (.ok disk), .access 1 none (.ok 6) ⟨true, true, false⟩]

theorem reach_opened : Reach (Step 8) off opened := by
  have h : Reach (Step 8) off (after 8 off [.mount (.ok disk)]) :=
    .single ⟨answers, .mount (.ok disk), answers_fresh, trivial, rfl⟩
  exact h.tail ⟨answers, .access 1 none (.ok 6) ⟨true, true, false⟩, answers_fresh, trivial, rfl⟩

/-- The file is closed, and the dismount that was waiting for it closes FCB 2, that of the master
directory, twice. -/
theorem not_proper_deferred : ¬∀ (s₀ s : State) (env : Env) (op : Op), Initial s₀ →
    Reach (Step 8) s₀ s → env.Fresh → Proper 8 env s op := by
  intro h
  have hrun : Reach (Step 8) off (after 8 opened [.dismount]) :=
    reach_opened.tail ⟨answers, .dismount, answers_fresh, trivial, rfl⟩
  obtain ⟨s', hs', hlegal, -⟩ := h off _ answers (.close 1) ⟨rfl, rfl, fun _ => rfl, rfl⟩ hrun
    answers_fresh
  have hlog : ((Op.close 1).run 8 answers (after 8 opened [.dismount])).map State.log =
      some [.unmount 1, .frevcb 1, .unmount 1, .close 2, .frefcb 2, .close 2, .frefcb 3, .close 3,
        .getfcb 3, .getfcb 2, .newvcb 1] := by decide
  rw [hs'] at hlog
  have hlog := Option.some.inj hlog
  rw [hlog] at hlegal
  exact hlegal.2.2.2.1.1 rfl

/-- The file is closed before. -/
theorem proper_close : Proper 8 answers opened (.close 1) :=
  ((proper_iff_careful ⟨rfl, rfl, fun _ => rfl, rfl⟩ reach_opened).2.2 answers (.close 1)
    answers_fresh).mpr (by rintro ⟨-, hd, -⟩; exact absurd hd (by decide))

end RSX280.Mount
