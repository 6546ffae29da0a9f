import RSX280.DebugLinks

/-!
# Debugger links over whole runs

`Kernel.SoundLinks` is what the links between debuggers and debugged tasks should be in
every state. `links_sound_of_reach` proves it of the runs whose steps are `Op.Safe`, as
the scheduler lists need it, and `Op.Tame`: no link is made or broken by, or on behalf
of, a debugger that executes an AST. `unmarked_of_dbcon` shows that it is the debugger
that is marked, and not the debugged task.
-/

namespace RSX280.Sched

open Links

universe u

variable {T : Type u}

/-! ## The end of a task -/

/-- A task without link may change in any way that keeps it in order. -/
theorem Tcb.Tied.ended {b : Tcb T} (h : b.Tied) (hx : b.xdt = none) :
    b.ended.Tied ∧ b.ended.xdt = none := by
  have hst : b.ended.st = { b.st with act := false } ∧ b.ended.st1.abo = b.st1.abo ∧
      b.ended.svst = b.svst ∧ b.ended.svst1 = b.svst1 := by
    unfold Tcb.ended
    dsimp only
    split <;> exact ⟨rfl, rfl, rfl, rfl⟩
  have hx' : b.ended.xdt = none := by
    unfold Tcb.ended
    dsimp only
    split
    · exact hx
    · rfl
  have hl : b.ended.leads = b.leads := by rw [Tcb.leads_of_none hx, Tcb.leads_of_none hx']
  obtain ⟨h₁, h₂, h₃, h₄⟩ := hst
  refine ⟨⟨?_, ?_, fun hne => absurd hx' hne, ?_⟩, hx'⟩
  · have hm : b.ended.marked = b.marked := by
      unfold Tcb.marked
      rw [h₁, h₂, h₃]
    rw [hm, h.mark, hl]
  · rw [h₁]
    exact h.hidden
  · rw [h₁, h₂, h₄]
    exact h.saved

namespace Kernel

variable [DecidableEq T] {k k' : Kernel T} {g t u : T} {b : Tcb T}

theorem calm_unlist (k : Kernel T) (t : T) : k.Calm (k.unlist t) := by
  unfold unlist
  split
  · have h : k.Calm { k with tlist := k.tlist.erase t } := (Calm.refl k).congr rfl rfl rfl
    exact h.trans (Calm.of_tie rfl)
  · exact Calm.refl k

theorem calm_unfix (h : (k.tcb t).xdt = none) : k.Calm (k.unfix t).1 := by
  unfold unfix
  dsimp only
  split
  · exact Calm.refl k
  · refine Calm.of_tie ?_
    simp only [Tcb.tie, h]
    rfl

variable [Fintype T]

theorem calm_tkill2 (h : (k.tcb t).xdt = none) : k.Calm (k.tkill2 t).1 := by
  unfold tkill2
  split
  · exact Calm.refl k
  · have hc := k.calm_unlist t
    have hx : ((k.unlist t).tcb t).xdt = none := (hc.xdt t).trans h
    dsimp only
    split
    · exact hc
    · rename_i iy _
      have h₁ : k.Calm { k.unlist t with actl := (k.unlist t).actl.unlink iy t } :=
        hc.congr rfl rfl rfl
      refine h₁.trans (Calm.setTcb ?_ fun ht => (ht.ended hx).1)
      unfold Tcb.ended
      dsimp only
      split
      · exact rfl
      · exact hx.symm

theorem calm_relist (k : Kernel T) (iy : Cell Q T) (t : T) (q : Q) : k.Calm (k.relist iy t q) :=
  (Calm.refl k).congr rfl rfl rfl

theorem calm_tgo2 (k : Kernel T) (t : T) : k.Calm (k.tgo2 t).1 := by
  unfold tgo2
  split
  · exact Calm.refl k
  · split
    · exact Calm.refl k
    · exact calm_relist ..

/-! ## Loading and checkpointing -/

theorem Linked.ldgo (h : k.Linked) (t : T) : (k.ldgo t).1.Linked := by
  unfold Kernel.ldgo
  dsimp only
  split
  · rename_i ha
    exact h.calm (calm_tkill2 (h.xdt_of_abo ha))
  rename_i ha
  have habo : (k.tcb t).st1.abo = false := by simpa using ha
  split
  · refine h.calm (Calm.of_tie ?_)
    simp only [Tcb.tie, habo]
    rfl
  · refine h.calm (Calm.trans (Calm.of_tie ?_) (calm_tgo2 _ t))
    have hx : ∀ (c : Option (Ctx T)) p,
        (c.map fun c => { c with pc := p }).bind (fun c => c.xdt) = c.bind (·.xdt) := by
      intro c p
      cases c <;> rfl
    simp only [Tcb.tie, Tcb.xdt, habo, hx]
    rfl

theorem Linked.ldckr (h : k.Linked) (t : T) : (k.ldckr t).1.Linked := by
  unfold Kernel.ldckr
  dsimp only
  have hc : k.Calm (k.setTcb t { k.tcb t with
      st1 := { (k.tcb t).st1 with out := false, ckp := false } }) := Calm.of_tie rfl
  have h₁ := h.calm hc
  split
  · rename_i ha
    refine h₁.calm (calm_tkill2 ?_)
    exact (hc.xdt t).trans (h.xdt_of_abo ha)
  · split
    · exact h₁.calm (calm_tgo2 _ t)
    · exact h₁

theorem Linked.ldckw (h : k.Linked) (t : T) : (k.ldckw t).1.Linked := by
  unfold Kernel.ldckw
  dsimp only
  split
  · rename_i ha
    exact h.calm (calm_tkill2 (h.xdt_of_abo ha))
  · exact h.calm (Calm.of_tie rfl)

theorem calm_chkpt (k : Kernel T) (t : T) (space : Bool) : k.Calm (k.chkpt t space).1 := by
  unfold chkpt
  dsimp only
  split
  · exact Calm.refl k
  split
  · exact Calm.refl k
  split
  · exact Calm.refl k
  split
  · exact Calm.of_tie rfl
  split
  · exact Calm.refl k
  have h₁ : k.Calm (k.setTcb t { k.tcb t with
      st := { (k.tcb t).st with ckr := false }, st1 := { (k.tcb t).st1 with ckp := true } }) :=
    Calm.of_tie rfl
  split
  · exact h₁.trans (calm_qldr _ t)
  · exact (h₁.trans (calm_relist ..)).trans (calm_qldr _ t)

/-! ## Requesting and removing -/

omit [Fintype T] in
/-- A task that is not active may be given any control block in order without a link. -/
theorem Linked.fresh (h : k.Linked) (ha : (k.tcb t).st.act = false) (hx : b.xdt = none)
    (hb : b.Tied) : (k.setTcb t b).Linked :=
  h.calm (Calm.setTcb (hx.trans (h.xdt_of_inactive ha).symm) fun _ => hb)

omit [DecidableEq T] [Fintype T] in
/-- A control block with neither link nor mark that executes no AST. -/
theorem tied_of_idle (hx : b.xdt = none) (hm : b.st.xdt = false) (ha : b.st.ast = false) :
    b.Tied := by
  refine ⟨?_, fun hc => (nomatch ha.symm.trans hc), fun hc => absurd hx hc, fun hc =>
    (nomatch ha.symm.trans hc)⟩
  rw [Tcb.marked_of_not_ast ha, hm, Tcb.leads_of_none hx]

theorem Linked.trqst2 (h : k.Linked) (t : T) (mcr ok : Bool) : (k.trqst2 t mcr ok).1.Linked := by
  unfold Kernel.trqst2
  dsimp only
  split
  · exact h
  rename_i hact
  have ha : (k.tcb t).st.act = false := by simpa using hact
  have hx := h.xdt_of_inactive ha
  have hreset : ((k.tcb t).reset mcr).xdt = none := by
    unfold Tcb.reset Tcb.xdt
    dsimp only
    split
    · exact hx
    · rfl
  have hreq : ((k.tcb t).reset mcr).request.xdt = none := by
    unfold Tcb.request Tcb.xdt
    dsimp only
    split
    · cases ((k.tcb t).reset mcr).ctx <;> rfl
    · rfl
  split
  · refine h.calm (Calm.setTcb (hreset.trans hx.symm) fun ht => ht.congr ?_)
    simp only [Tcb.tie, hreset, hx]
    rfl
  have hlk : ∀ b : Tcb T, b.xdt = none → b.Tied → ((k.setTcb t b).lktcb .wlist t).Linked := by
    intro b hb hb'
    exact (h.fresh ha hb hb').calm ((Calm.refl _).congr rfl rfl rfl)
  have h₁ := hlk _ hreq (tied_of_idle hreq rfl rfl)
  split
  · refine h₁.calm (Calm.setTcb ?_ fun _ => ?_)
    · have hself : (((k.setTcb t ((k.tcb t).reset mcr).request).lktcb .wlist t).tcb t).xdt = none := by
        rw [lktcb_tcb, setTcb_self]
        exact hreq
      exact hreq.trans hself.symm
    · refine tied_of_idle ?_ rfl rfl
      exact hreq
  split
  · exact h₁
  · exact h₁.ldgo t

omit [Fintype T] in
theorem Linked.fixtk (h : k.Linked) (t : T) (ok : Bool) : (k.fixtk t ok).1.Linked := by
  unfold Kernel.fixtk
  dsimp only
  split
  · exact h
  rename_i hact
  split
  · exact h
  split
  · exact h
  · exact h.fresh (by simpa using hact) rfl (tied_of_idle rfl rfl rfl)

omit [Fintype T] in
theorem Linked.unftk (h : k.Linked) (t : T) : (k.unftk t).1.Linked := by
  unfold Kernel.unftk
  split
  · exact h
  · rename_i hact
    exact h.calm (calm_unfix (h.xdt_of_inactive (by simpa using hact)))

omit [Fintype T] in
theorem Linked.remtk (h : k.Linked) (t : T) : (k.remtk t).1.Linked := by
  unfold Kernel.remtk
  split
  · exact h
  split
  · exact h
  · rename_i hact
    have hc := calm_unfix (h.xdt_of_inactive (t := t) (by simpa using hact))
    exact h.calm (hc.congr rfl rfl rfl)

/-! ## Aborting -/

theorem Linked.tkill1 (h : k.Linked) (ho : k.Ok) (hl : k.Loose t) (e : ℕ) (v : KillEnv)
    (hq : (k.tcb t).st.xdt = false → k.Quiet t v.m₂) :
    (k.tkill1 t e v).Linked ∧ ((k.tkill1 t e v).tcb t).xdt = none := by
  have hbreak : (k.clndbg t v.dat v.m₁ v.m₂).Linked ∧
      ((k.clndbg t v.dat v.m₁ v.m₂).tcb t).xdt = none := h.clndbg ho hl hq
  obtain ⟨h₁, hx⟩ := hbreak
  unfold Kernel.tkill1
  dsimp only
  refine ⟨h₁.calm (Calm.settle (Calm.setTcb rfl fun ht => ⟨?_, ht.hidden, fun hc => ?_, nofun⟩)), ?_⟩
  · -- a task being aborted has its mark in `T.ST`, and it has none
    refine Eq.trans ?_ (Tcb.leads_of_none hx).symm
    unfold Tcb.marked
    dsimp only
    rw [h₁.xdt_eq_false hx]
    simp
  · exact absurd hx hc
  · rw [settle_tcb, setTcb_self]
    exact hx

theorem calm_tk6 (hx : (k.tcb t).xdt = none) (v : KillEnv) : k.Calm (k.tk6 t v).1 := by
  unfold tk6
  dsimp only
  have hd : k.Calm (if v.waiting then k else k.dequeue t) := by
    split
    · exact Calm.refl k
    · exact k.calm_dequeue t
  split
  · split
    · exact Calm.refl k
    split
    · exact Calm.refl k
    split
    · exact hd
    · exact hd.trans (calm_tkill2 ((hd.xdt t).trans hx))
  · split
    · exact Calm.refl k
    · exact calm_tkill2 hx

theorem Linked.tkill (h : k.Linked) (ho : k.Ok) {e : ℕ} {v : KillEnv}
    (hl : k.Mortal t → k.Loose t)
    (hq : k.Mortal t → (k.tcb t).st.xdt = false → k.Quiet t v.m₂) : (k.tkill t e v).1.Linked := by
  unfold Kernel.tkill
  dsimp only
  split
  · exact h
  rename_i hs
  split
  · exact h
  rename_i hact
  split
  · exact h
  rename_i habo
  rw [not_or] at hs
  have hm : k.Mortal t := ⟨hs.1, hs.2, by simpa using hact, by simpa using habo⟩
  obtain ⟨h₁, hx⟩ := h.tkill1 ho (hl hm) e v (hq hm)
  split
  · exact h₁
  · exact h₁.calm (calm_tk6 hx v)

/-! ## Delivery of ASTs -/

/-- A task whose end no debugger that executes an AST hears of. -/
structure Unheard (k : Kernel T) (t : T) : Prop where
  leads : (k.tcb t).leads = false
  deaf : ∀ g, k.Debugs g t → (k.tcb g).Deaf

omit [DecidableEq T] [Fintype T] in
/-- What a routine changes of such a task before it aborts it does not matter. -/
theorem Unheard.loose (h : k.Unheard t) (hk : k.Linked) (hc : k.Calm k')
    (hu : ∀ g, g ≠ t → k'.tcb g = k.tcb g) : k'.Loose t where
  idle hl := by
    unfold Tcb.leads at hl
    rw [hc.xdt t] at hl
    exact nomatch h.leads.symm.trans hl
  deaf g hg := by
    have hg' := hc.debugs hg
    have hne : g ≠ t := by
      rintro rfl
      exact nomatch h.leads.symm.trans (Tcb.leads_eq_true.mpr ⟨g, hk.xdt_of_debugs hg'⟩)
    rw [hu g hne]
    exact h.deaf g hg'

theorem calm_setast (k : Kernel T) (t : T) : k.Calm (k.setast t).1 := by
  unfold setast
  exact (Calm.setTcb (Tcb.setast_xdt _) fun ht => ht.setast).settle

theorem Linked.doast (h : k.Linked) (ho : k.Ok) (hr : k.Running t) {e : ℕ} {v : KillEnv}
    (hl : (k.tcb t).Overflow → k.Unheard t) (hq : (k.tcb t).Overflow → k.Quiet t v.m₂) :
    (k.doast t e v).1.Linked := by
  have h₁ : k.Calm (k.setTcb t (k.tcb t).drain) := Calm.of_tie rfl
  have h₂ := h₁.trans (calm_setast _ t)
  unfold Kernel.doast
  dsimp only
  rw [setTcb_self]
  split
  · exact h.calm h₁
  rename_i hne
  split
  · exact h.calm h₁
  rename_i hret
  have hu : ∀ g, g ≠ t → ((k.setTcb t (k.tcb t).drain).setast t).1.tcb g = k.tcb g := by
    intro g hg
    rw [Kernel.setast, settle_tcb, setTcb_of_ne hg, setTcb_of_ne hg]
  rw [setast_drain_tcb]
  have htie := Tcb.deliver_tie (k.tcb t).drain.setast.tcb
  split
  · rename_i b hd
    rw [hd] at htie
    exact h.calm (h₂.trans (Calm.of_tie (by rw [setast_drain_tcb]; exact htie)))
  · rename_i b hd
    rw [hd] at htie
    have hover : (k.tcb t).Overflow := ⟨hne, not_not.mp hret, by rw [hd]⟩
    have h₃ : k.Calm (((k.setTcb t (k.tcb t).drain).setast t).1.setTcb t b) :=
      h₂.trans (Calm.of_tie (by rw [setast_drain_tcb]; exact htie))
    obtain ⟨ho', hq'⟩ := ho.doast_abort hr (hq hover) hd
    refine (h.calm h₃).tkill ho' (fun _ => (hl hover).loose h h₃ fun g hg => ?_) fun _ _ => hq'
    rw [setTcb_of_ne hg, hu g hg]

theorem Linked.astext (h : k.Linked) (ho : k.Ok) (hr : k.Running t) {e : ℕ} {v : KillEnv}
    (hs : (k.tcb t).svst.ast = true → (k.tcb t).st.ast = true)
    (hl : (k.tcb t).astext.2 = false → k.Unheard t)
    (hq : (k.tcb t).astext.2 = false → (k.tcb t).st.xdt = false → k.Quiet t v.m₂) :
    (k.astext t e v).1.Linked := by
  unfold Kernel.astext
  split
  · exact h
  rename_i hast
  have ha := hs (by simpa using hast)
  have habo : (k.tcb t).st1.abo = false := by
    rw [(Tcb.home_eq_rlist.mp hr.2.2).1]
    rfl
  have hc : k.Calm (k.setTcb t (k.tcb t).astext.1.tcb) :=
    Calm.setTcb (Tcb.astext_xdt _) fun ht => ht.astext ha habo (ho.svst_act hr ha)
  split
  · rename_i o hd
    rw [hd] at hc
    obtain ⟨ho', hq'⟩ := ho.astext_abort hr (hq (by rw [hd])) hd
    exact (h.calm hc).tkill ho' (fun _ => (hl (by rw [hd])).loose h hc fun g hg =>
      setTcb_of_ne hg) fun _ => hq'
  · rename_i o hd
    rw [hd] at hc
    dsimp only
    split
    · exact h.calm (hc.settle.trans (Calm.onTask Tcb.tcont_tie _ t))
    · exact h.calm hc.settle

/-! ## Connecting -/

omit [Fintype T] in
theorem Linked.dbcon (h : k.Linked) {efn dsb : ℕ} {d : Option ℕ}
    (hr : ∀ g, k.ctcb = some g → k.Running g) (hd : ∀ e ∈ d, k.xdb e = none)
    (hl : ∀ g, k.ctcb = some g → (∃ c, (k.tcb g).ctx = some c ∧ c.xdt = none) ∧
      (k.tcb g).st.ast = false ∧ (k.tcb t).st1.abo = false) :
    (k.dbcon t efn dsb d).1.Linked := by
  unfold Kernel.dbcon
  split
  · exact h
  rename_i g hg
  obtain ⟨⟨c', hc', hx'⟩, hast, habo⟩ := hl g hg
  obtain ⟨-, hact, hhome⟩ := hr g hg
  split
  · exact h
  split
  · exact h
  split
  · exact h
  rename_i ht
  split
  · exact h
  rename_i hne
  split
  · exact h
  rename_i c hc
  split
  · exact h
  rename_i hx
  split
  · exact h
  rename_i e
  refine h.attach hne hc hc' ?_ ?_ hast ⟨by simpa using ht, habo⟩ ⟨hact, ?_⟩ (hd e rfl) efn dsb
  · rw [Tcb.xdt, hc]
    simpa using hx
  · rw [Tcb.xdt, hc']
    exact hx'
  · rw [(Tcb.home_eq_rlist.mp hhome).1]
    rfl

end Kernel

/-! ## Runs -/

/-- The steps that keep the debugger links. Not among them:
* `$DBCON` by a task that is a debugger or is debugged already, or executes an AST, or of a
  task being aborted,
* `$DBDIS` of a debugger, or with a debugger that executes an AST; `$DBNOT` of a debugger,
* the end of a debugger that executes an AST, or of a task whose debugger does or will
  because of it. -/
def Op.Tame [DecidableEq T] [Fintype T] : Op T → Kernel T → Prop
  | .dbcon t _ _ _, k => ∀ g, k.ctcb = some g → (∃ c, (k.tcb g).ctx = some c ∧ c.xdt = none) ∧
      (k.tcb g).st.ast = false ∧ (k.tcb t).st1.abo = false
  | .dbdis t, k => (k.tcb t).leads = false ∧ ∀ g, k.Debugs g t → (k.tcb g).st.ast = false
  | .dbnot t _ _ _, k => (k.tcb t).leads = false
  | .tkill t _ _, k => k.Mortal t → k.Loose t
  | .doast t _ _, k => (k.tcb t).Overflow → k.Unheard t
  | .astext t _ _, k => (k.tcb t).astext.2 = false → k.Unheard t
  | _, _ => True

namespace Kernel

variable [DecidableEq T] [Fintype T] {k k' : Kernel T}

theorem Linked.step (h : k.Linked) (ho : k.Ok)
    (hs : Step (fun op k => op.Safe k ∧ op.Tame k) k k') : k'.Linked := by
  obtain ⟨op, hr, ⟨hc, ht⟩, rfl⟩ := hs
  cases op with
  | dsptch elapsed => exact h.calm (k.calm_dsptch elapsed)
  | tstop t => exact h.calm (Calm.onTask Tcb.tstop_tie k t)
  | tresum t => exact h.calm (Calm.onTask Tcb.tresum_tie k t)
  | tcont t => exact h.calm (Calm.onTask Tcb.tcont_tie k t)
  | setflg t e => exact h.calm (k.calm_setflg t e)
  | clrflg t e => exact h.calm (k.calm_clrflg t e)
  | flwait t e => exact h.calm (k.calm_setmsk t e Tcb.flwait0_tie)
  | flwtlo t m => exact h.calm (k.calm_waitlo t m Tcb.flwait0_tie)
  | flstop t e => exact h.calm (k.calm_setmsk t e Tcb.flstop0_tie)
  | flstlo t m => exact h.calm (k.calm_waitlo t m Tcb.flstop0_tie)
  | send t i mem => exact h.calm (k.calm_send t i mem)
  | recv => exact h.calm k.calm_recv
  | wtdat t => exact h.calm (Calm.onTask Tcb.wtdat_tie k t)
  | qldr t => exact h.calm (k.calm_qldr t)
  | taken t => exact h.calm (k.calm_dequeue t)
  | qast t a addr dat mem => exact h.calm (k.calm_qast t a addr dat mem)
  | sdinfo t a addr dat m₁ m₂ => exact h.calm (k.calm_sdinfo t a addr dat m₁ m₂)
  | astdcl t a addr seen mem => exact h.calm (k.calm_astdcl t a addr seen mem)
  | astctl t on => exact h.calm (Calm.of_tie rfl)
  | doast t e v => exact h.doast ho hr ht hc
  | astext t e v => exact h.astext ho hr hc.1 ht hc.2
  | dbcon t efn dsb d => exact h.dbcon hr.1 hr.2 ht
  | dbdis t => exact (h.dbdis ho ht.1 ht.2).1
  | dbbrk t => exact h.calm (k.calm_dbbrk t)
  | dbres t => exact h.calm (k.calm_dbres t)
  | dbnot t dat m₁ m₂ => exact h.calm (h.calm_dbnot ht dat m₁ m₂)
  | altpri t e inst => exact h.calm (k.calm_altpri t e inst)
  | setsv t on => exact h.calm (k.calm_setsv t on)
  | trqst2 t mcr ok => exact h.trqst2 t mcr ok
  | fixtk t ok => exact h.fixtk t ok
  | unftk t => exact h.unftk t
  | remtk t => exact h.remtk t
  | install t b =>
    have hx : b.xdt = none := by rw [Tcb.xdt, hr.2.2.2]; rfl
    have hb : b.Tied := tied_of_idle hx (by rw [hr.2.2.1.1]) (by rw [hr.2.2.1.1])
    exact (h.fresh hr.2.1 hx hb).calm ((Calm.refl _).congr rfl rfl rfl)
  | ldgo t => exact h.ldgo t
  | ldckr t => exact h.ldckr t
  | ldckw t => exact h.ldckw t
  | chkpt t space => exact h.calm (k.calm_chkpt t space)
  | tkill t e v => exact h.tkill ho ht hc
  | tkill2 t => exact h.calm (calm_tkill2 (h.xdt_of_abo hr))
  | io t n => exact h.calm (Calm.of_tie rfl)
  | user t m sp pc af => exact h.calm (k.calm_user t m sp pc af)

/-- The debugger links are sound: `TS.XDT`, in `T.SVST` during an AST, marks exactly the
debuggers, the pointers of a debugger and of the task it debugs designate each other,
through the descriptor of the latter, a task has at most one debugger and a debugger at
most one task, a descriptor in the pool belongs to exactly one link, a task with a link
has neither ended nor is it about to, and no control block has been taken for a
descriptor or a descriptor used that is free. -/
structure SoundLinks (k : Kernel T) : Prop where
  mark : ∀ g, (k.tcb g).marked = true ↔ ∃ t, k.Debugs g t
  point : ∀ g t, (k.tcb g).xdt = some (.task t) ↔ k.Debugs g t
  back : ∀ t d, (k.tcb t).xdt = some (.desc d) → ∃ g, k.Debugs g t
  debugger : ∀ g g' t, k.Debugs g t → k.Debugs g' t → g = g'
  debugged : ∀ g t t', k.Debugs g t → k.Debugs g t' → t = t'
  desc : ∀ d x, k.xdb d = some x → ∃! t, (k.tcb t).xdt = some (.desc d)
  alive : ∀ t, (k.tcb t).xdt ≠ none → (k.tcb t).st.act = true ∧ (k.tcb t).st1.abo = false
  wild : .wildXdt ∉ k.faults

omit [DecidableEq T] [Fintype T] in
theorem Linked.sound (h : k.Linked) : k.SoundLinks where
  mark g := by
    rw [(h.tied g).mark, Tcb.leads_eq_true]
    exact exists_congr fun t => ⟨h.task g t, h.xdt_of_debugs⟩
  point g t := ⟨h.task g t, h.xdt_of_debugs⟩
  back t d hd := by
    obtain ⟨x, hx, -⟩ := h.desc t d hd
    exact ⟨x.tcb, d, x, hd, hx, rfl⟩
  debugger _ _ _ hg hg' := hg.unique hg'
  debugged _ _ _ ht ht' :=
    Xdt.task.inj (Option.some.inj ((h.xdt_of_debugs ht).symm.trans (h.xdt_of_debugs ht')))
  desc d x hx := by
    obtain ⟨t, ht⟩ := h.used d x hx
    exact ⟨t, ht, fun u hu => h.eq_of_desc hu ht⟩
  alive t := (h.tied t).alive
  wild := h.wild

/-- Nobody debugs anybody. -/
structure NoLinks (k : Kernel T) : Prop where
  xdt : ∀ t, (k.tcb t).xdt = none ∧ (k.tcb t).st.xdt = false ∧ (k.tcb t).st.ast = false
  xdb : ∀ d, k.xdb d = none
  wild : .wildXdt ∉ k.faults

omit [DecidableEq T] [Fintype T] in
theorem NoLinks.linked (h : k.NoLinks) : k.Linked where
  tied t := tied_of_idle (h.xdt t).1 (h.xdt t).2.1 (h.xdt t).2.2
  desc t _ hd := (nomatch (h.xdt t).1.symm.trans hd)
  task g _ hg := (nomatch (h.xdt g).1.symm.trans hg)
  used d _ hx := (nomatch (h.xdb d).symm.trans hx)
  wild := h.wild

end Kernel

variable [DecidableEq T] [Fintype T] {k k' : Kernel T}

/-- In every state reached from the boot of the system by safe and tame steps the debugger
links are sound. -/
theorem links_sound_of_reach (h₀ : k.Boot) (h₁ : k.NoLinks)
    (hr : Reach (Step fun op k => op.Safe k ∧ op.Tame k) k k') : k'.SoundLinks := by
  have hinv : k'.Ok ∧ k'.Linked := by
    refine hr.invariant (P := fun k => k.Ok ∧ k.Linked) ⟨h₀.ok, h₁.linked⟩ fun a b h hs => ?_
    refine ⟨h.1.step ?_, h.2.step h.1 hs⟩
    obtain ⟨op, hready, hc, he⟩ := hs
    exact ⟨op, hready, hc.1, he⟩
  exact hinv.2.sound

/-! ### A debugging session -/

/-- `boot2` with a privileged task 0. -/
def bootDebug : Kernel (Fin 2) :=
  { boot2 with tcb := fun t => { boot2.tcb t with attr := { prv := true } } }

theorem bootDebug_boot : bootDebug.Boot := ⟨fun _ => rfl, fun _ => rfl⟩

theorem bootDebug_noLinks : bootDebug.NoLinks :=
  ⟨fun _ => ⟨rfl, rfl, rfl⟩, fun _ => rfl, List.not_mem_nil⟩

/-- Task 0 starts to debug task 1. -/
def connect : List (Op (Fin 2)) := start2 ++ [.dbcon 1 3 512 (some 4096)]

/-- Task 0 stops task 1 at a breakpoint and has it go on; then task 1 exits, which task 0
is told through flag 3. -/
def exit : List (Op (Fin 2)) :=
  [.dbbrk 1, .dbres 1, .tkill 1 0 ⟨[128, 0, 0, 0], true, true, 0, 0, false⟩]

theorem admits_connect : Admits (fun op k => op.Safe k ∧ op.Tame k) connect bootDebug := by
  refine admits_append (l := start2) ?_ ⟨⟨⟨?_, ?_⟩, trivial, ?_⟩, trivial⟩
  · simp only [start2, Admits, Op.Ready, Op.Safe, Op.Tame, and_self]
  · rintro g ⟨⟩
    exact ⟨rfl, rfl, rfl⟩
  · rintro e ⟨⟩
    rfl
  · rintro g ⟨⟩
    exact ⟨⟨⟨0, none, 256, 0⟩, rfl, rfl⟩, rfl, rfl⟩

/-- Task 1 is debugged by task 0 and exits. -/
theorem links_sound_of_reach_exit : (runAll (connect ++ exit) bootDebug).SoundLinks := by
  refine links_sound_of_reach bootDebug_boot bootDebug_noLinks (reach_runAll ?_)
  refine admits_append admits_connect ?_
  -- task 0 has not declared a routine for debug events
  have hdeaf : ((runAll (connect ++ [.dbbrk 1, .dbres 1]) bootDebug).tcb 0).Deaf :=
    ⟨rfl, Or.inr rfl⟩
  have hdeb : ∀ d x, ((runAll (connect ++ [.dbbrk 1, .dbres 1]) bootDebug).tcb 1).xdt =
      some (.desc d) → (runAll (connect ++ [.dbbrk 1, .dbres 1]) bootDebug).xdb d = some x →
      x.tcb = 0 := by
    rintro d x ⟨⟩ ⟨⟩
    rfl
  refine ⟨⟨trivial, trivial, trivial⟩, ⟨trivial, trivial, trivial⟩, ⟨trivial, fun _ _ => ?_,
    fun _ => ⟨(by rintro ⟨⟩), ?_⟩⟩, trivial⟩
  · rintro d x hd hx ⟨hq, -⟩
    have hq' : (((runAll (connect ++ [.dbbrk 1, .dbres 1]) bootDebug).tcb x.tcb).qast
      .db 0 [] true).isSome = true := hq
    rw [hdeb d x hd hx] at hq'
    cases hq'
  · rintro g ⟨d, x, hd, hx, rfl⟩
    have hg : x.tcb = 0 := hdeb d x hd hx
    rw [hg]
    exact hdeaf

theorem unmarked_of_dbcon : ∃ k k' : Kernel (Fin 2), k.Boot ∧ k.NoLinks ∧
    Reach (Step fun op k => op.Safe k ∧ op.Tame k) k k' ∧
    ¬∀ t, (k'.tcb t).marked = true ↔ ∃ g, k'.Debugs g t := by
  refine ⟨bootDebug, _, bootDebug_boot, bootDebug_noLinks, reach_runAll admits_connect, fun h => ?_⟩
  obtain ⟨g, d, x, hd, -⟩ := (h 0).mp rfl
  cases hd

end RSX280.Sched
