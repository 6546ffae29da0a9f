import RSX280.SchedFits

/-!
# The operations keep the scheduler lists

One lemma for each operation of the kernel. `Tcb.Alert` and `Kernel.Breaks` name the
two cases in which the code does not: a task `SEND` wakes up itself, and a task `QAST`
takes off its breakpoint.
-/

namespace RSX280.Sched

open Links

universe u

variable {T : Type u}

/-! ## The operations keep the lists -/

/-- The lists are in order. -/
def Kernel.Ok (k : Kernel T) : Prop := ∃ l, Listed k l

theorem Kernel.Ok.congr {k k' : Kernel T} (h : k.Ok) (ht : k'.tcb = k.tcb)
    (ha : k'.actl = k.actl) (hs : k'.since = k.since) (hc : k'.clock = k.clock) : k'.Ok :=
  let ⟨l, hl⟩ := h
  ⟨l, hl.congr (fun t => by rw [ht]) ha hs hc⟩

theorem Kernel.Ok.fault {k : Kernel T} (h : k.Ok) (f : Fault) : (k.fault f).Ok :=
  h.congr rfl rfl rfl rfl

section Ops

variable [DecidableEq T] {k : Kernel T} {t : T} {b c : Tcb T}

theorem Kernel.Ok.setTcb (h : k.Ok) (hb : b.key = (k.tcb t).key) : (k.setTcb t b).Ok :=
  let ⟨l, hl⟩ := h
  ⟨l, hl.setTcb_key hb⟩

theorem Kernel.Ok.setCtx (h : k.Ok) (f : Ctx T → Ctx T) : (k.setCtx t f).Ok := h.setTcb rfl

/-- An inactive task may change in any way as long as it stays inactive. -/
theorem Kernel.Ok.setTcb_inactive (h : k.Ok) (ht : (k.tcb t).st.act = false)
    (hb : b.st.act = false) : (k.setTcb t b).Ok :=
  let ⟨l, hl⟩ := h
  ⟨l, ((hl.unlisted ht).setTcb b).listed (by rwa [setTcb_self])⟩

/-- A task on the waiting list stays there if its new status is a blocked one. -/
theorem Kernel.Ok.setTcb_wait (h : k.Ok) (ha : b.st.act = (k.tcb t).st.act)
    (hp : b.pri = (k.tcb t).pri) (hs : (k.tcb t).Saved → b.Saved)
    (hk : (k.tcb t).home = .wlist) (hb : b.home = .wlist) : (k.setTcb t b).Ok :=
  let ⟨l, hl⟩ := h
  ⟨l, hl.setTcb ha hp (hb.trans hk.symm) (hs (hl.saved t))⟩

theorem Kernel.Ok.clrflg (h : k.Ok) (e : ℕ) : (k.clrflg t e).1.Ok := by
  rw [Kernel.clrflg]
  split
  · exact h
  · exact h.setTcb rfl

theorem Kernel.Ok.enqueue (h : k.Ok) (i : Item T) : (k.enqueue t i).Ok := h.setTcb rfl

theorem Kernel.Ok.recv (h : k.Ok) : (k.recv).1.Ok := by
  rw [Kernel.recv]
  split
  · exact h
  · split
    · exact h
    · exact h.setTcb rfl

/-- `QAST` of the event would lose a task stopped at a breakpoint. -/
def Kernel.Breaks (k : Kernel T) (t : T) (a : AstType) (addr : ℕ) (mem : Bool) : Prop :=
  ((k.tcb t).qast a addr [] mem).isSome ∧ (k.tcb t).LosesBpt

/-- What a routine changes before it queues the event does not matter. -/
theorem Kernel.Breaks.of_setTcb {a : AstType} {addr : ℕ} {mem : Bool}
    (h : (k.setTcb t b).Breaks t a addr mem) (hs : b.sast = (k.tcb t).sast)
    (hl : b.LosesBpt ↔ (k.tcb t).LosesBpt) : k.Breaks t a addr mem := by
  rw [Breaks, setTcb_self] at h
  exact ⟨(Tcb.qast_isSome [] [] hs).symm.trans h.1, hl.mp h.2⟩

theorem Kernel.Ok.unlist (h : k.Ok) : (k.unlist t).Ok := by
  rw [Kernel.unlist]
  split
  · have h₁ : Ok { k with tlist := k.tlist.erase t } := h.congr rfl rfl rfl rfl
    exact h₁.setTcb rfl
  · exact h

theorem Kernel.Ok.attach (h : k.Ok) (g : T) (efn dsb d : ℕ) : (k.attach g t efn dsb d).Ok := by
  have h₁ : Ok { k with xdb := Function.update k.xdb d (some ⟨g, dsb, efn⟩) } :=
    h.congr rfl rfl rfl rfl
  refine Kernel.Ok.setCtx ?_ _
  refine Kernel.Ok.setTcb ?_ rfl
  exact h₁.setCtx _

theorem Kernel.Ok.detach (h : k.Ok) (g : T) (d : ℕ) : (k.detach g t d).Ok := by
  have h₁ : Ok { k with xdb := Function.update k.xdb d none } := h.congr rfl rfl rfl rfl
  refine Kernel.Ok.setCtx ?_ _
  refine Kernel.Ok.setTcb ?_ rfl
  exact h₁.setCtx _

theorem Kernel.Ok.dbcon (h : k.Ok) (efn dsb : ℕ) (d : Option ℕ) :
    (k.dbcon t efn dsb d).1.Ok := by
  rw [Kernel.dbcon]
  repeat' split
  all_goals first | exact h | exact h.attach ..

theorem Kernel.Ok.fixtk (h : k.Ok) (ok : Bool) : (k.fixtk t ok).1.Ok := by
  rw [Kernel.fixtk]
  split
  · exact h
  rename_i hact
  split
  · exact h
  split
  · exact h
  · exact h.setTcb_inactive (by simpa using hact) rfl

theorem Kernel.Ok.unfix (h : k.Ok) : (k.unfix t).1.Ok := by
  rw [Kernel.unfix]
  split
  · exact h
  · exact h.setTcb rfl

theorem Kernel.Ok.unftk (h : k.Ok) : (k.unftk t).1.Ok := by
  rw [Kernel.unftk]
  split
  · exact h
  · exact h.unfix

theorem Kernel.Ok.remtk (h : k.Ok) : (k.remtk t).1.Ok := by
  rw [Kernel.remtk]
  split
  · exact h
  split
  · exact h
  · exact (h.unfix (t := t)).congr rfl rfl rfl rfl

theorem Kernel.Ok.dequeue (h : k.Ok) : (k.dequeue t).Ok := by
  rw [Kernel.dequeue]
  split
  · exact h
  · exact h.setTcb rfl

theorem Kernel.Ok.setsv (h : k.Ok) (on : Bool) : (k.setsv t on).1.Ok := by
  rw [Kernel.setsv]
  split
  · exact h
  · exact h.setTcb rfl

theorem Kernel.Ok.user (h : k.Ok) (m : Mem) (sp pc af : ℕ) : (k.user t m sp pc af).Ok := by
  refine Kernel.Ok.setCtx ?_ _
  exact h.setTcb rfl

theorem Kernel.Ok.astctl (h : k.Ok) (on : Bool) : (k.astctl t on).Ok := h.setTcb rfl

theorem Kernel.Ok.astdcl (h : k.Ok) (a : AstType) (addr seen : ℕ) (mem : Bool) :
    (k.astdcl t a addr seen mem).1.Ok := by
  rw [Kernel.astdcl]
  repeat' split
  all_goals first | exact h | exact h.setTcb rfl

/-- The event for the debugger of `t` would not lose the debugger. -/
def Kernel.Quiet (k : Kernel T) (t : T) (m : Bool) : Prop :=
  ∀ d x, (k.tcb t).ctx.bind (·.xdt) = some (.desc d) → k.xdb d = some x →
    ¬k.Breaks x.tcb .db 0 m

omit [DecidableEq T] in
theorem Kernel.Quiet.congr {k' : Kernel T} {m : Bool} (h : k.Quiet t m) (ht : k'.tcb = k.tcb)
    (hx : k'.xdb = k.xdb) : k'.Quiet t m := by
  intro d x hd hxd hb
  rw [ht] at hd
  rw [hx] at hxd
  rw [Breaks, ht] at hb
  exact h d x hd hxd hb

/-- Before it aborts the running task `t`, a routine has changed nothing but `t`. -/
theorem Kernel.Quiet.setTcb {m : Bool} (h : k.Quiet t m)
    (hb : b.st.ast = true ∨ b.st.bpt = false)
    (hx : b.ctx.bind (·.xdt) = (k.tcb t).ctx.bind (·.xdt)) : (k.setTcb t b).Quiet t m := by
  intro d x hd hxd hbr
  rw [setTcb_self, hx] at hd
  rcases eq_or_ne x.tcb t with he | hne
  · rw [he, Breaks, setTcb_self] at hbr
    rcases hb with hb | hb
    · exact nomatch hb.symm.trans hbr.2.1
    · exact nomatch hb.symm.trans hbr.2.2.2.2.1
  · refine h d x hd hxd ?_
    rwa [Breaks, setTcb_of_ne hne] at hbr

variable [Fintype T]

theorem Kernel.Ok.settle (h : k.Ok) {o : Outcome T} (ho : o.Fits (k.tcb t)) : (k.settle t o).Ok :=
  let ⟨_, hl⟩ := h
  hl.settle ho

theorem Kernel.Ok.onTask (h : k.Ok) {f : Tcb T → Outcome T} (hf : ∀ b, (f b).Fits b) :
    (k.onTask t f).1.Ok :=
  let ⟨_, hl⟩ := h
  hl.onTask (hf _)

@[simp] theorem Kernel.lktcb_tcb (q : Q) : (k.lktcb q t).tcb = k.tcb := rfl

@[simp] theorem Kernel.relist_tcb (iy : Cell Q T) (q : Q) : (k.relist iy t q).tcb = k.tcb := rfl

@[simp] theorem Kernel.settle_tcb (o : Outcome T) : (k.settle t o).tcb = (k.setTcb t o.tcb).tcb := by
  rw [settle]
  split <;> rfl

@[simp] theorem Kernel.settle_xdb (o : Outcome T) : (k.settle t o).xdb = k.xdb := by
  rw [settle]
  split <;> rfl

theorem Kernel.Ok.rrobin (h : k.Ok) (elapsed : Bool) : (k.rrobin elapsed).Ok := by
  unfold Kernel.rrobin
  cases elapsed with
  | false => exact h
  | true =>
    cases ht : k.actl (.head .rlist) with
    | none => exact h
    | some t =>
      dsimp only
      split
      · exact h
      · -- the head of the list is its first task
        obtain ⟨l, hl⟩ := h
        have hc := hl.lists.chain .rlist
        cases hr : l .rlist with
        | nil => rw [hr] at hc; exact absurd (ht.symm.trans hc) nofun
        | cons a l₂ =>
          rw [hr] at hc
          obtain rfl := Option.some.inj (ht.symm.trans hc.1)
          exact @Listed.relist_self _ _ _ _ _ _ hl _ [] l₂ hr

theorem Kernel.Ok.dsptch (h : k.Ok) (elapsed : Bool) : (k.dsptch elapsed).Ok := by
  rw [Kernel.dsptch]
  split
  · exact h.rrobin elapsed
  · exact (h.rrobin elapsed).congr rfl rfl rfl rfl

theorem Kernel.Ok.setflg (h : k.Ok) (e : ℕ) : (k.setflg t e).1.Ok := by
  rw [Kernel.setflg]
  split
  · exact h
  split
  · exact h
  rename_i m _
  have h' : (k.setTcb t { k.tcb t with flgs := (k.tcb t).flgs ||| m }).Ok := h.setTcb rfl
  dsimp only
  split
  · exact h'.onTask Tcb.tcont_fits
  · exact h'

theorem Kernel.Ok.flwtlo (h : k.Ok) (m : BitVec 32) : (k.flwtlo t m).1.Ok := by
  refine Kernel.Ok.onTask ?_ Tcb.flwait0_fits
  exact h.setTcb rfl

theorem Kernel.Ok.flstlo (h : k.Ok) (m : BitVec 32) : (k.flstlo t m).1.Ok := by
  refine Kernel.Ok.onTask ?_ Tcb.flstop0_fits
  exact h.setTcb rfl

theorem Kernel.Ok.setmsk (h : k.Ok) (e : ℕ) {f : Tcb T → Outcome T} (hf : ∀ b, (f b).Fits b) :
    (k.setmsk t e f).1.Ok := by
  rw [Kernel.setmsk]
  split
  · exact h.setTcb rfl
  · refine Kernel.Ok.onTask ?_ hf
    exact h.setTcb rfl

theorem Kernel.Ok.qast (h : k.Ok) {a : AstType} {addr : ℕ} {dat : List UInt8} {mem : Bool}
    (hb : ¬k.Breaks t a addr mem) : (k.qast t a addr dat mem).Ok := by
  rw [Kernel.qast]
  split
  · exact h
  · rename_i c hc
    obtain ⟨hkey, hlose⟩ := Tcb.qast_key hc
    refine h.settle (Outcome.Fits.of_key (Tcb.setast_fits fun hl => hb ⟨?_, hlose.mp hl⟩) hkey)
    rw [Tcb.qast_isSome [] dat rfl, hc]
    rfl

/-! ### Send and receive -/

@[simp] theorem Kernel.qast_tcb (a : AstType) (addr : ℕ) (dat : List UInt8) (mem : Bool) :
    (k.qast t a addr dat mem).tcb = (k.setTcb t ((k.tcb t).queued a addr dat mem)).tcb := by
  rw [qast, Tcb.queued]
  cases (k.tcb t).qast a addr dat mem with
  | none => exact (Function.update_eq_self t k.tcb).symm
  | some c => exact settle_tcb _

/-- `SEND` keeps the lists unless it wakes the receiver up itself. -/
theorem Kernel.Ok.send (h : k.Ok) {i : Item T} {mem : Bool}
    (ha : (k.tcb t).st.act = true → ¬(k.tcb t).Alert mem) (hb : ¬k.Breaks t .rd 0 mem) :
    (k.send t i mem).1.Ok := by
  rw [Kernel.send]
  dsimp only
  have he := h.enqueue (t := t) i
  split
  · exact he
  rename_i iy hf
  have hact : (k.tcb t).st.act = true := by
    obtain ⟨l, hl⟩ := he
    simpa [Kernel.enqueue] using (hl.of_fntcb hf).1
  have hq : ((k.enqueue t i).qast t .rd 0 [] mem).Ok :=
    he.qast fun hc => hb (hc.of_setTcb rfl Iff.rfl)
  split
  · rename_i hr
    rw [qast_tcb, setTcb_self] at hr
    have hal := Tcb.alert_of_ready hr
    rw [Kernel.enqueue, setTcb_self] at hal
    exact absurd hal.of_rcvl (ha hact)
  · exact hq.settle (Tcb.datain_fits _)

theorem Kernel.Ok.qldr (h : k.Ok) : (k.qldr t).1.Ok := by
  rw [Kernel.qldr]
  split
  · exact h
  · exact (h.enqueue _).onTask Tcb.ldrin_fits

/-! ### The debugger -/

theorem Kernel.Ok.dbbrk (h : k.Ok) : (k.dbbrk t).1.Ok := by
  rw [Kernel.dbbrk]
  split
  · exact h
  · exact h.settle (Tcb.dbbrk_fits _)

theorem Kernel.Ok.dbres (h : k.Ok) : (k.dbres t).1.Ok := h.settle (Tcb.dbres_fits _)

theorem Kernel.Ok.dbdis (h : k.Ok) : (k.dbdis t).1.Ok := by
  rw [Kernel.dbdis]
  split
  · exact h.dbres
  dsimp only
  split
  · exact h.dbres
  · exact h.dbres.fault _
  split
  · exact h.dbres.fault _
  · exact h.dbres.detach ..

theorem Kernel.Ok.sdinfo (h : k.Ok) {a : AstType} {addr : ℕ} {dat : List UInt8} {m₁ m₂ : Bool}
    (hb : ¬k.Breaks t a 0 m₂) : (k.sdinfo t a addr dat m₁ m₂).Ok := by
  rw [Kernel.sdinfo]
  split
  · split
    · refine Kernel.Ok.qast ?_ fun hc => hb (hc.of_setTcb rfl Iff.rfl)
      exact h.setTcb rfl
    · exact h
  · refine Kernel.Ok.qast ?_ fun hc => hb (hc.of_setTcb rfl Iff.rfl)
    exact h.setTcb rfl

theorem Kernel.Ok.dbnot (h : k.Ok) {dat : List UInt8} {m₁ m₂ : Bool} (hq : k.Quiet t m₂) :
    (k.dbnot t dat m₁ m₂).1.Ok := by
  rw [Kernel.dbnot]
  split
  · exact h
  · exact h.fault _
  rename_i d hd
  split
  · exact h.fault _
  rename_i x hx
  have h' : (k.sdinfo x.tcb .db x.dsb dat m₁ m₂).Ok := h.sdinfo (hq d x hd hx)
  dsimp only
  split
  · exact h'
  · exact h'.setflg _

theorem Kernel.Ok.clndbg (h : k.Ok) {dat : List UInt8} {m₁ m₂ : Bool}
    (hq : (k.tcb t).st.xdt = false → k.Quiet t m₂) : (k.clndbg t dat m₁ m₂).Ok := by
  rw [Kernel.clndbg]
  split
  · exact h
  · exact h.dbdis
  · exact h.fault _
  · rename_i hx
    exact (h.dbnot (hq hx)).dbdis

/-! ### Start, load and kill -/

/-- `tgo2` puts a task that has lost its last blocking bit, from whichever list, where it
belongs. -/
theorem Kernel.Ok.tgo2 (h : k.Ok) (ha : b.st.act = (k.tcb t).st.act)
    (hp : b.pri = (k.tcb t).pri) (hbpt : b.st.bpt = (k.tcb t).st.bpt)
    (hb : b.st1 = Blocking.clear) (hs : (k.tcb t).Saved → b.Saved) :
    ((k.setTcb t b).tgo2 t).1.Ok := by
  obtain ⟨l, hl⟩ := h
  have hsv := hs (hl.saved t)
  rw [Kernel.tgo2, setTcb_self]
  split
  · -- stopped at a breakpoint before and after
    rename_i h₁
    refine ⟨l, hl.setTcb ha hp ?_ hsv⟩
    rw [Tcb.home_eq_wlist.mpr (Or.inr h₁), Tcb.home_eq_wlist.mpr (Or.inr (hbpt ▸ h₁))]
  rename_i h₁
  have hhome : b.home = .rlist := Tcb.home_eq_rlist.mpr ⟨hb, by simpa using h₁⟩
  cases hf : (k.setTcb t b).ftcb .wlist t with
  | some iy =>
    obtain ⟨hact, -, l₁, l₂, hsp, rfl⟩ := hl.of_ftcb hf
    exact hl.relist hsp (ha.trans hact) hhome hsv
  | none =>
    by_cases hact : (k.tcb t).st.act = true
    · refine ⟨l, hl.setTcb ha hp (hhome.trans ?_) hsv⟩
      obtain ⟨l₁, -, -, hi⟩ := hl.ftcb_of_active hact
      cases hq : (k.tcb t).home with
      | rlist => rfl
      | wlist => rw [hq] at hi; cases hf.symm.trans hi
    · rw [Bool.not_eq_true] at hact
      exact Kernel.Ok.setTcb_inactive ⟨l, hl⟩ hact (ha.trans hact)

theorem Kernel.Ok.tkill2 (h : k.Ok) : (k.tkill2 t).1.Ok := by
  rw [Kernel.tkill2]
  split
  · exact h
  dsimp only
  split
  · exact h.unlist
  rename_i iy hf
  obtain ⟨l, hl⟩ := h.unlist (t := t)
  obtain ⟨-, q, l₁, l₂, hs, rfl⟩ := hl.of_fntcb hf
  refine ⟨_, ((hl.unlink hs).setTcb _).listed ?_⟩
  rw [setTcb_self]
  exact Tcb.ended_act _

theorem Kernel.Ok.ldgo (h : k.Ok) : (k.ldgo t).1.Ok := by
  rw [Kernel.ldgo]
  split
  · exact h.tkill2
  rename_i habo
  split
  · rename_i hact
    have hact' : (k.tcb t).st.act = false := by simpa using hact
    exact h.setTcb_inactive hact' hact'
  · exact h.tgo2 rfl rfl rfl rfl fun hs h₁ h₂ _ => hs h₁ h₂ (by simpa using habo)

theorem Kernel.Ok.ldckr (h : k.Ok) : (k.ldckr t).1.Ok := by
  rw [Kernel.ldckr]
  dsimp only
  have hw : ∀ {x : Blocking}, { x with out := false, ckp := false } ≠ Blocking.clear →
      x ≠ Blocking.clear := by
    rintro x hx rfl
    exact hx rfl
  split
  · rename_i habo
    have hne : { (k.tcb t).st1 with out := false, ckp := false } ≠ Blocking.clear := by
      intro hc
      have habo' : (k.tcb t).st1.abo = false := congrArg Blocking.abo hc
      exact nomatch Eq.trans (Eq.symm habo) habo'
    refine Kernel.Ok.tkill2 ?_
    exact h.setTcb_wait rfl rfl id (Tcb.home_of_ne (hw hne)) (Tcb.home_of_ne hne)
  · split
    · rename_i hc
      exact h.tgo2 rfl rfl rfl hc id
    · rename_i hc
      exact h.setTcb_wait rfl rfl id (Tcb.home_of_ne (hw hc)) (Tcb.home_of_ne hc)

theorem Kernel.Ok.ldckw (h : k.Ok) (hc : (k.tcb t).st1.ckp = true) : (k.ldckw t).1.Ok := by
  rw [Kernel.ldckw]
  dsimp only
  split
  · exact h.tkill2
  · refine h.setTcb_wait rfl rfl id (Tcb.home_of_ne fun he => ?_) (Tcb.home_of_ne fun he => ?_)
    · exact nomatch hc.symm.trans (congrArg Blocking.ckp he)
    · exact nomatch congrArg Blocking.out he

theorem Kernel.Ok.chkpt (h : k.Ok) (space : Bool) : (k.chkpt t space).1.Ok := by
  rw [Kernel.chkpt]
  dsimp only
  split
  · exact h
  split
  · exact h
  split
  · exact h
  split
  · exact h.setTcb rfl
  split
  · exact h
  apply Kernel.Ok.qldr
  obtain ⟨l, hl⟩ := h
  have hw : Tcb.home { k.tcb t with
      st := { (k.tcb t).st with ckr := false }
      st1 := { (k.tcb t).st1 with ckp := true } } = .wlist :=
    Tcb.home_of_ne fun he => nomatch congrArg Blocking.ckp he
  split
  · rename_i hf
    by_cases hact : (k.tcb t).st.act = true
    · refine Kernel.Ok.setTcb_wait ⟨l, hl⟩ rfl rfl id ?_ hw
      obtain ⟨l₁, -, -, hi⟩ := hl.ftcb_of_active hact
      cases hq : (k.tcb t).home with
      | wlist => rfl
      | rlist => rw [hq] at hi; cases Eq.trans (Eq.symm hf) hi
    · rw [Bool.not_eq_true] at hact
      exact Kernel.Ok.setTcb_inactive ⟨l, hl⟩ hact hact
  · rename_i iy hf
    obtain ⟨hact, -, l₁, l₂, hs, rfl⟩ := hl.of_ftcb (k := k) hf
    exact hl.relist hs hact hw (hl.saved t)

/-- The control block may as well be stored before the task is linked. -/
theorem Kernel.lktcb_setTcb (hp : b.pri = (k.tcb t).pri) (q : Q) :
    (k.lktcb q t).setTcb t b = (k.setTcb t b).lktcb q t := by
  have hpri : ∀ a, ((k.setTcb t b).tcb a).pri = (k.tcb a).pri := by
    intro a
    rcases eq_or_ne a t with rfl | ha
    · rw [setTcb_self, hp]
    · rw [setTcb_of_ne ha]
  simp only [lktcb, hpri]
  rfl

/-- Linking a task that becomes active. -/
theorem Kernel.Ok.link (h : k.Ok) (ht : (k.tcb t).st.act = false) (ha : b.st.act = true) {q : Q}
    (hq : b.home = q) (hs : b.Saved) : ((k.setTcb t b).lktcb q t).Ok := by
  obtain ⟨l, hl⟩ := h
  have hu := (hl.unlisted ht).setTcb b
  refine ⟨_, hu.lktcb ?_ ?_ ?_⟩ <;> rwa [setTcb_self]

theorem Kernel.Ok.trqst2 (h : k.Ok) (mcr ok : Bool) : (k.trqst2 t mcr ok).1.Ok := by
  rw [Kernel.trqst2]
  split
  · exact h
  rename_i hact
  have ht : (k.tcb t).st.act = false := by simpa using hact
  dsimp only
  split
  · exact h.setTcb_inactive ht ht
  -- as far as the lists go the task is started out of memory
  obtain ⟨r, hr⟩ : ∃ r, r = ((k.tcb t).reset mcr).request := ⟨_, rfl⟩
  have hra : r.st.act = true := by rw [hr]; rfl
  have hrs : r.st.ast = false := by rw [hr]; rfl
  have hrb : r.st.bpt = false := by rw [hr]; rfl
  have hsv : ∀ x, Tcb.Saved { r with st1 := x } := fun x _ h₂ => nomatch hrs.symm.trans h₂
  rw [← hr]
  have hout : ((k.setTcb t { r with st1 := { out := true } }).lktcb .wlist t).Ok :=
    h.link (b := { r with st1 := { out := true } }) ht hra
      (Tcb.home_of_ne fun hc => nomatch congrArg Blocking.out hc) (hsv _)
  split
  · rw [lktcb_setTcb (by rw [setTcb_self]), setTcb_setTcb]
    exact hout
  split
  · rename_i ho
    exact h.link ht hra (Tcb.home_of_ne fun hc => nomatch ho.symm.trans (congrArg Blocking.out hc))
      fun _ h₂ => nomatch hrs.symm.trans h₂
  -- a fixed task that is in memory: `$LDGO` moves it on to the ready list
  have habo : r.st1.abo = false := by rw [hr]; rfl
  rw [Kernel.ldgo, lktcb_tcb, setTcb_self, if_neg (by simp [habo]), if_neg (by simp [hra])]
  rw [lktcb_setTcb (by rw [setTcb_self]), setTcb_setTcb,
    ← setTcb_setTcb (k := k) (t := t) (b := { r with st1 := { out := true } }),
    ← lktcb_setTcb (by rw [setTcb_self])]
  refine hout.tgo2 ?_ ?_ ?_ rfl fun _ _ h₂ => nomatch hrs.symm.trans h₂
  · rw [lktcb_tcb, setTcb_self]
  · rw [lktcb_tcb, setTcb_self]
  · rw [lktcb_tcb, setTcb_self]

theorem Kernel.Ok.tkill1 (h : k.Ok) {e : ℕ} {v : KillEnv}
    (hq : (k.tcb t).st.xdt = false → k.Quiet t v.m₂) : (k.tkill1 t e v).Ok := by
  refine (h.clndbg hq).settle (Outcome.fits_wait rfl rfl (fun _ _ _ => nofun) ?_)
  exact Tcb.home_of_ne fun hc => nomatch congrArg Blocking.abo hc

theorem Kernel.Ok.tk6 (h : k.Ok) (v : KillEnv) : (k.tk6 t v).1.Ok := by
  have hd : (if v.waiting then k else k.dequeue t).Ok := by
    split
    · exact h
    · exact h.dequeue
  rw [Kernel.tk6]
  split
  · split
    · exact h
    split
    · exact h
    dsimp only
    split
    · exact hd
    · exact hd.tkill2
  · split
    · exact h
    · exact h.tkill2

/-- `TKILL` goes ahead. -/
def Kernel.Mortal (k : Kernel T) (t : T) : Prop :=
  k.mcrtcb ≠ some t ∧ k.ldrtcb ≠ some t ∧ (k.tcb t).st.act = true ∧ (k.tcb t).st1.abo = false

theorem Kernel.Ok.tkill (h : k.Ok) {e : ℕ} {v : KillEnv}
    (hq : k.Mortal t → (k.tcb t).st.xdt = false → k.Quiet t v.m₂) : (k.tkill t e v).1.Ok := by
  rw [Kernel.tkill]
  split
  · exact h
  rename_i hs
  split
  · exact h
  rename_i hact
  split
  · exact h
  rename_i habo
  rw [not_or] at hs
  have hk := h.tkill1 (e := e) (hq ⟨hs.1, hs.2, by simpa using hact, by simpa using habo⟩)
  split
  · exact hk
  · exact hk.tk6 v

/-! ### Priority -/

theorem Kernel.Ok.altp5 (h : k.Ok) {e p : ℕ} (d : ℕ) :
    ((k.setTcb t { k.tcb t with pri := p, dpri := d }).altp5 t e).Ok := by
  obtain ⟨l, hl⟩ := h
  have hrel : ∀ q iy, k.ftcb q t = some iy →
      ((k.setTcb t { k.tcb t with pri := e, dpri := d }).relist iy t q).Ok := by
    intro q iy hf
    obtain ⟨hact, hq, l₁, l₂, hs, rfl⟩ := hl.of_ftcb hf
    exact hl.relist hs hact hq (hl.saved t)
  have hrepri : ∀ q, (k.setTcb t { k.tcb t with pri := p, dpri := d }).repri q t e =
      (k.ftcb q t).map fun iy =>
        (k.setTcb t { k.tcb t with pri := e, dpri := d }).relist iy t q := by
    intro q
    rw [repri, setTcb_self, setTcb_setTcb]
    rfl
  rw [Kernel.altp5, hrepri, hrepri]
  cases hr : k.ftcb .rlist t with
  | some iy => exact hrel _ _ hr
  | none =>
    cases hw : k.ftcb .wlist t with
    | some iy => exact hrel _ _ hw
    | none =>
      -- on no list: the task is not active
      have hn : k.fntcb t = none := by rw [fntcb, hr, hw]; rfl
      have hact := hl.fntcb_eq_none.mp hn
      exact Kernel.Ok.setTcb_inactive ⟨l, hl⟩ hact hact

theorem Kernel.Ok.altpri (h : k.Ok) (e : ℕ) (inst : Bool) : (k.altpri t e inst).1.Ok := by
  have hset : k.setTcb t { k.tcb t with pri := (k.tcb t).pri, dpri := (k.tcb t).dpri } = k := by
    simp only [Kernel.setTcb, Function.update_eq_self]
  rw [Kernel.altpri]
  dsimp only
  split
  · exact h
  split
  · split
    · exact h
    · have h₁ : ∀ l, Ok { k with tlist := l } := fun l => h.congr rfl rfl rfl rfl
      exact (h₁ _).altp5 _
  · have h' := h.altp5 (t := t) (e := if e = 0 then (k.tcb t).dpri else e) (p := (k.tcb t).pri)
      (k.tcb t).dpri
    rwa [hset] at h'

/-! ### Delivery of ASTs -/

/-- Task `t` is the current one, and running. -/
def Kernel.Running (k : Kernel T) (t : T) : Prop :=
  k.ctcb = some t ∧ (k.tcb t).st.act = true ∧ (k.tcb t).home = .rlist

/-- The event `DOAST` delivers does not fit on the stack. -/
def Tcb.Overflow (b : Tcb T) : Prop :=
  b.drain.astl ≠ [] ∧ b.drain.setast.ret = .ok ∧ b.drain.setast.tcb.deliver.2 = false

theorem Kernel.Ok.doast_setast (h : k.Ok) (hr : k.Running t) :
    ((k.setTcb t (k.tcb t).drain).setast t).1.Ok := by
  have hbpt : (k.tcb t).st.bpt = false := (Tcb.home_eq_rlist.mp hr.2.2).2
  have h₁ : (k.setTcb t (k.tcb t).drain).Ok := h.setTcb rfl
  refine h₁.settle (Tcb.setast_fits fun hl => ?_)
  rw [setTcb_self] at hl
  exact nomatch hbpt.symm.trans hl.2.2.2.1

theorem Kernel.setast_drain_tcb (k : Kernel T) (t : T) :
    ((k.setTcb t (k.tcb t).drain).setast t).1.tcb t = (k.tcb t).drain.setast.tcb := by
  rw [Kernel.setast, settle_tcb, setTcb_self, setTcb_self]

/-- `DOAST` on a bad stack: the lists are in order when the task is aborted, and what its
debugger is told does no harm. -/
theorem Kernel.Ok.doast_abort (h : k.Ok) {m : Bool} (hr : k.Running t) (hq : k.Quiet t m)
    (hd : (k.tcb t).drain.setast.tcb.deliver = (b, false)) :
    (((k.setTcb t (k.tcb t).drain).setast t).1.setTcb t b).Ok ∧
      (((k.setTcb t (k.tcb t).drain).setast t).1.setTcb t b).Quiet t m := by
  have hbpt : (k.tcb t).st.bpt = false := (Tcb.home_eq_rlist.mp hr.2.2).2
  have hcx : (k.tcb t).drain.setast.tcb.ctx.bind (·.xdt) = (k.tcb t).ctx.bind (·.xdt) := by
    rw [Tcb.setast_xdt]
    rfl
  have hcb : (k.tcb t).drain.setast.tcb.st.ast = true ∨
      (k.tcb t).drain.setast.tcb.st.bpt = false := by
    rcases (k.tcb t).drain.setast_cases with ⟨he, -⟩ | he
    · exact Or.inr (by rw [he]; exact hbpt)
    · exact Or.inl he
  have hkey := Tcb.deliver_key (k.tcb t).drain.setast.tcb
  rcases (k.tcb t).drain.setast.tcb.deliver_cases with he | ⟨he, hst⟩
  · rw [hd] at he
    cases he
  rw [hd] at hkey he hst
  refine ⟨(h.doast_setast hr).setTcb (by rw [setast_drain_tcb]; exact hkey), ?_⟩
  have hb : b.ctx.bind (·.xdt) = (k.tcb t).ctx.bind (·.xdt) := by rw [he, hcx]
  refine (hq.setTcb (b := b) (hst ▸ hcb) hb).congr ?_ ?_
  · simp only [Kernel.setast, Kernel.setTcb, settle_tcb, Function.update_idem]
  · exact settle_xdb _

theorem Kernel.Ok.doast (h : k.Ok) {e : ℕ} {v : KillEnv} (hr : k.Running t)
    (hq : (k.tcb t).Overflow → k.Quiet t v.m₂) : (k.doast t e v).1.Ok := by
  rw [Kernel.doast]
  dsimp only
  rw [setTcb_self]
  split
  · exact h.setTcb rfl
  rename_i hne
  split
  · exact h.setTcb rfl
  rename_i hret
  have hkey := Tcb.deliver_key (k.tcb t).drain.setast.tcb
  rw [setast_drain_tcb]
  split
  · rename_i b hd
    rw [hd] at hkey
    exact (h.doast_setast hr).setTcb (by rw [setast_drain_tcb]; exact hkey)
  · rename_i b hd
    -- the task is aborted; its debugger is told
    have hover : (k.tcb t).Overflow := ⟨hne, not_not.mp hret, by rw [hd]⟩
    obtain ⟨h₁, h₂⟩ := h.doast_abort hr (hq hover) hd
    exact h₁.tkill fun _ _ => h₂

omit [Fintype T] in
/-- `ASTEXT` on a bad stack. -/
theorem Kernel.Ok.astext_abort (h : k.Ok) {m : Bool} (hr : k.Running t)
    (hq : (k.tcb t).st.xdt = false → k.Quiet t m) {o : Outcome T}
    (ho : (k.tcb t).astext = (o, false)) :
    (k.setTcb t o.tcb).Ok ∧
      (((k.setTcb t o.tcb).tcb t).st.xdt = false → (k.setTcb t o.tcb).Quiet t m) := by
  have hbpt := Tcb.home_eq_rlist.mp hr.2.2
  rcases (k.tcb t).astext_cases with he | ⟨hkey, hctx, hst⟩
  · rw [ho] at he
    cases he
  rw [ho] at hkey hctx hst
  refine ⟨h.setTcb hkey, fun hx => ?_⟩
  rw [setTcb_self, hst] at hx
  refine (hq hx).setTcb (Or.inr ?_) (by rw [hctx])
  rw [hst]
  exact hbpt.2

omit [DecidableEq T] [Fintype T] in
/-- The status a task in an AST goes back to has it active. -/
theorem Kernel.Ok.svst_act (h : k.Ok) (hr : k.Running t) (hs : (k.tcb t).st.ast = true) :
    (k.tcb t).svst.act = (k.tcb t).st.act := by
  obtain ⟨l, hl⟩ := h
  rw [hl.saved t hr.2.1 hs (by rw [(Tcb.home_eq_rlist.mp hr.2.2).1]; rfl), hr.2.1]

theorem Kernel.Ok.astext (h : k.Ok) {e : ℕ} {v : KillEnv} (hr : k.Running t)
    (hs : (k.tcb t).svst.ast = true → (k.tcb t).st.ast = true)
    (hq : (k.tcb t).astext.2 = false → (k.tcb t).st.xdt = false → k.Quiet t v.m₂) :
    (k.astext t e v).1.Ok := by
  rw [Kernel.astext]
  split
  · exact h
  rename_i hast
  split
  · rename_i o ho
    obtain ⟨h₁, h₂⟩ := h.astext_abort hr (hq (by rw [ho])) ho
    exact h₁.tkill fun _ => h₂
  · rename_i o ho
    have h₁ : (k.settle t o).Ok := by
      rw [← show _ = o from congrArg Prod.fst ho]
      exact h.settle (Tcb.astext_fits hr.2.2 (h.svst_act hr (hs (by simpa using hast))))
    dsimp only
    split
    · exact h₁.onTask Tcb.tcont_fits
    · exact h₁

end Ops

end RSX280.Sched
