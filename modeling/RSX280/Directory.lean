import RSX280.ClkqRuns

/-!
# Run requests and the task directory (`tskmgr.mac`, `clkq.mac`)

A task leaves `$TLIST` by `$REMTK`, which cancels its run requests, or at its end if it has
`TA.REM`, which does not. `mem_tlist_run` says that there is no other way, and
`listed_of_reach` that every run request is for a task in the directory as long as no task
with requests goes the second way.
-/

namespace RSX280.Sched

open Links

universe u

variable {T : Type u} [DecidableEq T] [Fintype T] {k : Kernel T} {t : T}

/-! ## Removal on exit -/

omit [DecidableEq T] [Fintype T] in
/-- `TA.REM` is set when the task is installed. -/
theorem Move.rem_eq {E : Env T} {x : Act} {b c : Tcb T} (hE : ∀ b, ¬E.fresh b) (h : Move E x b c) :
    c.attr.rem = b.attr.rem := by
  have hnudged : ∀ {c}, Tcb.Nudged b c → c.attr = b.attr := by
    rintro c ⟨p, q, v, w, rfl⟩
    rfl
  have hcont : ∀ b : Tcb T, b.tcont.tcb.attr = b.attr := by
    intro b
    obtain ⟨e, s, he⟩ := b.tcont_eq
    rw [he]
  have hset : ∀ b : Tcb T, b.setast.tcb.attr = b.attr := by
    intro b
    rcases b.setast_eq with ⟨he, -⟩ | ⟨-, -, -, c, -, he⟩
    · rw [he]
    · rw [he]
      rfl
  have hdel : b.deliver.1.attr = b.attr := by
    obtain ⟨s, l, m, sp, c, he⟩ := b.deliver_eq
    rw [he]
  cases h with
  | stop => rw [hnudged b.nudged_tstop]
  | resume => rw [hnudged b.nudged_tresum]
  | cont => rw [hcont]
  | setflg _ m =>
    unfold Tcb.flag
    split
    · rw [hcont]
    · rfl
  | flwait _ m =>
    obtain ⟨v, hv⟩ := Tcb.flwait0_eq { b with wait := m }
    rw [hv]
  | flstop _ m =>
    obtain ⟨v, hv⟩ := Tcb.flstop0_eq { b with wait := m }
    rw [hv]
  | wtdat => rw [hnudged b.nudged_wtdat]
  | datain => rw [hnudged b.nudged_datain]
  | ldrin => rw [hnudged b.nudged_ldrin]
  | queue _ c a x hc =>
    subst hc
    rw [hset]
  | setast => rw [hset]
  | deliver _ _ _ _ _ _ _ _ hd =>
    rw [hd] at hdel
    exact congrArg Attr.rem hdel
  | lose _ _ _ _ _ _ _ _ hd =>
    rw [hd] at hdel
    exact congrArg Attr.rem hdel
  | exit _ o _ _ _ ho => rw [(Tcb.astext_left ho).attr]
  | wake _ o _ _ _ ho => rw [hcont, (Tcb.astext_left ho).attr]
  | lost _ o _ _ ho => rw [(Tcb.astext_left ho).attr]
  | badext _ o _ _ ho => rw [Tcb.astext_bad ho]
  | ended =>
    unfold Tcb.ended
    dsimp only
    split <;> rfl
  | loaded =>
    unfold Tcb.loaded
    split <;> rfl
  | install _ _ _ _ _ hf => exact absurd hf (hE _)
  | _ => rfl

namespace Kernel

/-! ## What leaves the directory alone -/

@[simp] theorem settle_tlist (k : Kernel T) (t : T) (o : Outcome T) :
    (k.settle t o).tlist = k.tlist := by
  unfold settle
  dsimp only
  split <;> rfl

@[simp] theorem onTask_tlist (k : Kernel T) (t : T) (f : Tcb T → Outcome T) :
    (k.onTask t f).1.tlist = k.tlist := by
  unfold onTask
  split
  · rfl
  · exact settle_tlist k t _

@[simp] theorem dsptch_tlist (k : Kernel T) (elapsed : Bool) : (k.dsptch elapsed).tlist = k.tlist := by
  have hrobin : (k.rrobin elapsed).tlist = k.tlist := by
    unfold rrobin
    split
    · split <;> rfl
    · rfl
  unfold dsptch
  split
  · exact hrobin
  · exact hrobin

@[simp] theorem setflg_tlist (k : Kernel T) (t : T) (e : ℕ) : (k.setflg t e).1.tlist = k.tlist := by
  unfold setflg
  split
  · rfl
  split
  · rfl
  · dsimp only
    split
    · exact onTask_tlist _ t _
    · rfl

omit [Fintype T] in
@[simp] theorem clrflg_tlist (k : Kernel T) (t : T) (e : ℕ) : (k.clrflg t e).1.tlist = k.tlist := by
  unfold clrflg
  split <;> rfl

@[simp] theorem qast_tlist (k : Kernel T) (t : T) (a : AstType) (addr : ℕ) (dat : List UInt8)
    (mem : Bool) : (k.qast t a addr dat mem).tlist = k.tlist := by
  unfold qast
  split
  · rfl
  · exact settle_tlist k t _

@[simp] theorem sdinfo_tlist (k : Kernel T) (t : T) (a : AstType) (addr : ℕ) (dat : List UInt8)
    (m₁ m₂ : Bool) : (k.sdinfo t a addr dat m₁ m₂).tlist = k.tlist := by
  unfold sdinfo
  split
  · split
    · exact qast_tlist _ t a 0 _ m₂
    · rfl
  · exact qast_tlist _ t a 0 _ m₂

@[simp] theorem setmsk_tlist (k : Kernel T) (t : T) (e : ℕ) (f : Tcb T → Outcome T) :
    (k.setmsk t e f).1.tlist = k.tlist := by
  unfold setmsk
  split
  · rfl
  · exact onTask_tlist _ t f

@[simp] theorem send_tlist (k : Kernel T) (t : T) (i : Item T) (mem : Bool) :
    (k.send t i mem).1.tlist = k.tlist := by
  have hq : ((k.enqueue t i).qast t .rd 0 [] mem).tlist = k.tlist := qast_tlist _ t .rd 0 [] mem
  unfold send
  dsimp only
  split
  · rfl
  · split
    · exact hq
    · exact (settle_tlist _ t _).trans hq

@[simp] theorem dbdis_tlist (k : Kernel T) (t : T) : (k.dbdis t).1.tlist = k.tlist := by
  have hres : (k.dbres t).1.tlist = k.tlist := settle_tlist k t _
  unfold dbdis
  split
  · exact hres
  · dsimp only
    split
    · exact hres
    · exact hres
    · split
      · exact hres
      · exact hres

@[simp] theorem dbnot_tlist (k : Kernel T) (t : T) (dat : List UInt8) (m₁ m₂ : Bool) :
    (k.dbnot t dat m₁ m₂).1.tlist = k.tlist := by
  unfold dbnot
  split
  · rfl
  · rfl
  · split
    · rfl
    · dsimp only
      split
      · exact sdinfo_tlist k _ _ _ _ _ _
      · exact (setflg_tlist _ _ _).trans (sdinfo_tlist k _ _ _ _ _ _)

@[simp] theorem clndbg_tlist (k : Kernel T) (t : T) (dat : List UInt8) (m₁ m₂ : Bool) :
    (k.clndbg t dat m₁ m₂).tlist = k.tlist := by
  unfold clndbg
  split
  · rfl
  · exact dbdis_tlist k _
  · rfl
  · exact (dbdis_tlist _ t).trans (dbnot_tlist k t dat m₁ m₂)

@[simp] theorem qldr_tlist (k : Kernel T) (t : T) : (k.qldr t).1.tlist = k.tlist := by
  unfold qldr
  split
  · rfl
  · exact onTask_tlist _ _ _

omit [Fintype T] in
@[simp] theorem dequeue_tlist (k : Kernel T) (t : T) : (k.dequeue t).tlist = k.tlist := by
  unfold dequeue
  split <;> rfl

@[simp] theorem tgo2_tlist (k : Kernel T) (t : T) : (k.tgo2 t).1.tlist = k.tlist := by
  unfold tgo2
  split
  · rfl
  · split <;> rfl

@[simp] theorem tkill1_tlist (k : Kernel T) (t : T) (e : ℕ) (v : KillEnv) :
    (k.tkill1 t e v).tlist = k.tlist :=
  (settle_tlist _ t _).trans (clndbg_tlist k t v.dat v.m₁ v.m₂)

/-! ## The end of a task -/

/-- `TKILL2` takes nobody off the directory but a task with `TA.REM`. -/
theorem mem_tlist_tkill2 {u : T} (h : t ∈ k.tlist)
    (hu : u = t → (k.tcb t).attr.rem = false) : t ∈ (k.tkill2 u).1.tlist := by
  have hun : t ∈ (k.unlist u).tlist := by
    unfold unlist
    split
    · rename_i hrem
      have hne : u ≠ t := by
        rintro rfl
        rw [hu rfl] at hrem
        exact nomatch hrem
      exact (List.mem_erase_of_ne (Ne.symm hne)).mpr h
    · exact h
  unfold tkill2
  split
  · exact h
  · dsimp only
    split
    · exact hun
    · exact hun

theorem tkill1_rem (k : Kernel T) (t : T) (e : ℕ) (v : KillEnv) :
    ((k.tkill1 t e v).tcb t).attr.rem = (k.tcb t).attr.rem := by
  have hm : Moves (⟨fun _ => False, fun _ _ => False, fun _ => False, False⟩ : Env T) (k.tcb t)
      ((k.clndbg t v.dat v.m₁ v.m₂).tcb t) := moved_clndbg (E := fun _ => _) k t _ _ _ t
  have hrem := hm.invariant (I := fun c => c.attr.rem = (k.tcb t).attr.rem) rfl
    fun x b c h hb => (h.rem_eq fun _ hf => hf).trans hb
  unfold tkill1
  rw [settle_tcb, setTcb_self]
  exact hrem

theorem mem_tlist_tkill {u : T} (h : t ∈ k.tlist) (e : ℕ) (v : KillEnv)
    (hu : u = t → k.Mortal t → v.ioc = 0 → (k.tcb t).attr.rem = false) :
    t ∈ (k.tkill u e v).1.tlist := by
  have h₁ : t ∈ (k.tkill1 u e v).tlist := by rwa [tkill1_tlist]
  unfold tkill
  dsimp only
  split
  · exact h
  rename_i hs
  split
  · exact h
  rename_i hact
  split
  · exact h
  rename_i habo
  rw [not_or] at hs
  have hm : k.Mortal u := ⟨hs.1, hs.2, by simpa using hact, by simpa using habo⟩
  split
  · exact h₁
  have hend : ∀ k' : Kernel T, k'.tlist = (k.tkill1 u e v).tlist →
      (k'.tcb u).attr.rem = ((k.tkill1 u e v).tcb u).attr.rem → v.ioc = 0 →
      t ∈ (k'.tkill2 u).1.tlist := by
    intro k' ht hrem hioc
    refine mem_tlist_tkill2 (ht ▸ h₁) fun hut => ?_
    subst hut
    rw [hrem, tkill1_rem]
    exact hu rfl hm hioc
  have hioc : ((k.tkill1 u e v).tcb u).ioc = v.ioc := by
    unfold tkill1
    rw [settle_tcb, setTcb_self]
  unfold tk6
  dsimp only
  rw [hioc]
  split
  · split
    · exact h₁
    split
    · exact h₁
    split
    · split
      · exact h₁
      · rwa [dequeue_tlist]
    · rename_i hz
      split
      · exact hend _ rfl rfl (not_not.mp hz)
      · refine hend _ (dequeue_tlist _ u) ?_ (not_not.mp hz)
        unfold dequeue
        split
        · rfl
        · rename_i l _
          by_cases hl : u = l
          · rw [← hl, setTcb_self]
          · rw [setTcb_of_ne hl]
  split
  · exact h₁
  · rename_i hz
    exact hend _ rfl rfl (not_not.mp hz)

theorem mem_tlist_doast (h : t ∈ k.tlist) {u : T} (hr : k.Running u) (e : ℕ) (v : KillEnv)
    (hu : u = t → (k.tcb t).Overflow → k.Mortal t → v.ioc = 0 → (k.tcb t).attr.rem = false) :
    t ∈ (k.doast u e v).1.tlist := by
  have h₁ : t ∈ ((k.setTcb u (k.tcb u).drain).setast u).1.tlist := by
    unfold setast
    rwa [settle_tlist]
  unfold doast
  dsimp only
  rw [setTcb_self]
  split
  · exact h
  rename_i hne
  split
  · exact h
  rename_i hret
  rw [setast_drain_tcb]
  split
  · exact h₁
  · rename_i c hd
    have h₂ : t ∈ (((k.setTcb u (k.tcb u).drain).setast u).1.setTcb u c).tlist := h₁
    refine mem_tlist_tkill h₂ e v fun hut hm hioc => ?_
    subst hut
    have hover : (k.tcb u).Overflow := ⟨hne, not_not.mp hret, by rw [hd]⟩
    have habo : (k.tcb u).st1.abo = false := by
      rw [(Tcb.home_eq_rlist.mp hr.2.2).1]
      rfl
    have hmortal : k.Mortal u := by
      refine ⟨fun hc => hm.1 ?_, fun hc => hm.2.1 ?_, hr.2.1, habo⟩
      · exact (settle_roles _ u _).1.trans hc
      · exact (settle_roles _ u _).2.trans hc
    have hattr : c.attr = (k.tcb u).attr := by
      obtain ⟨s, l, m, sp, x, he⟩ := (k.tcb u).drain.setast.tcb.deliver_eq
      rw [hd] at he
      rw [show c = _ from he]
      rcases (k.tcb u).drain.setast_eq with ⟨hs, -⟩ | ⟨-, -, -, y, -, hs⟩
      · rw [hs]
        rfl
      · rw [hs]
        rfl
    rw [setTcb_self, hattr]
    exact hu rfl hover hmortal hioc

theorem mem_tlist_astext (h : t ∈ k.tlist) {u : T} (hr : k.Running u) (e : ℕ) (v : KillEnv)
    (hu : u = t → (k.tcb t).svst.ast = true → (k.tcb t).astext.2 = false → k.Mortal t →
      v.ioc = 0 → (k.tcb t).attr.rem = false) : t ∈ (k.astext u e v).1.tlist := by
  unfold astext
  split
  · exact h
  rename_i hs
  split
  · rename_i o ho
    have h₁ : t ∈ (k.setTcb u o.tcb).tlist := h
    refine mem_tlist_tkill h₁ e v fun hut hm hioc => ?_
    subst hut
    have habo : (k.tcb u).st1.abo = false := by
      rw [(Tcb.home_eq_rlist.mp hr.2.2).1]
      rfl
    rw [setTcb_self, Tcb.astext_bad ho]
    exact hu rfl (by simpa using hs) (by rw [ho]) ⟨hm.1, hm.2.1, hr.2.1, habo⟩ hioc
  · dsimp only
    split
    · exact ((onTask_tlist _ u _).trans (settle_tlist k u _)).symm ▸ h
    · rwa [settle_tlist]

/-- `ALTPRI` moves a task within the directory. -/
theorem mem_tlist_altpri (h : t ∈ k.tlist) (u : T) (e : ℕ) (inst : Bool) :
    t ∈ (k.altpri u e inst).1.tlist := by
  have haltp5 : ∀ (k : Kernel T) e, (k.altp5 u e).tlist = k.tlist := by
    intro k e
    have hrepri : ∀ q k', k.repri q u e = some k' → k'.tlist = k.tlist := by
      intro q k' hk
      obtain ⟨iy, -, rfl⟩ := Option.map_eq_some_iff.mp hk
      rfl
    unfold altp5
    cases h₁ : k.repri .rlist u e with
    | some k' => exact hrepri _ _ h₁
    | none =>
      cases h₂ : k.repri .wlist u e with
      | some k' => exact hrepri _ _ h₂
      | none => rfl
  unfold altpri
  dsimp only
  split
  · exact h
  split
  · split
    · exact h
    · have hmem : ∀ key, t ∈ Queue.enqueue key u (k.tlist.erase u) := by
        intro key
        refine Queue.mem_enqueue.mpr ?_
        by_cases hu : t = u
        · exact Or.inl hu
        · exact Or.inr ((List.mem_erase_of_ne hu).mpr h)
      rw [haltp5]
      dsimp only [setTcb]
      exact hmem _
  · rwa [haltp5]

/-- `$LDGO` ends a task that is marked for abort. -/
theorem mem_tlist_ldgo (h : t ∈ k.tlist) {u : T}
    (hu : u = t ∧ (k.tcb t).st1.abo = true → (k.tcb t).attr.rem = false) :
    t ∈ (k.ldgo u).1.tlist := by
  unfold ldgo
  dsimp only
  split
  · rename_i habo
    refine mem_tlist_tkill2 h fun hut => ?_
    subst hut
    exact hu ⟨rfl, habo⟩
  split
  · exact h
  · exact (tgo2_tlist _ u).symm ▸ h

theorem mem_tlist_trqst2 (h : t ∈ k.tlist) (u : T) (mcr ok : Bool) :
    t ∈ (k.trqst2 u mcr ok).1.tlist := by
  unfold trqst2
  dsimp only
  split
  · exact h
  split
  · exact h
  split
  · exact h
  split
  · exact h
  · refine mem_tlist_ldgo (k := (k.setTcb u ((k.tcb u).reset mcr).request).lktcb .wlist u) h ?_
    rintro ⟨rfl, habo⟩
    rw [lktcb_tcb, setTcb_self] at habo
    exact nomatch habo

end Kernel

/-! ## Every operation -/

/-- The operation may end task `t`: it calls `TKILL2`, or `TKILL` with no I/O outstanding. -/
def Op.Ends (k : Kernel T) (t : T) : Op T → Prop
  | .tkill2 u => u = t
  | .ldgo u | .ldckr u | .ldckw u => u = t ∧ (k.tcb t).st1.abo = true
  | .tkill u _ v => u = t ∧ k.Mortal t ∧ v.ioc = 0
  | .doast u _ v => u = t ∧ (k.tcb t).Overflow ∧ k.Mortal t ∧ v.ioc = 0
  | .astext u _ v => u = t ∧ (k.tcb t).svst.ast = true ∧ (k.tcb t).astext.2 = false ∧
    k.Mortal t ∧ v.ioc = 0
  | _ => False

/-- A task stays in the directory until it is removed, or ends and has `TA.REM`. -/
theorem Op.mem_tlist {op : Op T} (hr : op.Ready k) (h : t ∈ k.tlist)
    (he : op.Ends k t → (k.tcb t).attr.rem = false)
    (hrem : op = .remtk t → (k.remtk t).2 ≠ .ok) : t ∈ (op.run k).tlist := by
  cases op with
  | dsptch elapsed => exact (k.dsptch_tlist elapsed).symm ▸ h
  | tstop u | tresum u | tcont u | wtdat u => exact (k.onTask_tlist u _).symm ▸ h
  | setflg u e => exact (k.setflg_tlist u e).symm ▸ h
  | clrflg u e => exact (k.clrflg_tlist u e).symm ▸ h
  | qldr u => exact (k.qldr_tlist u).symm ▸ h
  | taken u => exact (k.dequeue_tlist u).symm ▸ h
  | qast u a addr dat mem => exact (k.qast_tlist u a addr dat mem).symm ▸ h
  | sdinfo u a addr dat m₁ m₂ => exact (k.sdinfo_tlist u a addr dat m₁ m₂).symm ▸ h
  | dbdis u => exact (k.dbdis_tlist u).symm ▸ h
  | dbnot u dat m₁ m₂ => exact (k.dbnot_tlist u dat m₁ m₂).symm ▸ h
  | doast u e v => exact Kernel.mem_tlist_doast h hr e v fun hu ho hm hi => he ⟨hu, ho, hm, hi⟩
  | astext u e v =>
    exact Kernel.mem_tlist_astext h hr e v fun hu hs hb hm hi => he ⟨hu, hs, hb, hm, hi⟩
  | altpri u e inst => exact Kernel.mem_tlist_altpri h u e inst
  | install u b => exact List.mem_cons_of_mem u h
  | tkill u e v => exact Kernel.mem_tlist_tkill h e v fun hu hm hi => he ⟨hu, hm, hi⟩
  | tkill2 u => exact Kernel.mem_tlist_tkill2 h he
  | io u n => exact h
  | user u m sp pc af => exact h
  | astctl u on => exact h
  | dbres u => exact (k.settle_tlist u _).symm ▸ h
  | flwait u e => exact (k.setmsk_tlist u e _).symm ▸ h
  | flwtlo u m => exact (Kernel.onTask_tlist _ u _).symm ▸ h
  | flstop u e => exact (k.setmsk_tlist u e _).symm ▸ h
  | flstlo u m => exact (Kernel.onTask_tlist _ u _).symm ▸ h
  | send u i mem => exact (k.send_tlist u i mem).symm ▸ h
  | recv =>
    simp only [Op.run, Kernel.recv]
    split
    · exact h
    · split <;> exact h
  | astdcl u a addr seen mem =>
    simp only [Op.run, Kernel.astdcl]
    split
    · exact h
    split
    · split
      · exact h
      · split <;> exact h
    · split
      · exact h
      · split <;> exact h
  | dbcon u efn dsb d =>
    have hcon : (k.dbcon u efn dsb d).1.tlist = k.tlist := by
      unfold Kernel.dbcon
      repeat' split
      all_goals rfl
    exact hcon.symm ▸ h
  | dbbrk u =>
    simp only [Op.run, Kernel.dbbrk]
    split
    · exact h
    · exact (k.settle_tlist u _).symm ▸ h
  | setsv u on =>
    simp only [Op.run, Kernel.setsv]
    split <;> exact h
  | trqst2 u mcr ok => exact Kernel.mem_tlist_trqst2 h u mcr ok
  | fixtk u ok =>
    simp only [Op.run, Kernel.fixtk]
    split
    · exact h
    split
    · exact h
    · split <;> exact h
  | unftk u =>
    simp only [Op.run, Kernel.unftk, Kernel.unfix]
    split
    · exact h
    · split <;> exact h
  | remtk u =>
    simp only [Op.run, Kernel.remtk]
    split
    · exact h
    rename_i hdir
    split
    · exact h
    rename_i hact
    by_cases hu : u = t
    · subst hu
      refine absurd ?_ (hrem rfl)
      unfold Kernel.remtk
      rw [if_neg hdir, if_neg hact]
    · exact (List.mem_erase_of_ne (Ne.symm hu)).mpr h
  | ldgo u => exact Kernel.mem_tlist_ldgo h he
  | ldckr u =>
    simp only [Op.run, Kernel.ldckr]
    split
    · rename_i habo
      refine Kernel.mem_tlist_tkill2 h fun hu => ?_
      subst hu
      rw [Kernel.setTcb_self]
      exact he ⟨rfl, habo⟩
    split
    · exact (Kernel.tgo2_tlist _ u).symm ▸ h
    · exact h
  | ldckw u =>
    simp only [Op.run, Kernel.ldckw]
    split
    · rename_i habo
      refine Kernel.mem_tlist_tkill2 h fun hu => ?_
      subst hu
      exact he ⟨rfl, habo⟩
    · exact h
  | chkpt u space =>
    simp only [Op.run, Kernel.chkpt]
    split
    · exact h
    split
    · exact h
    split
    · exact h
    split
    · exact h
    split
    · exact h
    · split
      · exact (Kernel.qldr_tlist _ u).symm ▸ h
      · exact (Kernel.qldr_tlist _ u).symm ▸ h

end RSX280.Sched

namespace RSX280.Clkq

open Sched

universe u

variable {T : Type u} [DecidableEq T] [Fintype T] {c c' : Clock T} {t : T}

namespace Clock

/-! ## Run requests -/

/-- Every run request is for a task in the directory. -/
def Listed (c : Clock T) : Prop := ∀ p ∈ c.clkq, p.runs = true → p.tcb ∈ c.k.tlist

omit [DecidableEq T] [Fintype T] in
/-- The requests are old ones, and nobody has left the directory. -/
theorem Listed.of_old (h : c.Listed)
    (hq : ∀ q ∈ c'.clkq, q.runs = true → ∃ p ∈ c.clkq, p.runs = true ∧ q.tcb = p.tcb ∧
      (p.tcb ∈ c.k.tlist → p.tcb ∈ c'.k.tlist)) : c'.Listed := by
  intro q hqq hr
  obtain ⟨p, hp, hpr, he, hk⟩ := hq q hqq hr
  rw [he]
  exact hk (h p hp hpr)

omit [DecidableEq T] [Fintype T] in
theorem mem_clkq_send {q : Packet T} {time : ℕ} {r : Req} (h : q ∈ (c.send t time r).clkq) :
    q = ⟨c.sent.length, t, time, r⟩ ∨ q ∈ c.clkq := by
  have hq : (c.send t time r).clkq = lnkclq ⟨c.sent.length, t, time, r⟩ c.clkq := clkq_link _ _
  rw [hq] at h
  exact mem_lnkclq.mp h

omit [DecidableEq T] [Fintype T] in
theorem send_k (c : Clock T) (t : T) (time : ℕ) (r : Req) : (c.send t time r).k = c.k :=
  (link_rest _ _).2.2.2.1

omit [Fintype T] in
theorem Listed.clnclq (h : c.Listed) (t : T) (mkt : Bool) (efn ast : ℕ) :
    (c.clnclq t mkt efn ast).Listed :=
  h.of_old fun q hq hr => ⟨q, (mem_clkq_clnclq.mp hq).1, hr, rfl, id⟩

omit [Fintype T] in
theorem Listed.mrkt (h : c.Listed) (efn ast n units : ℕ) (mem : Bool) :
    (c.mrkt efn ast n units mem).1.Listed := by
  have hsend : ∀ (d : Clock T) u time, d.Listed → (d.send u time (.mkt efn ast)).Listed := by
    intro d u time hd q hq hr
    rw [send_k]
    rcases mem_clkq_send hq with rfl | hq
    · exact nomatch hr
    · exact hd q hq hr
  have hflg : ∀ u k, (c.k.clrflg u efn).1 = k → ({ c with k := k } : Clock T).Listed := by
    rintro u k rfl
    exact h.of_old fun q hq hr => ⟨q, hq, hr, rfl, fun hm => (c.k.clrflg_tlist u efn).symm ▸ hm⟩
  unfold Clock.mrkt
  split
  · exact h
  split
  · exact h
  split
  · exact h
  split
  · exact h
  split
  · exact hsend c _ _ h
  split
  · rename_i k hk
    exact hsend _ _ _ (hflg _ k (by rw [hk]))
  · rename_i k r _ hk
    exact hflg _ k (by rw [hk])

omit [DecidableEq T] [Fintype T] in
theorem Listed.srqst (h : c.Listed) (ht : t ∈ c.k.tlist) (usr grp n units rn runits : ℕ)
    (mem : Bool) : (c.srqst t usr grp n units rn runits mem).1.Listed := by
  unfold Clock.srqst
  split
  · exact h
  split
  · exact h
  split
  · exact h
  dsimp only
  split
  · exact h
  split
  · exact h
  · intro q hq hr
    rw [send_k]
    rcases mem_clkq_send hq with rfl | hq
    · exact ht
    · exact h q hq hr

/-! ### The rest of the kernel -/

/-- `$REMTK` cancels the requests of the task it removes, and nobody else leaves the directory
but a task with `TA.REM` that ends. -/
theorem Listed.sys (h : c.Listed) {op : Op T} (hr : op.Ready c.k)
    (ht : ∀ p ∈ c.clkq, p.runs = true → op.Ends c.k p.tcb → (c.k.tcb p.tcb).attr.rem = false) :
    (c.sys op).Listed := by
  have hk : (c.sys op).k = op.run c.k := rfl
  refine h.of_old fun q hq hruns => ⟨q, (mem_clkq_sys hq).1, hruns, rfl, fun hmem => ?_⟩
  rw [hk]
  refine Op.mem_tlist hr hmem (ht q (mem_clkq_sys hq).1 hruns) fun hop hret => ?_
  have hno := (mem_clkq_sys hq).2 _ hop hret
  unfold cmatch at hno
  unfold Packet.runs Packet.marks at hruns
  cases hreq : q.req with
  | mkt efn ast =>
    rw [hreq] at hruns
    exact nomatch hruns
  | run usr grp rsi =>
    rw [hreq] at hno
    simp at hno

/-! ### `DOCLKQ` -/

theorem actmkt_tlist (c : Clock T) (p : Packet T) (efn ast : ℕ) (mem : Bool) :
    (c.actmkt p efn ast mem).1.k.tlist = c.k.tlist := by
  have hflg : ((c.record (.act p.id)).actflg p efn).k.tlist = c.k.tlist := by
    rw [actflg_record]
    unfold actflg
    split
    · rfl
    · dsimp only
      split
      · exact Kernel.setflg_tlist _ _ _
      · exact Kernel.setflg_tlist _ _ _
  unfold actmkt
  dsimp only
  split
  · exact hflg
  · dsimp only
    split
    · exact (Kernel.qast_tlist _ _ _ _ _ _).trans hflg
    · exact (Kernel.qast_tlist _ _ _ _ _ _).trans hflg

theorem mem_tlist_actrun (p : Packet T) (ok : Bool) (h : t ∈ c.k.tlist) :
    t ∈ (c.actrun p ok).1.k.tlist := by
  unfold actrun
  split
  · exact Kernel.mem_tlist_trqst2 h p.tcb false ok
  · exact h

/-- A turn of the loop keeps the tasks of the packets it keeps. -/
theorem Listed.turn (h : c.Listed) (mem ok : Bool) : (c.step mem ok).Listed := by
  unfold step
  split
  · exact h
  rename_i p l hn
  have hclkq : ∀ q, q ∈ c.clkq ↔ q ∈ c.past ∨ q = p ∨ q ∈ l := by
    intro q
    unfold clkq
    rw [hn, List.mem_append, List.mem_cons]
  have hp : p ∈ c.clkq := (hclkq p).mpr (Or.inr (Or.inl rfl))
  split
  · exact h
  split
  · rename_i efn ast hreq
    have hk := c.actmkt_tlist p efn ast mem
    obtain ⟨-, -, -, -, hpast, -⟩ := actflg_rest (c.record (.act p.id)) p efn
    have hpast : (c.actmkt p efn ast mem).1.past = c.past := by
      unfold actmkt
      dsimp only
      split
      · exact hpast
      · dsimp only
        split <;> exact hpast
    split
    · rename_i d hd
      rw [hd] at hk hpast
      refine h.of_old fun q hq hr => ⟨q, ?_, hr, rfl, fun hm => hk.symm ▸ hm⟩
      have hq' : q ∈ (d.past ++ [p]) ++ l := hq
      rw [show d.past = c.past from hpast] at hq'
      simpa [hclkq, or_assoc] using hq'
    · rename_i d hd
      rw [hd] at hk hpast
      refine h.of_old fun q hq hr => ⟨q, ?_, hr, rfl, fun hm => hk.symm ▸ hm⟩
      have hq' : q ∈ d.past ++ l := hq
      rw [show d.past = c.past from hpast, List.mem_append] at hq'
      exact (hclkq q).mpr (hq'.imp_right Or.inr)
  · rename_i usr grp rsi hreq
    have hk : ∀ u, u ∈ c.k.tlist → u ∈ (c.actrun p ok).1.k.tlist :=
      fun u hu => mem_tlist_actrun p ok hu
    obtain ⟨k, hkk⟩ := c.actrun_rest p ok
    rw [hkk] at hk
    split
    · rename_i d hd
      rw [hd] at hkk
      obtain rfl : d = { c with k := k } := hkk
      refine h.of_old fun q hq hr => ⟨q, ?_, hr, rfl, hk _⟩
      have hq' : q ∈ (c.past ++ [p]) ++ l := hq
      simpa [hclkq, or_assoc] using hq'
    · rename_i d hd
      rw [hd] at hkk
      obtain rfl : d = { c with k := k } := hkk
      split
      · refine h.of_old fun q hq hr => ⟨q, ?_, hr, rfl, hk _⟩
        have hq' : q ∈ c.past ++ l := hq
        rw [List.mem_append] at hq'
        exact (hclkq q).mpr (hq'.imp_right Or.inr)
      · intro q hq hr
        rw [(link_rest _ _).2.2.2.1]
        rw [clkq_link] at hq
        have hq' := mem_lnkclq.mp hq
        rcases hq' with rfl | hq'
        · exact hk _ (h p hp hr)
        · have hq'' : q ∈ c.past ++ l := hq'
          rw [List.mem_append] at hq''
          exact hk _ (h q ((hclkq q).mpr (hq''.imp_right Or.inr)) hr)

end Clock

/-! ## Runs -/

/-- No task with `TA.REM` ends that has run requests in the queue. -/
def Call.Tidy : Call T → Clock T → Prop
  | .sys op, c => ∀ p ∈ c.clkq, p.runs = true → op.Ends c.k p.tcb →
    (c.k.tcb p.tcb).attr.rem = false
  | _, _ => True

theorem Clock.Listed.step (h : c.Listed) (hs : clock.Step Call.Tidy c c') : c'.Listed := by
  obtain ⟨call, hr, ht, rfl⟩ := hs
  cases call with
  | sys op => exact h.sys hr.2 ht
  | mrkt efn ast n units mem => exact h.mrkt efn ast n units mem
  | cmkt efn ast =>
    change (c.cmkt efn ast).Listed
    unfold Clock.cmkt
    split
    · exact h
    · exact h.clnclq _ _ _ _
  | srqst t usr grp n units rn runits mem => exact h.srqst hr.2 usr grp n units rn runits mem
  | tcsrq t => exact h.clnclq _ _ _ _
  | tick => exact h
  | doclkq => exact h
  | next mem ok => exact h.turn mem ok

/-- In every state of every run in which no task with `TA.REM` ends that has run requests in the
clock queue, every run request is for a task in the directory. -/
theorem listed_of_reach (h₀ : c.Boot) (hr : Reach (clock.Step Call.Tidy) c c') :
    ∀ p ∈ c'.clkq, p.runs = true → p.tcb ∈ c'.k.tlist := by
  have hnil : c.clkq = [] := by
    unfold Clock.clkq
    rw [h₀.past, h₀.next]
    rfl
  have hstart : c.Listed := by
    intro p hp
    rw [hnil] at hp
    exact nomatch hp
  exact hr.invariant hstart fun _ _ => Clock.Listed.step

/-! ### A task to be removed on exit -/

/-- `clock2`, where task 1 has `TA.REM`. -/
def clockRem : Clock (Fin 2) :=
  { clock2 with
    k := { boot2 with tcb := fun t => { boot2.tcb t with attr := { rem := t = 1 } } } }

theorem clockRem_boot : clockRem.Boot := ⟨rfl, rfl, rfl, rfl, rfl⟩

/-- Both tasks run, and task 1 is to run again in two seconds. -/
def again : List (Call (Fin 2)) := (start2.map .sys) ++ [.srqst 1 1 1 2 2 0 2 true]

theorem admits_again {P : Call (Fin 2) → Clock (Fin 2) → Prop}
    (h : ∀ d c, (∀ op, d = .sys op → c.clkq = []) → P d c) : clock.Admits P again clockRem := by
  have hstart : Admits (fun _ _ => True) start2 clockRem.k := by
    simp only [start2, Admits, Op.Ready, and_self]
  have hsys : clock.Admits P (start2.map .sys) clockRem :=
    admits_sys rfl rfl hstart fun _ _ hq => h _ _ fun _ _ => hq
  have hdir : 1 ∈ (clock.runAll (start2.map .sys) clockRem).k.tlist := by
    decide
  have hlast := h (.srqst 1 1 1 2 2 0 2 true) (clock.runAll (start2.map .sys) clockRem)
    fun op he => (by cases he)
  exact Machine.admits_append hsys ⟨⟨⟨rfl, hdir⟩, hlast⟩, trivial⟩

/-- The request is in the queue, and task 1 in the directory. -/
theorem listed_of_reach_again : 1 ∈ (clock.runAll again clockRem).k.tlist := by
  have hreach : Reach (clock.Step Call.Tidy) clockRem (clock.runAll again clockRem) := by
    refine Machine.reach_runAll (admits_again fun d c hd => ?_)
    cases d with
    | sys op =>
      intro p hp
      rw [hd op rfl] at hp
      exact nomatch hp
    | _ => trivial
  exact listed_of_reach clockRem_boot hreach ⟨0, 1, 100, .run 1 1 0⟩ (List.mem_singleton.mpr rfl) rfl

/-- Task 1 exits and leaves the directory, and its request stays. -/
theorem unlisted_of_exit : ∃ c c' : Clock (Fin 2), c.Boot ∧
    Reach (clock.Step fun _ _ => True) c c' ∧
    ¬∀ p ∈ c'.clkq, p.runs = true → p.tcb ∈ c'.k.tlist := by
  have hrun : clock.Admits (fun _ _ => True)
      [.sys (.tkill 1 0 ⟨[], true, true, 0, 0, false⟩)] (clock.runAll again clockRem) :=
    ⟨⟨⟨rfl, trivial⟩, trivial⟩, trivial⟩
  refine ⟨clockRem, clock.runAll (again ++ [.sys (.tkill 1 0 ⟨[], true, true, 0, 0, false⟩)]) clockRem,
    clockRem_boot, Machine.reach_runAll (Machine.admits_append (admits_again fun _ _ _ => trivial)
      hrun), fun h => ?_⟩
  have hmem := h ⟨0, 1, 100, .run 1 1 0⟩ (List.mem_singleton.mpr rfl) rfl
  have hdir : (clock.runAll (again ++ [.sys (.tkill 1 0 ⟨[], true, true, 0, 0, false⟩)])
      clockRem).k.tlist = [0] := rfl
  rw [hdir] at hmem
  exact absurd hmem (by decide)

end RSX280.Clkq
