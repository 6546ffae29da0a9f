import RSX280.TaskRuns

/-!
# Waiting for event flags (`flags.mac`)

A task blocked with `T2.EFW` or `T2.SEF` waits for one of the flags of its wait mask. No
move leaves it waiting for a flag that is set (`Move.awake`), so no operation does
(`awake_of_reach`). While the task is in AST state the bits and the mask of its main program
are put away, and `SETFLG` does not look there: a set flag is found when `ASTEXT` takes
them back (`flags_sound_of_reach`).
-/

namespace RSX280.Sched

universe u

variable {T : Type u}

/-! ## One task -/

/-- The task waits for or is stopped for event flags. -/
def Blocking.flagged (b : Blocking) : Bool := b.efw || b.sef

/-- The task does not wait for a flag that is set, and it waits for flags in one way
only. -/
structure Tcb.Awake (b : Tcb T) : Prop where
  live : b.st1.flagged = true → b.ckwmsk = false
  one : ¬(b.st1.efw = true ∧ b.st1.sef = true)
  saved : b.st.ast = true → ¬(b.svst1.efw = true ∧ b.svst1.sef = true)

namespace Tcb

variable {b c : Tcb T} {o : Outcome T}

/-- A task that waits for no flags is awake. -/
theorem Awake.of_unflagged (h : b.st1.flagged = false)
    (hs : b.st.ast = true → ¬(b.svst1.efw = true ∧ b.svst1.sef = true)) : b.Awake := by
  refine ⟨fun hf => (nomatch h.symm.trans hf), fun hc => ?_, hs⟩
  rw [Blocking.flagged, hc.1] at h
  exact nomatch h

/-- Only the bits for flags, the flags and the mask matter. -/
theorem Awake.congr (h : b.Awake) (he : c.st1.efw = b.st1.efw) (hs : c.st1.sef = b.st1.sef)
    (hf : c.flgs = b.flgs) (hw : c.wait = b.wait)
    (hv : c.st.ast = true → ¬(c.svst1.efw = true ∧ c.svst1.sef = true)) : c.Awake := by
  refine ⟨fun hc => ?_, ?_, hv⟩
  · have hb : b.ckwmsk = false := by
      apply h.live
      rwa [Blocking.flagged, ← he, ← hs]
    rwa [ckwmsk, hf, hw]
  · rw [he, hs]
    exact h.one

/-- `TCONT` on a task that waits in one way only. -/
theorem tcont_unflagged (h : ¬(b.st1.efw = true ∧ b.st1.sef = true)) :
    b.tcont.tcb.st1.flagged = false := by
  unfold tcont
  split
  · rename_i he
    have hs : b.st1.sef = false := by simpa [he] using h
    unfold tcont2
    split
    · simp [Blocking.flagged, hs]
    · split <;> simp [Blocking.flagged, hs]
  · rename_i he
    have he : b.st1.efw = false := by simpa using he
    split
    · unfold tcont2
      split
      · simp [Blocking.flagged, he]
      · split <;> simp [Blocking.flagged, he]
    · rename_i hs
      simp only [Blocking.flagged, he, Bool.false_or]
      simpa using hs

theorem Awake.tcont (h : ¬(b.st1.efw = true ∧ b.st1.sef = true))
    (hs : b.st.ast = true → ¬(b.svst1.efw = true ∧ b.svst1.sef = true)) : b.tcont.tcb.Awake := by
  apply Awake.of_unflagged (tcont_unflagged h)
  obtain ⟨e, s, he⟩ := b.tcont_eq
  rw [he]
  exact hs

theorem Awake.flag (h : b.Awake) (m : BitVec 32) : (b.flag m).Awake := by
  unfold Tcb.flag
  split
  · exact Awake.tcont (b := { b with flgs := b.flgs ||| m }) h.one h.saved
  · rename_i hc
    exact ⟨fun _ => by simpa using hc, h.one, h.saved⟩

theorem unflagged_of_ready (h : b.home = .rlist) : b.st1.flagged = false := by
  rw [(home_eq_rlist.mp h).1]
  rfl

/-- A ready task begins to wait: for no flag that is set. -/
theorem Awake.flwait (h : b.Awake) (hr : b.home = .rlist) (m : BitVec 32) :
    (flwait0 { b with wait := m }).tcb.Awake := by
  have hst : b.st1 = Blocking.clear := (home_eq_rlist.mp hr).1
  unfold flwait0
  split
  · exact Awake.of_unflagged (unflagged_of_ready hr) h.saved
  rename_i hc
  split
  · exact Awake.of_unflagged (unflagged_of_ready hr) h.saved
  · refine ⟨fun _ => Bool.eq_false_iff.mpr hc, ?_, h.saved⟩
    rw [hst]
    exact fun hb => nomatch hb.2

theorem Awake.flstop (h : b.Awake) (hr : b.home = .rlist) (m : BitVec 32) :
    (flstop0 { b with wait := m }).tcb.Awake := by
  have hst : b.st1 = Blocking.clear := (home_eq_rlist.mp hr).1
  unfold flstop0
  split
  · exact Awake.of_unflagged (unflagged_of_ready hr) h.saved
  rename_i hc
  split
  · exact Awake.of_unflagged (unflagged_of_ready hr) h.saved
  · refine ⟨fun _ => Bool.eq_false_iff.mpr hc, ?_, h.saved⟩
    rw [hst]
    exact fun hb => nomatch hb.1

/-- On AST entry the bits and the mask of the main program are put away. -/
theorem Awake.setast (h : b.Awake) : b.setast.tcb.Awake := by
  rcases b.setast_eq with ⟨he, -⟩ | ⟨-, -, -, c, -, he⟩
  · rw [he]
    exact h
  · rw [he]
    exact Awake.of_unflagged rfl fun _ => h.one

/-- The routines that look at `T2.STP` and `T2.WTD` leave the bits for flags. -/
theorem Awake.nudged (h : b.Awake) (hn : Nudged b c) : c.Awake := by
  obtain ⟨p, q, v, w, rfl⟩ := hn
  exact h.congr rfl rfl rfl rfl h.saved

theorem Awake.deliver (h : b.Awake) : b.deliver.1.Awake := by
  obtain ⟨s, l, m, sp, x, he⟩ := b.deliver_eq
  rw [he]
  exact h.congr rfl rfl rfl rfl h.saved

theorem Awake.loaded (h : b.Awake) : b.loaded.Awake := by
  unfold Tcb.loaded
  split <;> exact Awake.of_unflagged rfl h.saved

theorem Awake.ended (h : b.Awake) : b.ended.Awake := by
  unfold Tcb.ended
  dsimp only
  split <;> exact h.congr rfl rfl rfl rfl h.saved

/-- A task that begins has no flags and no mask. -/
theorem Awake.reset (h : b.Awake) (mcr : Bool) : (b.reset mcr).Awake := by
  refine ⟨fun _ => ?_, h.one, h.saved⟩
  simp [Tcb.reset, ckwmsk]

theorem Awake.request (h : b.Awake) : b.request.Awake := h.congr rfl rfl rfl rfl nofun

/-- The main program goes on waiting for flags that are not set. -/
theorem Awake.exit (h : b.Awake) (ha : b.st.ast = true) (ho : b.astext = (o, true))
    (hw : ¬Woken o) : o.tcb.Awake := by
  obtain ⟨-, hf, -, hv, ⟨h₁, hm, -, -⟩ | ⟨hst, h₁, hm, hg⟩⟩ := astext_left ho
  · refine h.congr (by rw [h₁]) (by rw [h₁]) hf hm fun _ => ?_
    rw [hv]
    exact h.saved ha
  · refine ⟨fun hb => ?_, ?_, fun hc => ?_⟩
    · by_contra hc
      refine hw ⟨?_, hb, by simpa using hc⟩
      rw [hg, if_neg]
      intro hr
      have hclear : o.tcb.st1 = Blocking.clear := by
        have hr := (Bool.and_eq_true_iff.mp hr).1
        exact of_decide_eq_true hr
      rw [hclear] at hb
      exact nomatch hb
    · rw [h₁]
      exact h.saved ha
    · rw [hst] at hc
      exact nomatch hc

/-- The main program waits for a flag that is set, and is woken. -/
theorem Awake.wake (h : b.Awake) (ha : b.st.ast = true) (ho : b.astext = (o, true))
    (hw : Woken o) : o.tcb.tcont.tcb.Awake := by
  obtain ⟨-, -, -, -, ⟨-, -, -, hg⟩ | ⟨hst, h₁, -, -⟩⟩ := astext_left ho
  · exact nomatch hg.symm.trans hw.1
  · apply Awake.tcont
    · rw [h₁]
      exact h.saved ha
    · intro hc
      rw [hst] at hc
      exact nomatch hc

theorem Awake.badext (h : b.Awake) (ho : b.astext = (o, false)) : o.tcb.Awake := by
  rw [astext_bad ho]
  exact h.congr rfl rfl rfl rfl h.saved

end Tcb

/-! ## Every move -/

/-- No move leaves the task waiting for a flag that is set. -/
theorem Move.awake {E : Env T} {x : Act} {b c : Tcb T} (hE : ¬E.lost) (hm : Move E x b c)
    (h : b.Awake) : c.Awake := by
  cases hm with
  | stop => exact h.nudged b.nudged_tstop
  | resume => exact h.nudged b.nudged_tresum
  | cont => exact Tcb.Awake.tcont h.one h.saved
  | setflg _ m => exact h.flag m
  | clrflg _ m =>
    refine ⟨fun hf => ?_, h.one, h.saved⟩
    have hc := h.live hf
    unfold Tcb.ckwmsk at hc ⊢
    have hz : b.flgs &&& b.wait = 0 := by simpa using hc
    have hz' : (b.flgs &&& ~~~m) &&& b.wait = 0 := by
      rw [BitVec.and_assoc, BitVec.and_comm (~~~m), ← BitVec.and_assoc, hz]
      exact BitVec.zero_and
    simpa using hz'
  | mask _ m hr => exact .of_unflagged (Tcb.unflagged_of_ready hr) h.saved
  | flwait _ m hr => exact h.flwait hr m
  | flstop _ m hr => exact h.flstop hr m
  | wtdat => exact h.nudged b.nudged_wtdat
  | datain => exact h.nudged b.nudged_datain
  | ldrin => exact h.nudged b.nudged_ldrin
  | queue _ c a x hc =>
    subst hc
    have hq : Tcb.Awake { b with astl := b.astl ++ [x] } := h.congr rfl rfl rfl rfl h.saved
    exact hq.setast
  | special | write | drain | link | user | astctl | astdcl | purge | rem | io | pri | rcvl =>
    exact h.congr rfl rfl rfl rfl h.saved
  | setast => exact h.setast
  | deliver _ _ _ _ _ _ _ _ hd =>
    have hc := h.deliver
    rwa [hd] at hc
  | lose _ _ _ _ _ _ _ _ hd =>
    have hc := h.deliver
    rwa [hd] at hc
  | exit _ o _ _ ha ho hw => exact h.exit (ha.resolve_left hE) ho hw
  | wake _ o _ _ ha ho hw => exact h.wake (ha.resolve_left hE) ho hw
  | lost _ o _ _ _ hl => exact absurd hl hE
  | badext _ o _ _ ho => exact h.badext ho
  | setBpt _ v => exact h.congr rfl rfl rfl rfl h.saved
  | abort => exact h.congr rfl rfl rfl rfl h.saved
  | ended => exact h.ended
  | reset _ mcr => exact h.reset mcr
  | request _ mcr => exact (h.reset mcr).request
  | load _ mcr => exact .of_unflagged rfl nofun
  | loaded => exact h.loaded
  | ldckr | ldckw | ckr | chkpt | mark | sup => exact h.congr rfl rfl rfl rfl h.saved
  | fix => exact .of_unflagged rfl nofun
  | unfix => exact h.congr rfl rfl rfl rfl h.saved
  | install _ _ _ hs =>
    refine .of_unflagged ?_ ?_
    · rw [hs.2]
      rfl
    · rw [hs.1]
      exact nofun

/-! ## Runs -/

section Runs

variable [DecidableEq T] [Fintype T] {k k' : Kernel T} {op : Op T}

theorem awake_step (h : k.Ok) (ha : ∀ t, (k.tcb t).Awake) (hs : Step Op.Safe k k') :
    ∀ t, (k'.tcb t).Awake := by
  obtain ⟨op, hr, hc, rfl⟩ := hs
  intro t
  have hm : k.Moved (fun _ => (⟨fun _ => True, fun _ _ => True, fun _ => True, False⟩ : Env T))
      (op.run k) := by
    apply Op.moved hr (fun _ _ _ _ => trivial) (fun _ _ _ => trivial) (fun _ _ _ => trivial)
    rintro u e v rfl
    exact Or.inr ⟨h, hc.1⟩
  exact (hm t).invariant (ha t) fun _ _ _ hm => hm.awake id

theorem awake_of_reach (h₀ : k.Ok) (ha : ∀ t, (k.tcb t).Awake) (hr : Reach (Step Op.Safe) k k') :
    k'.Ok ∧ ∀ t, (k'.tcb t).Awake := by
  refine hr.invariant (P := fun k => k.Ok ∧ ∀ t, (k.tcb t).Awake) ⟨h₀, ha⟩ ?_
  rintro k₁ k₂ ⟨hok, haw⟩ hs
  exact ⟨hok.step hs, awake_step hok haw hs⟩

/-- `ASTEXT` behind a good stack. -/
theorem Kernel.astext_tcb {t : T} {o : Outcome T} {e : ℕ} {v : KillEnv}
    (hs : (k.tcb t).svst.ast = true) (ho : (k.tcb t).astext = (o, true)) :
    (k.astext t e v).1.tcb t = o.tcb ∨ (k.astext t e v).1.tcb t = o.tcb.tcont.tcb := by
  unfold astext
  rw [if_neg (by simp [hs]), ho]
  dsimp only
  split
  · unfold tcont onTask
    split
    · exact Or.inl (by rw [settle_tcb, setTcb_self])
    · exact Or.inr (by rw [settle_tcb, setTcb_self, settle_tcb, setTcb_self])
  · exact Or.inl (by rw [settle_tcb, setTcb_self])

/-- In every state reached from the boot of the system by safe steps no task is blocked with
`T2.EFW` or `T2.SEF` on a flag of `T.WAIT` that is set. A main program that was put away with
one of the bits is woken by the `ASTEXT` that ends the AST state, if a flag of `TX.SWM` is
set then. -/
theorem flags_sound_of_reach (h₀ : k.Boot)
    (hst : ∀ t, (k.tcb t).st = {} ∧ (k.tcb t).st1 = Blocking.clear)
    (hr : Reach (Step Op.Safe) k k') (t : T) :
    ((k'.tcb t).st1.flagged = true → (k'.tcb t).ckwmsk = false) ∧
    ∀ e v, (Op.astext t e v).Ready k' → Op.Safe (.astext t e v) k' →
      (k'.tcb t).svst.ast = true → (k'.tcb t).astext.2 = true →
      ((k'.astext t e v).1.tcb t).st.ast = false →
      (k'.tcb t).flgs &&& ((k'.tcb t).ctx.map (·.swm)).getD 0 ≠ 0 →
      ((k'.astext t e v).1.tcb t).st1.flagged = false := by
  have haw : ∀ t, (k.tcb t).Awake := by
    intro u
    refine .of_unflagged ?_ ?_
    · rw [(hst u).2]
      rfl
    · rw [(hst u).1]
      exact nofun
  obtain ⟨hok, ha⟩ := awake_of_reach h₀.ok haw hr
  refine ⟨(ha t).live, fun e v hready hsafe hs hgood hend hflag => ?_⟩
  have hnext := awake_step hok ha ⟨.astext t e v, hready, hsafe, rfl⟩ t
  obtain ⟨o, ho⟩ : ∃ o, (k'.tcb t).astext = (o, true) := ⟨_, Prod.ext rfl hgood⟩
  -- the flags and the mask the task has then
  have hb : ((k'.astext t e v).1.tcb t).flgs = o.tcb.flgs ∧
      ((k'.astext t e v).1.tcb t).wait = o.tcb.wait ∧
      ((k'.astext t e v).1.tcb t).st = o.tcb.st := by
    rcases Kernel.astext_tcb (e := e) (v := v) hs ho with h | h
    · rw [h]
      exact ⟨rfl, rfl, rfl⟩
    · obtain ⟨x, y, hx⟩ := o.tcb.tcont_eq
      rw [h, hx]
      exact ⟨rfl, rfl, rfl⟩
  obtain ⟨-, hf, -, -, ⟨-, -, hstay, -⟩ | ⟨-, -, hm, -⟩⟩ := Tcb.astext_left ho
  · rw [hb.2.2, hstay, hsafe.1 hs] at hend
    exact nomatch hend
  · by_contra hc
    have hclear := hnext.live (Bool.not_eq_false _ ▸ hc)
    refine hflag ?_
    change decide (((k'.astext t e v).1.tcb t).flgs &&& ((k'.astext t e v).1.tcb t).wait ≠ 0) =
      false at hclear
    rw [hb.1, hb.2.1, hf, hm] at hclear
    simpa using hclear

end Runs

/-! ### An I/O completion between the wait and the flag -/

/-- Task 0 waits for flag 3, an event is queued for it, and then the flag is set. -/
def waitAst : List (Op (Fin 2)) := start2 ++ [.flwait 0 3, .qast 0 .io 512 [] true, .setflg 0 3]

theorem boot2_idle (t : Fin 2) : (boot2.tcb t).st = {} ∧ (boot2.tcb t).st1 = Blocking.clear :=
  ⟨rfl, rfl⟩

theorem admits_waitAst : Admits Op.Safe waitAst boot2 := by
  refine admits_append (l := start2) ?_ ⟨⟨⟨rfl, rfl, rfl⟩, trivial⟩, ⟨trivial, ?_⟩, ⟨trivial, trivial⟩,
    trivial⟩
  · simp only [start2, Admits, Op.Ready, Op.Safe, and_self]
  · rintro ⟨-, -, -, -, hb, -⟩
    cases hb

/-- Task 0 runs its AST routine, and is then at its end. -/
def handled : Kernel (Fin 2) :=
  runAll [.dsptch false, .doast 0 6 ⟨[], true, true, 0, 0, false⟩] (runAll waitAst boot2)

theorem reach_handled : Reach (Step Op.Safe) boot2 handled := by
  refine (reach_runAll admits_waitAst).trans (reach_runAll ?_)
  refine ⟨⟨trivial, trivial⟩, ⟨⟨rfl, rfl, rfl⟩, ?_⟩, trivial⟩
  rintro ⟨-, -, hover⟩
  cases hover

/-- `ASTEXT` lets task 0 go on, since flag 3 is set. -/
theorem flags_sound_of_reach_ast :
    ((handled.astext 0 6 ⟨[], true, true, 0, 0, false⟩).1.tcb 0).st1.flagged = false := by
  refine (flags_sound_of_reach boot2_boot boot2_idle reach_handled 0).2 6 _ ⟨rfl, rfl, rfl⟩
    ⟨fun _ => rfl, ?_⟩ rfl rfl rfl (by decide)
  intro hbad
  cases hbad

/-- `SETFLG` does not look at the main program that is put away. -/
theorem asleep_of_setflg : ∃ k k' : Kernel (Fin 2), k.Boot ∧
    (∀ t, (k.tcb t).st = {} ∧ (k.tcb t).st1 = Blocking.clear) ∧ Reach (Step Op.Safe) k k' ∧
    ∃ t c, (k'.tcb t).st.ast = true ∧ (k'.tcb t).svst1.efw = true ∧ (k'.tcb t).ctx = some c ∧
      (k'.tcb t).flgs &&& c.swm ≠ 0 := by
  refine ⟨boot2, _, boot2_boot, boot2_idle, reach_runAll admits_waitAst, 0, ⟨4, none, 256, 0⟩, rfl,
    rfl, rfl, ?_⟩
  decide

end RSX280.Sched
