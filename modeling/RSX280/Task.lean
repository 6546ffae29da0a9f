import RSX280.SchedRuns

/-!
# What the kernel does to one task

`Move` lists everything that can happen to the control block of a task, one constructor
a decision of the kernel; a label tells which event is queued or delivered. Seen from
one task an operation of the kernel is a run of moves (`RSX280.TaskRuns`). So a fact about
one task that every move keeps holds in every state of the kernel.
-/

namespace RSX280.Sched

universe u

variable {T : Type u}

/-! ## Moves -/

/-- What a move does to the queue of events. -/
inductive Act where
  /-- nothing -/
  | tau
  /-- `QAST` puts an event at the end -/
  | queue (x : AstBlock)
  /-- `SDINFO` puts a special block in front -/
  | special (x : AstBlock)
  /-- `DOAST` starts the first event -/
  | deliver (x : AstBlock)
  /-- `DOAST` takes the first event off and finds the stack bad -/
  | lose (x : AstBlock)
  /-- `DOAST` stores the data of the special blocks in front -/
  | drain
  /-- `ASTDCL` takes events off -/
  | purge
  /-- the queue is emptied: `TKILL`, or a new start -/
  | clear
  deriving DecidableEq, Repr

/-- What a move may depend on besides the task: the reasons `TKILL` may store, when an event is
queued that needs no control block, which control blocks are installed, and whether a task may
be missing from the lists or leave an AST it is not in. -/
structure Env (T : Type u) where
  abort : ℕ → Prop
  event : AstType → Tcb T → Prop
  fresh : Tcb T → Prop
  lost : Prop

namespace Tcb

/-- `SETFLG`: the flags `m` are set. -/
def flag (b : Tcb T) (m : BitVec 32) : Tcb T :=
  if ({ b with flgs := b.flgs ||| m } : Tcb T).ckwmsk then
    ({ b with flgs := b.flgs ||| m } : Tcb T).tcont.tcb
  else { b with flgs := b.flgs ||| m }

/-- `TKILL`: reason `e`, with the outstanding I/O bit. -/
def aborted (b : Tcb T) (e ioc : ℕ) : Tcb T :=
  { b with
    svst := Status.ofByte e
    st1 := { b.st1 with abo := true }
    sast := []
    astl := []
    ioc := ioc }

/-- `$LDGO`: the blocking bits are cleared, and an active task begins at its entry point. -/
def loaded (b : Tcb T) : Tcb T :=
  if b.st.act then
    { b with
      st1 := Blocking.clear
      sp := b.tend
      ctx := b.ctx.map fun c => { c with pc := b.ept } }
  else { b with st1 := Blocking.clear }

/-- `$FIXTK`. -/
def fixed (b : Tcb T) : Tcb T :=
  { b with
    attr := { b.attr with fix := true }
    st := {}
    st1 := { out := true }
    ctx := some newctx }

/-- `UNFIX`. -/
def unfixed (b : Tcb T) : Tcb T := { b with attr := { b.attr with fix := false }, ctx := none }

/-- `SETAST`: the status, the wait mask and the blocking bits are saved. `T2.STP`, `T2.SEF`,
`T2.EFW` and `T2.WTD` do not block an AST. -/
def entered (b : Tcb T) (c : Ctx T) : Tcb T :=
  { b with
    ctx := some { c with swm := b.wait }
    wait := 0
    svst := b.st
    svst1 := b.st1
    st := { act := b.st.act, sup := b.st.sup, ast := true }
    st1 := { b.st1 with stp := false, sef := false, efw := false, wtd := false } }

/-- `SETAST` leaves the task alone or has it enter AST state. -/
theorem setast_eq (b : Tcb T) :
    (b.setast.tcb = b ∧ (b.st.ast = true ∨ b.setast.ret = .carry)) ∨
    (b.st.ast = false ∧ b.attr.ast = true ∧ b.setast.ret = .ok ∧
      ∃ c, b.ctx = some c ∧ b.setast.tcb = b.entered c) := by
  unfold setast
  by_cases ha : b.st.ast = true
  · rw [if_pos ha]
    exact Or.inl ⟨rfl, Or.inl ha⟩
  rw [if_neg ha]
  by_cases he : (!b.attr.ast) = true
  · rw [if_pos he]
    exact Or.inl ⟨rfl, Or.inr rfl⟩
  rw [if_neg he]
  cases hc : b.ctx with
  | none => exact Or.inl ⟨rfl, Or.inr rfl⟩
  | some c =>
    refine Or.inr ⟨by simpa using ha, by simpa using he, ?_⟩
    dsimp only
    split
    · rename_i hr
      refine ⟨rfl, c, rfl, ?_⟩
      have hst : b.st1 = Blocking.clear := by
        simp only [runnable, Bool.and_eq_true, decide_eq_true_eq] at hr
        exact hr.1
      unfold entered
      rw [hst]
      rfl
    · split
      · exact ⟨rfl, c, rfl, rfl⟩
      · exact ⟨rfl, c, rfl, rfl⟩

/-- A task that `SETAST` sets up is in AST state. -/
theorem setast_of_ok {b : Tcb T} (h : b.setast.ret = .ok) : b.setast.tcb.st.ast = true := by
  rcases b.setast_eq with ⟨he, ha | hc⟩ | ⟨-, -, -, c, -, he⟩
  · rw [he]
    exact ha
  · exact nomatch hc.symm.trans h
  · rw [he]
    rfl

theorem setast_abo (b : Tcb T) : b.setast.tcb.st1.abo = b.st1.abo := by
  rcases b.setast_eq with ⟨he, -⟩ | ⟨-, -, -, c, -, he⟩
  · rw [he]
  · rw [he]
    rfl

theorem setast_astl (b : Tcb T) : b.setast.tcb.astl = b.astl := by
  rcases b.setast_eq with ⟨he, -⟩ | ⟨-, -, -, c, -, he⟩
  · rw [he]
  · rw [he]
    rfl

/-! ### Stops and wakeups -/

/-- Nothing is changed but `T2.STP` and `T2.WTD`, live and saved. -/
def Nudged (b c : Tcb T) : Prop :=
  ∃ p q v w, c = { b with
    st1 := { b.st1 with stp := p, wtd := q }
    svst1 := { b.svst1 with stp := v, wtd := w } }

section Nudged

variable (b : Tcb T)

theorem nudged_refl : Nudged b b := ⟨b.st1.stp, b.st1.wtd, b.svst1.stp, b.svst1.wtd, rfl⟩

theorem nudged_tstop : Nudged b b.tstop.tcb := by
  unfold tstop
  split
  · split
    · exact b.nudged_refl
    · exact ⟨b.st1.stp, b.st1.wtd, true, b.svst1.wtd, rfl⟩
  · split
    · exact b.nudged_refl
    · exact ⟨true, b.st1.wtd, b.svst1.stp, b.svst1.wtd, rfl⟩

theorem nudged_tresum : Nudged b b.tresum.tcb := by
  unfold tresum
  split
  · split
    · exact ⟨b.st1.stp, b.st1.wtd, false, b.svst1.wtd, rfl⟩
    · exact b.nudged_refl
  split
  · exact b.nudged_refl
  · dsimp only
    split <;> exact ⟨false, b.st1.wtd, b.svst1.stp, b.svst1.wtd, rfl⟩

theorem nudged_wtdat : Nudged b b.wtdat.tcb := by
  unfold wtdat
  split
  · exact b.nudged_refl
  split
  · exact b.nudged_refl
  · exact ⟨b.st1.stp, true, b.svst1.stp, b.svst1.wtd, rfl⟩

theorem nudged_datain : Nudged b b.datain.tcb := by
  unfold datain
  split
  · split
    · exact ⟨b.st1.stp, b.st1.wtd, b.svst1.stp, false, rfl⟩
    · exact b.nudged_refl
  split
  · exact b.nudged_refl
  · dsimp only
    split <;> exact ⟨b.st1.stp, false, b.svst1.stp, b.svst1.wtd, rfl⟩

theorem nudged_ldrin : Nudged b b.ldrin.tcb := by
  unfold ldrin
  split
  · exact b.nudged_refl
  · dsimp only
    split <;> exact ⟨b.st1.stp, false, b.svst1.stp, b.svst1.wtd, rfl⟩

/-- `TCONT` changes the bits for event flags. -/
theorem tcont_eq : ∃ e s, b.tcont.tcb = { b with st1 := { b.st1 with efw := e, sef := s } } := by
  unfold tcont tcont2
  split
  · split
    · exact ⟨false, b.st1.sef, rfl⟩
    · split <;> exact ⟨false, b.st1.sef, rfl⟩
  · split
    · split
      · exact ⟨b.st1.efw, false, rfl⟩
      · split <;> exact ⟨b.st1.efw, false, rfl⟩
    · exact ⟨b.st1.efw, b.st1.sef, rfl⟩

/-- `FLWAIT` sets `T2.EFW`, if anything. -/
theorem flwait0_eq : ∃ v, b.flwait0.tcb = { b with st1 := { b.st1 with efw := v } } := by
  unfold flwait0
  split
  · exact ⟨b.st1.efw, rfl⟩
  split
  · exact ⟨b.st1.efw, rfl⟩
  · exact ⟨true, rfl⟩

/-- `FLSTOP` sets `T2.SEF`, if anything. -/
theorem flstop0_eq : ∃ v, b.flstop0.tcb = { b with st1 := { b.st1 with sef := v } } := by
  unfold flstop0
  split
  · exact ⟨b.st1.sef, rfl⟩
  split
  · exact ⟨b.st1.sef, rfl⟩
  · exact ⟨true, rfl⟩

/-- `DOAST` starts an event: what changes is the saved status, the queue, the stack and the
registers. -/
theorem deliver_eq : ∃ s l m sp c, b.deliver.1 =
    { b with svst := s, astl := l, mem := m, sp := sp, ctx := c } := by
  have hrefl : ∃ s l m sp c, b = { b with svst := s, astl := l, mem := m, sp := sp, ctx := c } :=
    ⟨b.svst, b.astl, b.mem, b.sp, b.ctx, rfl⟩
  unfold deliver
  split
  · exact hrefl
  split
  · exact hrefl
  · dsimp only
    split
    · exact ⟨_, _, b.mem, b.sp, b.ctx, rfl⟩
    · rename_i hs
      unfold starg at hs
      split at hs
      · exact nomatch hs
      dsimp only at hs
      split at hs
      · cases hs
        exact ⟨_, _, _, _, _, rfl⟩
      · exact nomatch hs

end Nudged

/-! ### `ASTEXT` -/

/-- `RMARG` changes the stack pointer and the registers. -/
theorem rmarg_eq {b c : Tcb T} (h : b.rmarg = some c) :
    ∃ (x : Ctx T) (pc af : ℕ), b.ctx = some x ∧
      c = { b with sp := (b.sp + 4) % 65536, ctx := some { x with pc := pc, af := af } } := by
  unfold rmarg at h
  cases hx : b.ctx with
  | none =>
    rw [hx] at h
    exact nomatch h
  | some x =>
    rw [hx] at h
    dsimp only at h
    split at h
    · exact ⟨x, _, _, rfl, (Option.some.inj h).symm⟩
    · exact nomatch h

/-- What `ASTEXT` leaves behind a good stack: the task in AST state, or the main program
with its bits and its mask. -/
structure Left (b : Tcb T) (o : Outcome T) : Prop where
  attr : o.tcb.attr = b.attr
  flgs : o.tcb.flgs = b.flgs
  sast : o.tcb.sast = b.sast
  svst1 : o.tcb.svst1 = b.svst1
  back : (o.tcb.st1 = b.st1 ∧ o.tcb.wait = b.wait ∧ o.tcb.st = b.st ∧ o.goto = .stay) ∨
    (o.tcb.st = { b.svst with ast := false, abx := b.svst.abx && !b.attr.prv } ∧
      o.tcb.st1 = { b.svst1 with out := false, ckp := false } ∧
      o.tcb.wait = (b.ctx.map (·.swm)).getD 0 ∧
      o.goto = if o.tcb.runnable then .stay else .wait)

theorem astext_left {b : Tcb T} {o : Outcome T} (h : b.astext = (o, true)) : b.Left o := by
  unfold astext at h
  dsimp only at h
  split at h
  · exact nomatch congrArg Prod.snd h
  rename_i c hc
  obtain ⟨x, pc, af, hx, rfl⟩ := rmarg_eq hc
  split at h
  · obtain rfl := congrArg Prod.fst h
    exact ⟨rfl, rfl, rfl, rfl, Or.inl ⟨rfl, rfl, rfl, rfl⟩⟩
  · obtain rfl := congrArg Prod.fst h
    have hx : b.ctx = some x := hx
    unfold astx3
    refine ⟨?_, ?_, ?_, ?_, Or.inr ?_⟩
    · dsimp only
      split <;> rfl
    · dsimp only
      split <;> rfl
    · dsimp only
      split <;> rfl
    · dsimp only
      split <;> rfl
    · rw [hx]
      dsimp only
      split <;> exact ⟨rfl, rfl, rfl, rfl⟩

/-- On a bad stack the task is still in its AST. -/
theorem astext_bad {b : Tcb T} {o : Outcome T} (h : b.astext = (o, false)) :
    o.tcb = { b with svst := { b.svst with ast := false, abx := b.svst.abx && !b.attr.prv } } := by
  unfold astext at h
  dsimp only at h
  split at h
  · exact congrArg (fun p => p.1.tcb) h.symm
  · split at h <;> exact nomatch congrArg Prod.snd h

/-- `ASTEXT` leaves the task waiting for a flag that is set. -/
def Woken (o : Outcome T) : Prop :=
  o.goto = .wait ∧ (o.tcb.st1.efw || o.tcb.st1.sef) = true ∧ o.tcb.ckwmsk = true

end Tcb

/-- A task moves. The task of a service is the running one. -/
inductive Move (E : Env T) : Act → Tcb T → Tcb T → Prop where
  | stop (b : Tcb T) : Move E .tau b b.tstop.tcb
  | resume (b : Tcb T) : Move E .tau b b.tresum.tcb
  | cont (b : Tcb T) : Move E .tau b b.tcont.tcb
  | setflg (b : Tcb T) (m : BitVec 32) : Move E .tau b (b.flag m)
  | clrflg (b : Tcb T) (m : BitVec 32) : Move E .tau b { b with flgs := b.flgs &&& ~~~m }
  | mask (b : Tcb T) (m : BitVec 32) (h : b.home = .rlist) : Move E .tau b { b with wait := m }
  | flwait (b : Tcb T) (m : BitVec 32) (h : b.home = .rlist) :
    Move E .tau b (Tcb.flwait0 { b with wait := m }).tcb
  | flstop (b : Tcb T) (m : BitVec 32) (h : b.home = .rlist) :
    Move E .tau b (Tcb.flstop0 { b with wait := m }).tcb
  | wtdat (b : Tcb T) (h : b.home = .rlist) : Move E .tau b b.wtdat.tcb
  | datain (b : Tcb T) : Move E .tau b b.datain.tcb
  | ldrin (b : Tcb T) : Move E .tau b b.ldrin.tcb
  | queue (b c : Tcb T) (a : AstType) (x : AstBlock) (hc : c = { b with astl := b.astl ++ [x] })
    (ha : x.special = false ∧ x.typ = a) (hs : a.unspecified = false → b.fndast a ≠ none)
    (he : a.unspecified = true → E.event a b) : Move E (.queue x) b c.setast.tcb
  | special (b : Tcb T) (x : AstBlock) (h : x.special = true) :
    Move E (.special x) b { b with astl := x :: b.astl }
  | write (b : Tcb T) (m : Mem) : Move E .tau b { b with mem := m }
  | drain (b : Tcb T) : Move E .drain b b.drain
  | setast (b : Tcb T) (h : b.home = .rlist) : Move E .tau b b.setast.tcb
  | deliver (b c : Tcb T) (x : AstBlock) (l : List AstBlock) (ha : b.st.ast = true)
    (hb : b.st1.abo = false) (hs : b.svst.ast = false) (hx : b.astl = x :: l)
    (h : b.deliver = (c, true)) : Move E (.deliver x) b c
  | lose (b c : Tcb T) (x : AstBlock) (l : List AstBlock) (ha : b.st.ast = true)
    (hb : b.st1.abo = false) (hs : b.svst.ast = false) (hx : b.astl = x :: l)
    (h : b.deliver = (c, false)) : Move E (.lose x) b c
  | exit (b : Tcb T) (o : Outcome T) (hr : b.home = .rlist) (hs : b.svst.ast = true)
    (ha : E.lost ∨ b.st.ast = true) (h : b.astext = (o, true)) (hw : ¬Tcb.Woken o) :
    Move E .tau b o.tcb
  | wake (b : Tcb T) (o : Outcome T) (hr : b.home = .rlist) (hs : b.svst.ast = true)
    (ha : E.lost ∨ b.st.ast = true) (h : b.astext = (o, true)) (hw : Tcb.Woken o) :
    Move E .tau b o.tcb.tcont.tcb
  | lost (b : Tcb T) (o : Outcome T) (hr : b.home = .rlist) (hs : b.svst.ast = true)
    (h : b.astext = (o, true)) (hl : E.lost) : Move E .tau b o.tcb
  | badext (b : Tcb T) (o : Outcome T) (hr : b.home = .rlist) (hs : b.svst.ast = true)
    (h : b.astext = (o, false)) : Move E .tau b o.tcb
  | setBpt (b : Tcb T) (v : Bool) : Move E .tau b (b.setBpt v)
  | abort (b : Tcb T) (e ioc : ℕ) (h : E.abort e) : Move E .clear b (b.aborted e ioc)
  | ended (b : Tcb T) (h : b.st1.abo = true) : Move E .tau b b.ended
  | reset (b : Tcb T) (mcr : Bool) (h : b.st.act = false) : Move E .clear b (b.reset mcr)
  | request (b : Tcb T) (mcr : Bool) (h : b.st.act = false) :
    Move E .clear b (b.reset mcr).request
  | load (b : Tcb T) (mcr : Bool) (h : b.st.act = false) :
    Move E .clear b { (b.reset mcr).request with st1 := { out := true } }
  | loaded (b : Tcb T) (h : b.st1.abo = false) : Move E .tau b b.loaded
  | ldckr (b : Tcb T) : Move E .tau b { b with st1 := { b.st1 with out := false, ckp := false } }
  | ldckw (b : Tcb T) : Move E .tau b { b with st1 := { b.st1 with out := true } }
  | ckr (b : Tcb T) : Move E .tau b { b with st := { b.st with ckr := true } }
  | chkpt (b : Tcb T) : Move E .tau b
    { b with st := { b.st with ckr := false }, st1 := { b.st1 with ckp := true } }
  | fix (b : Tcb T) (h : b.st.act = false) : Move E .tau b b.fixed
  | unfix (b : Tcb T) (h : b.st.act = false) : Move E .tau b b.unfixed
  | install (b c : Tcb T) (h : b.st.act = false) (hs : c.st = {} ∧ c.st1 = Blocking.clear)
    (hc : c.ctx = none) (hf : E.fresh c) : Move E .clear b c
  | mark (b : Tcb T) (v : Bool) : Move E .tau b { b with st := { b.st with xdt := v } }
  | link (b : Tcb T) (x : Option (Xdt T)) :
    Move E .tau b { b with ctx := b.ctx.map fun c => { c with xdt := x } }
  | sup (b : Tcb T) (v : Bool) (h : b.home = .rlist) :
    Move E .tau b { b with st := { b.st with sup := v } }
  | user (b : Tcb T) (m : Mem) (sp pc af : ℕ) (h : b.home = .rlist) : Move E .tau b
    { b with mem := m, sp := sp, ctx := b.ctx.map fun c => { c with pc := pc, af := af } }
  | astctl (b : Tcb T) (v : Bool) (h : b.home = .rlist) :
    Move E .tau b { b with attr := { b.attr with ast := v } }
  | astdcl (b : Tcb T) (s : List Acb) (h : b.home = .rlist) : Move E .tau b { b with sast := s }
  | purge (b : Tcb T) (s : List Acb) (l : List AstBlock) (h : b.home = .rlist)
    (hl : l.Sublist b.astl) : Move E .purge b { b with sast := s, astl := l }
  | rem (b : Tcb T) : Move E .tau b { b with attr := { b.attr with fix := false } }
  | io (b : Tcb T) (n : ℕ) : Move E .tau b { b with ioc := n }
  | pri (b : Tcb T) (p d : ℕ) : Move E .tau b { b with pri := p, dpri := d }
  | rcvl (b : Tcb T) (l : List (Item T)) : Move E .tau b { b with rcvl := l }

/-- A run of moves, with their labels. -/
inductive Run (E : Env T) : List Act → Tcb T → Tcb T → Prop where
  | nil (b : Tcb T) : Run E [] b b
  | cons {x : Act} {l : List Act} {b c d : Tcb T} (h : Move E x b c) (hr : Run E l c d) :
    Run E (x :: l) b d

/-- There is a run from one control block to the other. -/
def Moves (E : Env T) (b c : Tcb T) : Prop := ∃ l, Run E l b c

section Runs

variable {E : Env T} {b c d : Tcb T} {x : Act} {l l' : List Act}

theorem Run.append (h : Run E l b c) (h' : Run E l' c d) : Run E (l ++ l') b d := by
  induction h with
  | nil b => exact h'
  | cons hm _ ih => exact .cons hm (ih h')

theorem Moves.refl (b : Tcb T) : Moves E b b := ⟨[], .nil b⟩

theorem Move.moves (h : Move E x b c) : Moves E b c := ⟨[x], .cons h (.nil c)⟩

theorem Moves.trans (h : Moves E b c) (h' : Moves E c d) : Moves E b d := by
  obtain ⟨l, hl⟩ := h
  obtain ⟨l', hl'⟩ := h'
  exact ⟨l ++ l', hl.append hl'⟩

theorem Moves.move (h : Moves E b c) (h' : Move E x c d) : Moves E b d := h.trans h'.moves

/-- What every move keeps a run keeps. -/
theorem Moves.invariant {I : Tcb T → Prop} (h : Moves E b c) (hb : I b)
    (hI : ∀ x b c, Move E x b c → I b → I c) : I c := by
  obtain ⟨l, hl⟩ := h
  induction hl with
  | nil b => exact hb
  | cons hm _ ih => exact ih (hI _ _ _ hm hb)

end Runs

end RSX280.Sched
