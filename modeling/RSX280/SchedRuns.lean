import RSX280.SchedOps

/-!
# Runs of the task manager

`Op` lists the operations, `Op.run` performs one and `Op.Ready` says when the kernel
does: who may call it, or what the caller has tested. `Kernel.Sound` is what the
scheduler lists should be in every state; `lists_sound_of_reach` proves it of every run
whose steps are all `Op.Safe`, and `unsound_of_send` shows a run that is not.
-/

namespace RSX280.Sched

open Links

universe u

variable {T : Type u}

/-! ## Operations and steps -/

/-- An operation of the kernel, with its arguments and the answers from outside. -/
inductive Op (T : Type u) where
  | dsptch (elapsed : Bool)
  | tstop (t : T)
  | tresum (t : T)
  | tcont (t : T)
  | setflg (t : T) (e : ℕ)
  | clrflg (t : T) (e : ℕ)
  | flwait (t : T) (e : ℕ)
  | flwtlo (t : T) (m : BitVec 32)
  | flstop (t : T) (e : ℕ)
  | flstlo (t : T) (m : BitVec 32)
  | send (t : T) (i : Item T) (mem : Bool)
  | recv
  | wtdat (t : T)
  | qldr (t : T)
  /-- the loader takes `t` off its queue -/
  | taken (t : T)
  /-- the event of an I/O completion, a clock request, an abort request or a CLI -/
  | qast (t : T) (a : AstType) (addr : ℕ) (dat : List UInt8) (mem : Bool)
  /-- status from offspring, or a debug event -/
  | sdinfo (t : T) (a : AstType) (addr : ℕ) (dat : List UInt8) (m₁ m₂ : Bool)
  | astdcl (t : T) (a : AstType) (addr seen : ℕ) (mem : Bool)
  | astctl (t : T) (on : Bool)
  | doast (t : T) (e : ℕ) (v : Kernel.KillEnv)
  | astext (t : T) (e : ℕ) (v : Kernel.KillEnv)
  | dbcon (t : T) (efn dsb : ℕ) (d : Option ℕ)
  | dbdis (t : T)
  | dbbrk (t : T)
  | dbres (t : T)
  | dbnot (t : T) (dat : List UInt8) (m₁ m₂ : Bool)
  | altpri (t : T) (e : ℕ) (inst : Bool)
  | setsv (t : T) (on : Bool)
  | trqst2 (t : T) (mcr ok : Bool)
  | fixtk (t : T) (ok : Bool)
  | unftk (t : T)
  | remtk (t : T)
  /-- a task with control block `b` is installed -/
  | install (t : T) (b : Tcb T)
  | ldgo (t : T)
  | ldckr (t : T)
  | ldckw (t : T)
  | chkpt (t : T) (space : Bool)
  | tkill (t : T) (e : ℕ) (v : Kernel.KillEnv)
  /-- the end of an aborted task whose I/O is done -/
  | tkill2 (t : T)
  /-- I/O begins or ends -/
  | io (t : T) (n : ℕ)
  /-- the program of `t` runs -/
  | user (t : T) (m : Mem) (sp pc af : ℕ)

section Step

variable [DecidableEq T] [Fintype T]

/-- Perform an operation. -/
def Op.run : Op T → Kernel T → Kernel T
  | .dsptch elapsed, k => k.dsptch elapsed
  | .tstop t, k => (k.tstop t).1
  | .tresum t, k => (k.tresum t).1
  | .tcont t, k => (k.tcont t).1
  | .setflg t e, k => (k.setflg t e).1
  | .clrflg t e, k => (k.clrflg t e).1
  | .flwait t e, k => (k.flwait t e).1
  | .flwtlo t m, k => (k.flwtlo t m).1
  | .flstop t e, k => (k.flstop t e).1
  | .flstlo t m, k => (k.flstlo t m).1
  | .send t i mem, k => (k.send t i mem).1
  | .recv, k => k.recv.1
  | .wtdat t, k => (k.wtdat t).1
  | .qldr t, k => (k.qldr t).1
  | .taken t, k => k.dequeue t
  | .qast t a addr dat mem, k => k.qast t a addr dat mem
  | .sdinfo t a addr dat m₁ m₂, k => k.sdinfo t a addr dat m₁ m₂
  | .astdcl t a addr seen mem, k => (k.astdcl t a addr seen mem).1
  | .astctl t on, k => k.astctl t on
  | .doast t e v, k => (k.doast t e v).1
  | .astext t e v, k => (k.astext t e v).1
  | .dbcon t efn dsb d, k => (k.dbcon t efn dsb d).1
  | .dbdis t, k => (k.dbdis t).1
  | .dbbrk t, k => (k.dbbrk t).1
  | .dbres t, k => (k.dbres t).1
  | .dbnot t dat m₁ m₂, k => (k.dbnot t dat m₁ m₂).1
  | .altpri t e inst, k => (k.altpri t e inst).1
  | .setsv t on, k => (k.setsv t on).1
  | .trqst2 t mcr ok, k => (k.trqst2 t mcr ok).1
  | .fixtk t ok, k => (k.fixtk t ok).1
  | .unftk t, k => (k.unftk t).1
  | .remtk t, k => (k.remtk t).1
  | .install t b, k => { k.setTcb t b with tlist := t :: k.tlist }
  | .ldgo t, k => (k.ldgo t).1
  | .ldckr t, k => (k.ldckr t).1
  | .ldckw t, k => (k.ldckw t).1
  | .chkpt t space, k => (k.chkpt t space).1
  | .tkill t e v, k => (k.tkill t e v).1
  | .tkill2 t, k => (k.tkill2 t).1
  | .io t n, k => k.setTcb t { k.tcb t with ioc := n }
  | .user t m sp pc af, k => k.user t m sp pc af

/-- When an operation is performed. A service of a task is called by the running task,
the control block of a task being installed is not in use, with both bytes of the status
cleared and no context block, the loader has found `T2.CKP` set before it writes a task to the
checkpoint file, and a descriptor is new. -/
def Op.Ready : Op T → Kernel T → Prop
  | .wtdat t, k | .doast t _ _, k | .astext t _ _, k | .astctl t _, k | .user t _ _ _ _, k
  | .astdcl t _ _ _ _, k | .setsv t _, k | .flwait t _, k | .flwtlo t _, k | .flstop t _, k
  | .flstlo t _, k => k.Running t
  | .install t b, k =>
    t ∉ k.tlist ∧ (k.tcb t).st.act = false ∧ (b.st = {} ∧ b.st1 = Blocking.clear) ∧ b.ctx = none
  | .ldckw t, k => (k.tcb t).st1.ckp = true
  | .tkill2 t, k => (k.tcb t).st1.abo = true
  | .dbcon _ _ _ d, k => (∀ g, k.ctcb = some g → k.Running g) ∧ ∀ e ∈ d, k.xdb e = none
  | _, _ => True

/-- The steps that keep the scheduler lists. Not among them:
* `SEND` to a task it has to wake up itself,
* an event that takes a task off its breakpoint when nothing else blocks it,
* `ASTEXT` by a task that is in no AST but has the bit set in a `T.SVST` left over. -/
def Op.Safe : Op T → Kernel T → Prop
  | .send t _ mem, k =>
    ((k.tcb t).st.act = true → ¬(k.tcb t).Alert mem) ∧ ¬k.Breaks t .rd 0 mem
  | .qast t a addr _ mem, k => ¬k.Breaks t a addr mem
  | .sdinfo t a _ _ _ m₂, k => ¬k.Breaks t a 0 m₂
  | .dbnot t _ _ m₂, k => k.Quiet t m₂
  | .tkill t _ v, k => k.Mortal t → (k.tcb t).st.xdt = false → k.Quiet t v.m₂
  | .doast t _ v, k => (k.tcb t).Overflow → k.Quiet t v.m₂
  | .astext t _ v, k =>
    ((k.tcb t).svst.ast = true → (k.tcb t).st.ast = true) ∧
      ((k.tcb t).astext.2 = false → (k.tcb t).st.xdt = false → k.Quiet t v.m₂)
  | _, _ => True

/-- One step, by an operation that meets `P`. -/
def Step (P : Op T → Kernel T → Prop) (k k' : Kernel T) : Prop :=
  ∃ op, op.Ready k ∧ P op k ∧ k' = op.run k

/-- Perform a list of operations. -/
def runAll : List (Op T) → Kernel T → Kernel T
  | [], k => k
  | op :: l, k => runAll l (op.run k)

/-- Each operation of the list is performed when it may be, and meets `P`. -/
def Admits (P : Op T → Kernel T → Prop) : List (Op T) → Kernel T → Prop
  | [], _ => True
  | op :: l, k => (op.Ready k ∧ P op k) ∧ Admits P l (op.run k)

theorem reach_runAll {P : Op T → Kernel T → Prop} {l : List (Op T)} {k : Kernel T}
    (h : Admits P l k) : Reach (Step P) k (runAll l k) := by
  induction l generalizing k with
  | nil => exact Relation.ReflTransGen.refl
  | cons op l ih => exact Relation.ReflTransGen.head ⟨op, h.1.1, h.1.2, rfl⟩ (ih h.2)

theorem admits_append {P : Op T → Kernel T → Prop} {l l' : List (Op T)} {k : Kernel T}
    (h : Admits P l k) (h' : Admits P l' (runAll l k)) : Admits P (l ++ l') k := by
  induction l generalizing k with
  | nil => exact h'
  | cons op l ih => exact ⟨h.1, ih h.2 h'⟩

end Step

/-! ## Sound lists -/

/-- The scheduler lists are sound: null-terminated and without repetition, ordered by
descending priority and among equals by insertion, every active task on exactly one of
them, and on the ready list exactly the active tasks with no blocking bit set that are
not stopped at a breakpoint. -/
structure Kernel.SoundLists (k : Kernel T) (r w : List T) : Prop where
  rlist : Chain k.actl (.head .rlist) r
  wlist : Chain k.actl (.head .wlist) w
  nodup : r.Nodup ∧ w.Nodup
  ordered : Queue.Ordered (fun t => (k.tcb t).pri) k.since r ∧
    Queue.Ordered (fun t => (k.tcb t).pri) k.since w
  active : ∀ t, (k.tcb t).st.act = true ↔ t ∈ r ∨ t ∈ w
  once : ∀ t, ¬(t ∈ r ∧ t ∈ w)
  ready : ∀ t, t ∈ r ↔
    (k.tcb t).st.act = true ∧ (k.tcb t).st1 = Blocking.clear ∧ (k.tcb t).st.bpt = false

def Kernel.Sound (k : Kernel T) : Prop := ∃ r w, k.SoundLists r w

theorem Kernel.Ok.sound {k : Kernel T} (h : k.Ok) : k.Sound := by
  obtain ⟨l, hl⟩ := h
  refine ⟨l .rlist, l .wlist, hl.lists.chain _, hl.lists.chain _, ⟨(hl.lists.chain _).nodup,
    (hl.lists.chain _).nodup⟩, ⟨hl.ord _, hl.ord _⟩, fun t => ?_, fun t ht => ?_, fun t => ?_⟩
  · rw [hl.mem, hl.mem, ← and_or_left]
    refine (and_iff_left ?_).symm
    cases (k.tcb t).home with
    | rlist => exact Or.inl rfl
    | wlist => exact Or.inr rfl
  · exact hl.lists.disjoint .rlist .wlist (by decide) t ht.1 ht.2
  · rw [hl.mem, Tcb.home_eq_rlist]

/-- The kernel before the first task is started. -/
structure Kernel.Boot (k : Kernel T) : Prop where
  lists : ∀ q, k.actl (.head q) = none
  idle : ∀ t, (k.tcb t).st.act = false

theorem Kernel.Boot.ok {k : Kernel T} (h : k.Boot) : k.Ok := by
  refine ⟨fun _ => [], ⟨h.lists, nofun⟩, fun _ => Queue.Ordered.nil, nofun, fun q t => ?_,
    fun t ht => nomatch (h.idle t).symm.trans ht⟩
  simp [h.idle t]

section Runs

variable [DecidableEq T] [Fintype T] {k k' : Kernel T}

/-- A safe step keeps the lists. -/
theorem Kernel.Ok.step (h : k.Ok) (hs : Step Op.Safe k k') : k'.Ok := by
  obtain ⟨op, hr, hc, rfl⟩ := hs
  cases op with
  | dsptch elapsed => exact h.dsptch elapsed
  | tstop t => exact h.onTask Tcb.tstop_fits
  | tresum t => exact h.onTask Tcb.tresum_fits
  | tcont t => exact h.onTask Tcb.tcont_fits
  | setflg t e => exact h.setflg e
  | clrflg t e => exact h.clrflg e
  | flwait t e => exact h.setmsk e Tcb.flwait0_fits
  | flwtlo t m => exact h.flwtlo m
  | flstop t e => exact h.setmsk e Tcb.flstop0_fits
  | flstlo t m => exact h.flstlo m
  | send t i mem => exact h.send hc.1 hc.2
  | recv => exact h.recv
  | wtdat t => exact h.onTask Tcb.wtdat_fits
  | qldr t => exact h.qldr
  | taken t => exact h.dequeue
  | qast t a addr dat mem => exact h.qast hc
  | sdinfo t a addr dat m₁ m₂ => exact h.sdinfo hc
  | astdcl t a addr seen mem => exact h.astdcl a addr seen mem
  | astctl t on => exact h.astctl on
  | doast t e v => exact h.doast hr hc
  | astext t e v => exact h.astext hr hc.1 hc.2
  | dbcon t efn dsb d => exact h.dbcon efn dsb d
  | dbdis t => exact h.dbdis
  | dbbrk t => exact h.dbbrk
  | dbres t => exact h.dbres
  | dbnot t dat m₁ m₂ => exact h.dbnot hc
  | altpri t e inst => exact h.altpri e inst
  | setsv t on => exact h.setsv on
  | trqst2 t mcr ok => exact h.trqst2 mcr ok
  | fixtk t ok => exact h.fixtk ok
  | unftk t => exact h.unftk
  | remtk t => exact h.remtk
  | install t b =>
    exact (h.setTcb_inactive hr.2.1 (by rw [hr.2.2.1.1])).congr rfl rfl rfl rfl
  | ldgo t => exact h.ldgo
  | ldckr t => exact h.ldckr
  | ldckw t => exact h.ldckw hr
  | chkpt t space => exact h.chkpt space
  | tkill t e v => exact h.tkill hc
  | tkill2 t => exact h.tkill2
  | io t n => exact h.setTcb rfl
  | user t m sp pc af => exact h.user m sp pc af

/-- In every state reached from the boot of the system by safe steps the scheduler lists
are sound. -/
theorem lists_sound_of_reach (h₀ : k.Boot) (hr : Reach (Step Op.Safe) k k') : k'.Sound :=
  (hr.invariant h₀.ok fun _ _ => Kernel.Ok.step).sound

/-! ### Two tasks -/

/-- Two installed tasks, of priorities 100 and 50, before they are started. -/
def boot2 : Kernel (Fin 2) where
  tcb t :=
    { attr := {}, st := {}, st1 := {}, svst := {}, svst1 := {}
      dpri := if t = 0 then 100 else 50
      pri := 0, flgs := 0, wait := 0, rcvl := [], sast := [], astl := [], ioc := 0
      ctx := none, strt := 256, dend := 4095, tend := 4095, ept := 256, sp := 0, mem := fun _ => 0 }
  actl _ := none
  since _ := 0
  clock := 0
  tlist := [0, 1]
  ctcb := none
  ldrtcb := none
  mcrtcb := none
  rndh := 150
  rndl := 1
  xdb _ := none
  faults := []

theorem boot2_boot : boot2.Boot := ⟨fun _ => rfl, fun _ => rfl⟩

/-- Both tasks are requested and loaded; task 0, of the higher priority, runs. -/
def start2 : List (Op (Fin 2)) :=
  [.trqst2 0 false true, .ldgo 0, .trqst2 1 false true, .ldgo 1, .dsptch false]

/-- Task 1 gets priority 100 and is put behind task 0; task 0 waits for flag 3 until it
is set and is then stopped. -/
theorem lists_sound_of_reach_flag :
    (runAll (start2 ++ [.altpri 1 100 false, .flwait 0 3, .setflg 0 3, .tstop 0]) boot2).Sound := by
  refine lists_sound_of_reach boot2_boot (reach_runAll ?_)
  simp only [start2, List.cons_append, List.nil_append, Admits, Op.Ready, Op.Safe, and_self,
    and_true, true_and]
  exact ⟨rfl, rfl, rfl⟩

/-- Task 0 waits for data and task 1 sends it a packet: task 0 is linked to the ready
list, and it is still on the waiting list. -/
theorem unsound_of_send : ∃ k k' : Kernel (Fin 2), k.Boot ∧ Reach (Step fun _ _ => True) k k' ∧
    ¬k'.Sound := by
  refine ⟨boot2, runAll (start2 ++ [.wtdat 0, .dsptch false, .send 0 (.packet 512 50) true]) boot2,
    boot2_boot, reach_runAll ?_, ?_⟩
  · simp only [start2, List.cons_append, List.nil_append, Admits, Op.Ready, and_self, and_true,
      true_and]
    exact ⟨rfl, rfl, rfl⟩
  · rintro ⟨r, w, h⟩
    have hr : 0 ∈ r := h.rlist.mem_of_link (by decide)
    have hw : 0 ∈ w := h.wlist.mem_of_link (by decide)
    exact h.once 0 ⟨hr, hw⟩

end Runs

end RSX280.Sched
