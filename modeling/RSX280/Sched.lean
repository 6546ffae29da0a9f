import Mathlib.Data.Fintype.Card
import RSX280.Links
import RSX280.Tcb

/-!
# The task manager (`tskmgr.mac`, `flags.mac`, `sndrcv.mac`, `ast.mac`, `qldr.mac`)

The kernel state: all task control blocks, the lists `$RLIST` and `$WLIST` threaded
through `T.ACTL`, and the operations that change them.

The partitions are left out. Where a routine goes on to look at the wait list of a
partition (`TNEXT`, `$ASNTP`) what it may do there — call the loader (`qldr`),
checkpoint a task (`chkpt`), request a task (`trqst2`) — is an operation of its
own. Answers of the pool and of the partitions are arguments.
-/

namespace RSX280.Sched

open Links

universe u

variable {T : Type u}

/-! ## The kernel state -/

/-- The list heads. -/
inductive Q where
  /-- `$RLIST`: ready tasks -/
  | rlist
  /-- `$WLIST`: waiting tasks -/
  | wlist
  deriving DecidableEq, Repr

/-- A debugger descriptor. -/
structure Xdb (T : Type u) where
  /-- `XD.TCB`: the debugger -/
  tcb : T
  /-- `XD.DSB`: debug status block -/
  dsb : ℕ
  /-- `XD.EFN`: event flag number -/
  efn : ℕ

/-- What the kernel does that its data structures do not survive. -/
inductive Fault where
  /-- a link stored where IY does not point to a link any more -/
  | strayLink
  /-- a TCB taken for a debugger descriptor, or a descriptor for a TCB, or a
  descriptor used that has been freed -/
  | wildXdt
  deriving DecidableEq, Repr

/-- The kernel. `since` and `clock` are history: when each task was last linked to
a list. -/
structure Kernel (T : Type u) where
  tcb : T → Tcb T
  /-- `$RLIST`, `$WLIST` and `T.ACTL` -/
  actl : Links Q T
  since : T → ℕ
  clock : ℕ
  /-- `$TLIST`: the installed tasks -/
  tlist : List T
  /-- `$CTCB`: the current task -/
  ctcb : Option T
  ldrtcb : Option T
  mcrtcb : Option T
  /-- `$RNDH`, `$RNDL`: priorities with round-robin scheduling -/
  rndh : ℕ
  rndl : ℕ
  /-- the debugger descriptors in the pool -/
  xdb : ℕ → Option (Xdb T)
  faults : List Fault

namespace Kernel

variable [DecidableEq T]

/-- Store the control block of `t`. -/
def setTcb (k : Kernel T) (t : T) (b : Tcb T) : Kernel T :=
  { k with tcb := Function.update k.tcb t b }

/-- Record a fault. -/
def fault (k : Kernel T) (f : Fault) : Kernel T := { k with faults := f :: k.faults }

/-- Change the context block of `t`, if it has one. -/
def setCtx (k : Kernel T) (t : T) (f : Ctx T → Ctx T) : Kernel T :=
  k.setTcb t { k.tcb t with ctx := (k.tcb t).ctx.map f }

variable [Fintype T]

/-! ## The lists -/

/-- `FTCB` in list `h`: the cell that links to `t`. -/
def ftcb (k : Kernel T) (h : Q) (t : T) : Option (Cell Q T) :=
  k.actl.find t (Fintype.card T) (.head h)

/-- `$FNTCB`: first in the ready list, then in the waiting list. -/
def fntcb (k : Kernel T) (t : T) : Option (Cell Q T) :=
  (k.ftcb .rlist t).or (k.ftcb .wlist t)

/-- `$LKTCB`: link `t` to list `h` in front of the first task of lower priority. -/
def lktcb (k : Kernel T) (h : Q) (t : T) : Kernel T :=
  let p := k.actl.slot (fun a => (k.tcb a).pri < (k.tcb t).pri) (Fintype.card T) (.head h)
  { k with
    actl := k.actl.relink p t
    since := Function.update k.since t k.clock
    clock := k.clock + 1 }

/-- Unlink `t` behind cell `iy` and link it to list `h`. -/
def relist (k : Kernel T) (iy : Cell Q T) (t : T) (h : Q) : Kernel T :=
  { k with actl := k.actl.unlink iy t }.lktcb h t

/-- Store the new control block of `t` and send `t` where it goes, `$FNTCB` telling
where it is. -/
def settle (k : Kernel T) (t : T) (o : Outcome T) : Kernel T :=
  let k' := k.setTcb t o.tcb
  match o.goto, k.fntcb t with
  | .ready, some iy => k'.relist iy t .rlist
  | .wait, some iy => k'.relist iy t .wlist
  | _, _ => k'

/-- A routine that begins with `$FNTCB` and returns if there is no such task. -/
def onTask (k : Kernel T) (t : T) (f : Tcb T → Outcome T) : Kernel T × Ret :=
  match k.fntcb t with
  | none => (k, .err .tnf)
  | some _ => (k.settle t (f (k.tcb t)), (f (k.tcb t)).ret)

/-- `DSPTCH` up to `dsp1`: when the round-robin interval has elapsed the first ready task
goes to the end of its priority class. -/
def rrobin (k : Kernel T) (elapsed : Bool) : Kernel T :=
  match elapsed, k.actl (.head .rlist) with
  | true, some t =>
    if k.rndh < (k.tcb t).pri ∨ (k.tcb t).pri < k.rndl then k
    else k.relist (.head .rlist) t .rlist
  | _, _ => k

/-- `DSPTCH`: the first ready task becomes the current one. -/
def dsptch (k : Kernel T) (elapsed : Bool) : Kernel T :=
  match (k.rrobin elapsed).actl (.head .rlist) with
  | none => k.rrobin elapsed
  | some t => { k.rrobin elapsed with ctcb := some t }

/-! ## Stop, resume, flags -/

/-- `TSTOP`. -/
def tstop (k : Kernel T) (t : T) : Kernel T × Ret := k.onTask t Tcb.tstop

/-- `TRESUM`. -/
def tresum (k : Kernel T) (t : T) : Kernel T × Ret := k.onTask t Tcb.tresum

/-- `TCONT`. -/
def tcont (k : Kernel T) (t : T) : Kernel T × Ret := k.onTask t Tcb.tcont

/-- `CLRFLG`. -/
def clrflg (k : Kernel T) (t : T) (e : ℕ) : Kernel T × Ret :=
  match Tcb.flgmsk e with
  | none => (k, .err .badfl)
  | some m => (k.setTcb t { k.tcb t with flgs := (k.tcb t).flgs &&& ~~~m }, .ok)

/-- `SETFLG`: set the flag and wake the task up if it waits for it. -/
def setflg (k : Kernel T) (t : T) (e : ℕ) : Kernel T × Ret :=
  match k.fntcb t with
  | none => (k, .err .tnf)
  | some _ =>
    match Tcb.flgmsk e with
    | none => (k, .err .badfl)
    | some m =>
      let b := { k.tcb t with flgs := (k.tcb t).flgs ||| m }
      let k' := k.setTcb t b
      if b.ckwmsk then ((k'.tcont t).1, .ok) else (k', .ok)

/-- `SETMSK`, then `f`: `FLWAIT` and `FLSTOP`. -/
def setmsk (k : Kernel T) (t : T) (e : ℕ) (f : Tcb T → Outcome T) : Kernel T × Ret :=
  match Tcb.flgmsk e with
  | none => (k.setTcb t { k.tcb t with wait := 0 }, .err .badfl)
  | some m => (k.setTcb t { k.tcb t with wait := m }).onTask t f

/-- `FLWAIT`. -/
def flwait (k : Kernel T) (t : T) (e : ℕ) : Kernel T × Ret := k.setmsk t e Tcb.flwait0

/-- `FLWTLO`. -/
def flwtlo (k : Kernel T) (t : T) (m : BitVec 32) : Kernel T × Ret :=
  (k.setTcb t { k.tcb t with wait := m }).onTask t Tcb.flwait0

/-- `FLSTOP`. -/
def flstop (k : Kernel T) (t : T) (e : ℕ) : Kernel T × Ret := k.setmsk t e Tcb.flstop0

/-- `FLSTLO`. -/
def flstlo (k : Kernel T) (t : T) (m : BitVec 32) : Kernel T × Ret :=
  (k.setTcb t { k.tcb t with wait := m }).onTask t Tcb.flstop0

/-! ## ASTs -/

/-- `QAST`: queue an event and set the task up for it. -/
def qast (k : Kernel T) (t : T) (a : AstType) (addr : ℕ) (dat : List UInt8) (mem : Bool) :
    Kernel T :=
  match (k.tcb t).qast a addr dat mem with
  | none => k
  | some b => k.settle t b.setast

/-- `SETAST` on its own, as `DOAST` calls it. -/
def setast (k : Kernel T) (t : T) : Kernel T × Ret :=
  (k.settle t (k.tcb t).setast, (k.tcb t).setast.ret)

/-! ## Send and receive -/

/-- The priority an item is queued by. -/
def itemPri (k : Kernel T) : Item T → ℕ
  | .packet _ pri => pri
  | .task t => (k.tcb t).pri

/-- Insert an item in the receive list of `t`. -/
def enqueue (k : Kernel T) (t : T) (i : Item T) : Kernel T :=
  k.setTcb t { k.tcb t with rcvl := Queue.enqueue k.itemPri i (k.tcb t).rcvl }

/-- `SEND`. `QAST` does not keep the link pointer `$FNTCB` left in IY: with no
control block for the type IY is 0, else it is the control block or the new event
block. So a task that becomes ready here is linked to the ready list without having
been unlinked; the other link goes astray. -/
def send (k : Kernel T) (t : T) (i : Item T) (mem : Bool) : Kernel T × Ret :=
  let k := k.enqueue t i
  match k.fntcb t with
  | none => (k, .err .tnf)
  | some _ =>
    let k := k.qast t .rd 0 [] mem
    let o := (k.tcb t).datain
    if o.goto = .ready then (((k.setTcb t o.tcb).fault .strayLink).lktcb .rlist t, o.ret)
    else (k.settle t o, o.ret)

/-- `RECV` by the current task. -/
def recv (k : Kernel T) : Kernel T × Except Err (Item T) :=
  match k.ctcb with
  | none => (k, .error .qemp)
  | some t =>
    match (k.tcb t).rcvl with
    | [] => (k, .error .qemp)
    | i :: l => (k.setTcb t { k.tcb t with rcvl := l }, .ok i)

/-- `WTDAT` by task `t`, the current one. -/
def wtdat (k : Kernel T) (t : T) : Kernel T × Ret := k.onTask t Tcb.wtdat

/-- `QLDR`: queue `t` to the loader. -/
def qldr (k : Kernel T) (t : T) : Kernel T × Ret :=
  match k.ldrtcb with
  | none => (k, .carry)
  | some l => (k.enqueue l (.task t)).onTask l Tcb.ldrin

/-! ## The debugger -/

/-- `$DBBRK`. -/
def dbbrk (k : Kernel T) (t : T) : Kernel T × Ret :=
  if (k.tcb t).st.bpt then (k, .err .tstp)
  else (k.settle t (k.tcb t).dbbrk, if (k.fntcb t).isNone then .err .tnf else .ok)

/-- `$DBRES`. -/
def dbres (k : Kernel T) (t : T) : Kernel T × Ret :=
  (k.settle t (k.tcb t).dbres, if (k.fntcb t).isNone then .err .tnf else .ok)

/-- `CHKPRV`: the current task is privileged. -/
def chkprv (k : Kernel T) : Bool :=
  match k.ctcb with
  | none => true
  | some t => (k.tcb t).attr.prv

/-- `$DBCON`, the connection: descriptor `d` for `t`, and `g` its debugger. -/
def attach (k : Kernel T) (g t : T) (efn dsb d : ℕ) : Kernel T :=
  let k := { k with xdb := Function.update k.xdb d (some ⟨g, dsb, efn⟩) }
  let k := k.setCtx t fun c => { c with xdt := some (.desc d) }
  let k := k.setTcb g { k.tcb g with st := { (k.tcb g).st with xdt := true } }
  k.setCtx g fun c => { c with xdt := some (.task t) }

/-- `$DBDIS`, the disconnection of `t` with descriptor `d` from its debugger `g`. -/
def detach (k : Kernel T) (g t : T) (d : ℕ) : Kernel T :=
  let k := { k with xdb := Function.update k.xdb d none }
  let k := k.setCtx t fun c => { c with xdt := none }
  let k := k.setTcb g { k.tcb g with st := { (k.tcb g).st with xdt := false } }
  k.setCtx g fun c => { c with xdt := none }

/-- `$DBCON`: the current task becomes the debugger of `t`. `d` is the descriptor
`$ALLOC` returns, if there is pool for one. -/
def dbcon (k : Kernel T) (t : T) (efn dsb : ℕ) (d : Option ℕ) : Kernel T × Ret :=
  match k.ctcb with
  | none => (k, .carry)
  | some g =>
    if !k.chkprv then (k, .err .priv)
    else if t ∉ k.tlist then (k, .err .tnf)
    else if !(k.tcb t).st.act then (k, .err .tnac)
    else if t = g then (k, .err .badop)
    else
      match (k.tcb t).ctx with
      | none => (k, .err .tnac)
      | some c =>
        if c.xdt.isSome then (k, .err .inv)
        else
          match d with
          | none => (k, .carry)
          | some d => (k.attach g t efn dsb d, .ok)

/-- `$DBDIS`: disconnect `t` from its debugger. -/
def dbdis (k : Kernel T) (t : T) : Kernel T × Ret :=
  match k.fntcb t with
  | none => k.dbres t
  | some _ =>
    let k := (k.dbres t).1
    match (k.tcb t).ctx.bind (·.xdt) with
    | none => (k, .err .inv)
    | some (.task _) => (k.fault .wildXdt, .ok)
    | some (.desc d) =>
      match k.xdb d with
      | none => (k.fault .wildXdt, .ok)
      | some x => (k.detach x.tcb t d, .ok)

/-- Low and high byte of a word. -/
def word (n : ℕ) : List UInt8 := [UInt8.ofNat n, UInt8.ofNat (n / 256)]

/-- `SDINFO`: store `dat` at `addr` in the memory of `t`, or have `DOAST` do it if `t`
is not there, and queue an event. `m₁` and `m₂` tell whether there is pool for the
special and for the plain event block. -/
def sdinfo (k : Kernel T) (t : T) (a : AstType) (addr : ℕ) (dat : List UInt8) (m₁ m₂ : Bool) :
    Kernel T :=
  if (k.tcb t).st1.out then
    if m₁ then
      (k.setTcb t { k.tcb t with
        astl := ⟨a, true, 0, word addr ++ dat⟩ :: (k.tcb t).astl }).qast t a 0 (word addr) m₂
    else k
  else
    (k.setTcb t { k.tcb t with mem := (k.tcb t).mem.wrBytes addr dat }).qast t a 0 (word addr) m₂

/-- `$DBNOT`: notify the debugger of `t`. -/
def dbnot (k : Kernel T) (t : T) (dat : List UInt8) (m₁ m₂ : Bool) : Kernel T × Ret :=
  match (k.tcb t).ctx.bind (·.xdt) with
  | none => (k, .err .inv)
  | some (.task _) => (k.fault .wildXdt, .ok)
  | some (.desc d) =>
    match k.xdb d with
    | none => (k.fault .wildXdt, .ok)
    | some x =>
      let k := k.sdinfo x.tcb .db x.dsb dat m₁ m₂
      (if x.efn = 0 then k else (k.setflg x.tcb x.efn).1, .ok)

/-- `CLNDBG`: break the debugger connection of a task that terminates. A task with
`TS.XDT` is taken for a debugger, any other with a context pointer for a debugged
task. -/
def clndbg (k : Kernel T) (t : T) (dat : List UInt8) (m₁ m₂ : Bool) : Kernel T :=
  match (k.tcb t).ctx.bind (·.xdt), (k.tcb t).st.xdt with
  | none, _ => k
  | some (.task u), true => (k.dbdis u).1
  | some (.desc _), true => k.fault .wildXdt
  | some _, false => ((k.dbnot t dat m₁ m₂).1.dbdis t).1

/-! ## Start, load and kill -/

/-- `tgo2`: move `t` from the waiting to the ready list, unless it is stopped at a
breakpoint. -/
def tgo2 (k : Kernel T) (t : T) : Kernel T × Ret :=
  if (k.tcb t).st.bpt then (k, .ok)
  else
    match k.ftcb .wlist t with
    | none => (k, .err .tnf)
    | some iy => (k.relist iy t .rlist, .ok)

/-- `TKILL2` up to `tk0`: a task with `TA.REM` leaves the directory. -/
def unlist (k : Kernel T) (t : T) : Kernel T :=
  if (k.tcb t).attr.rem then
    { k with tlist := k.tlist.erase t }.setTcb t
      { k.tcb t with attr := { (k.tcb t).attr with fix := false } }
  else k

/-- `TKILL2`: the end of a task. -/
def tkill2 (k : Kernel T) (t : T) : Kernel T × Ret :=
  if (k.tcb t).attr.rem ∧ t ∉ k.tlist then (k, .err .tnf)
  else
    let k := k.unlist t
    match k.fntcb t with
    | none => (k, .err .tnf)
    | some iy => ({ k with actl := k.actl.unlink iy t }.setTcb t (k.tcb t).ended, .ok)

/-- `$LDGO`: start execution after the initial load. -/
def ldgo (k : Kernel T) (t : T) : Kernel T × Ret :=
  let b := k.tcb t
  if b.st1.abo then k.tkill2 t
  else if !b.st.act then (k.setTcb t { b with st1 := Blocking.clear }, .ok)
  else
    (k.setTcb t { b with
      st1 := Blocking.clear
      sp := b.tend
      ctx := b.ctx.map fun c => { c with pc := b.ept } }).tgo2 t

/-- `$LDCKR`: resume after a checkpoint read. -/
def ldckr (k : Kernel T) (t : T) : Kernel T × Ret :=
  let b := k.tcb t
  let b := { b with st1 := { b.st1 with out := false, ckp := false } }
  let k := k.setTcb t b
  if b.st1.abo then k.tkill2 t
  else if b.st1 = Blocking.clear then k.tgo2 t
  else (k, .ok)

/-- `$LDCKW`: after a checkpoint write the task is out of memory. -/
def ldckw (k : Kernel T) (t : T) : Kernel T × Ret :=
  let b := k.tcb t
  if b.st1.abo then k.tkill2 t
  else (k.setTcb t { b with st1 := { b.st1 with out := true } }, .ok)

/-- `$CHKPT`; `space` tells whether the checkpoint file has room. -/
def chkpt (k : Kernel T) (t : T) (space : Bool) : Kernel T × Ret :=
  let b := k.tcb t
  if b.st1.ckp then (k, .err .badop)
  else if b.attr.fix || b.attr.ckd || b.st1.abo || b.st1.out then (k, .err .badop)
  else if (b.ctx.bind (·.xdt)).isSome then (k, .err .badop)
  else if b.ioc ≠ 0 then (k.setTcb t { b with st := { b.st with ckr := true } }, .ok)
  else if !space then (k, .carry)
  else
    let k := k.setTcb t { b with
      st := { b.st with ckr := false }, st1 := { b.st1 with ckp := true } }
    let k := match k.ftcb .rlist t with
      | none => k
      | some iy => k.relist iy t .wlist
    k.qldr t

/-- `TRQST2`: start an installed task. `mcr` is `TA.MCR` of the descriptor, `ok` whether
terminal, memory and context block were found. -/
def trqst2 (k : Kernel T) (t : T) (mcr ok : Bool) : Kernel T × Ret :=
  if (k.tcb t).st.act then
    (k, if (k.tcb t).attr.cli || (k.tcb t).attr.acp then .ok else .err .trun)
  else
    let b := (k.tcb t).reset mcr
    if !ok then (k.setTcb t b, .carry)
    else
      let b := b.request
      let k := (k.setTcb t b).lktcb .wlist t
      if !b.attr.fix then (k.setTcb t { b with st1 := { out := true } }, .ok)
      else if b.st1.out then (k, .ok)
      else k.ldgo t

/-- `$FIXTK`; `ok` tells whether there is memory and pool. -/
def fixtk (k : Kernel T) (t : T) (ok : Bool) : Kernel T × Ret :=
  let b := k.tcb t
  if b.st.act then (k, .err .tact)
  else if b.attr.fix then (k, .err .tfix)
  else if !ok then (k, .carry)
  else
    (k.setTcb t { b with
      attr := { b.attr with fix := true }
      st := {}
      st1 := { out := true }
      ctx := some Tcb.newctx }, .ok)

/-- `UNFIX`. -/
def unfix (k : Kernel T) (t : T) : Kernel T × Ret :=
  let b := k.tcb t
  if !b.attr.fix then (k, .err .tnfix)
  else (k.setTcb t { b with attr := { b.attr with fix := false }, ctx := none }, .ok)

/-- `$UNFTK`. -/
def unftk (k : Kernel T) (t : T) : Kernel T × Ret :=
  if (k.tcb t).st.act then (k, .err .tact) else k.unfix t

/-- `$REMTK`: remove `t` from the directory. -/
def remtk (k : Kernel T) (t : T) : Kernel T × Ret :=
  if t ∉ k.tlist then (k, .err .tnf)
  else if (k.tcb t).st.act then (k, .err .tact)
  else ({ (k.unfix t).1 with tlist := k.tlist.erase t }, .ok)

/-- The answers `TKILL` gets from outside: bytes for the debugger with pool for the
event blocks, the outstanding I/O bit of `IOKILL` and the I/O count it leaves, and
whether the task was in the wait list of its partition. -/
structure KillEnv where
  dat : List UInt8
  m₁ : Bool
  m₂ : Bool
  oio : ℕ
  ioc : ℕ
  waiting : Bool

/-- `TKILL`, the part up to `tk6`: the task is cleaned up, marked for abort and moved
to the waiting list. -/
def tkill1 (k : Kernel T) (t : T) (e : ℕ) (v : KillEnv) : Kernel T :=
  let k := k.clndbg t v.dat v.m₁ v.m₂
  let b := k.tcb t
  k.settle t ⟨{ b with
    svst := Status.ofByte (v.oio ||| e)
    st1 := { b.st1 with abo := true }
    sast := []
    astl := []
    ioc := v.ioc }, .wait, .ok⟩

/-- Is `t` in the loader queue? -/
def queued (k : Kernel T) (t : T) : Bool :=
  match k.ldrtcb with
  | none => false
  | some l => (k.tcb l).rcvl.contains (.task t)

/-- Take `t` off the loader queue. -/
def dequeue (k : Kernel T) (t : T) : Kernel T :=
  match k.ldrtcb with
  | none => k
  | some l => k.setTcb l { k.tcb l with rcvl := (k.tcb l).rcvl.erase (.task t) }

/-- `TKILL` from `tk6` on. A task that is being loaded or has I/O outstanding is left
to the loader or to the end of its I/O. (The loader kills, with `T2.LDR` set, only tasks
that have not run, hence without I/O.) -/
def tk6 (k : Kernel T) (t : T) (v : KillEnv) : Kernel T × Ret :=
  let b := k.tcb t
  if b.st1.out || b.st1.ckp then
    if !v.waiting && k.ldrtcb.isNone then (k, .carry)
    else if !v.waiting && !k.queued t && !b.st1.ldr then (k, .ok)
    else
      let k := if v.waiting then k else k.dequeue t
      if b.ioc ≠ 0 then (k, .ok) else k.tkill2 t
  else if b.ioc ≠ 0 then (k, .ok)
  else k.tkill2 t

/-- `TKILL`: abort task `t` for reason `e`. The loader and `MCR` are not killed. -/
def tkill (k : Kernel T) (t : T) (e : ℕ) (v : KillEnv) : Kernel T × Ret :=
  let b := k.tcb t
  if k.mcrtcb = some t ∨ k.ldrtcb = some t then (k, .err .badop)
  else if !b.st.act then (k, .err .tnac)
  else if b.st1.abo then (k, .err .tabo)
  else if ((k.tkill1 t e v).fntcb t).isNone then (k.tkill1 t e v, .err .tnf)
  else (k.tkill1 t e v).tk6 t v

/-! ## Priority -/

/-- `ALTPRI` in list `h`. -/
def repri (k : Kernel T) (h : Q) (t : T) (e : ℕ) : Option (Kernel T) :=
  (k.ftcb h t).map fun iy => (k.setTcb t { k.tcb t with pri := e }).relist iy t h

/-- `ALTPRI` from `altp5` on. -/
def altp5 (k : Kernel T) (t : T) (e : ℕ) : Kernel T :=
  ((k.repri .rlist t e).or (k.repri .wlist t e)).getD k

/-- `ALTPRI`: the current task sets the priority of `t` to `e`, to the default one if
`e` is 0; with `inst` the default priority as well. -/
def altpri (k : Kernel T) (t : T) (e : ℕ) (inst : Bool) : Kernel T × Ret :=
  let dpri := (k.tcb t).dpri
  let free := (e = 0 ∨ e ≤ dpri) ∧ !inst ∧ k.ctcb = some t
  let e := if e = 0 then dpri else e
  if ¬free ∧ !k.chkprv then (k, .err .priv)
  else if inst then
    if t ∉ k.tlist then (k, .err .tnf)
    else
      let b := { k.tcb t with pri := e, dpri := e }
      let l := Queue.enqueue (fun a => ((k.setTcb t b).tcb a).pri) t (k.tlist.erase t)
      (({ k with tlist := l }.setTcb t b).altp5 t e, .ok)
  else (k.altp5 t e, .ok)

/-! ## Services of the current task -/

/-- `ASTDCL`: declare routine `addr` for type `a`, or none if `addr` is 0, which takes
the events queued for it off. That scan tests the low byte of a link only and ends
at a block at a multiple of 256; `seen` is the number of events before it. `mem` tells
whether there is pool for the block. -/
def astdcl (k : Kernel T) (t : T) (a : AstType) (addr seen : ℕ) (mem : Bool) :
    Kernel T × Ret :=
  let b := k.tcb t
  if a.unspecified then (k, .err .inv)
  else
    match b.fndast a with
    | some _ =>
      if a = .ab ∧ !b.attr.prv ∧ b.st.abx then (k, .err .badop)
      else if addr = 0 then
        (k.setTcb t { b with
          sast := b.sast.eraseP fun c => c.typ = a
          astl := (b.astl.take seen).filter (fun c => !(c.typ = a && !c.special)) ++
            b.astl.drop seen }, .ok)
      else
        (k.setTcb t { b with
          sast := b.sast.map fun c => if c.typ = a then { c with addr := addr } else c }, .ok)
    | none =>
      if addr = 0 then (k, .ok)
      else if !mem then (k, .carry)
      else (k.setTcb t { b with sast := b.sast ++ [⟨a, addr⟩] }, .ok)

/-- `ASTCTL`: enable or disable ASTs. -/
def astctl (k : Kernel T) (t : T) (on : Bool) : Kernel T :=
  k.setTcb t { k.tcb t with attr := { (k.tcb t).attr with ast := on } }

/-- `DOAST`: deliver what is queued to `t`, the task about to run. A bad stack aborts
it. -/
def doast (k : Kernel T) (t : T) (e : ℕ) (v : KillEnv) : Kernel T × Ret :=
  let k := k.setTcb t (k.tcb t).drain
  if (k.tcb t).astl = [] then (k, .ok)
  else if (k.tcb t).setast.ret ≠ .ok then (k, .carry)
  else
    let k := (k.setast t).1
    match (k.tcb t).deliver with
    | (b, true) => (k.setTcb t b, .ok)
    | (b, false) => (((k.setTcb t b).tkill t e v).1, .carry)

/-- `ASTEXT` by task `t`, the current one. A task that waits for a flag again may find
it set already. -/
def astext (k : Kernel T) (t : T) (e : ℕ) (v : KillEnv) : Kernel T × Ret :=
  if !(k.tcb t).svst.ast then (k, .err .badop)
  else
    match (k.tcb t).astext with
    | (o, false) => (k.setTcb t o.tcb).tkill t e v
    | (o, true) =>
      let k := k.settle t o
      let b := k.tcb t
      if o.goto = .wait ∧ (b.st1.efw || b.st1.sef) ∧ b.ckwmsk then k.tcont t else (k, o.ret)

/-- `TSETSV` and `TCLRSV`. -/
def setsv (k : Kernel T) (t : T) (on : Bool) : Kernel T × Ret :=
  let b := k.tcb t
  if on && !b.st.sup && !b.attr.prv then (k, .err .priv)
  else (k.setTcb t { b with st := { b.st with sup := on } }, .ok)

/-- What the program of task `t` does between two calls. -/
def user (k : Kernel T) (t : T) (m : Mem) (sp pc af : ℕ) : Kernel T :=
  (k.setTcb t { k.tcb t with mem := m, sp := sp }).setCtx t fun c =>
    { c with pc := pc, af := af }

end Kernel

end RSX280.Sched
