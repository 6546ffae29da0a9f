import RSX280.Errors
import RSX280.Memory
import RSX280.Queue
import Mathlib.Algebra.GroupWithZero.Nat

/-!
# Task control blocks (`tcb.inc`) and what the kernel decides about one task

A `Tcb` with its context block, the two status bytes split into their bits. Tasks
are values of an arbitrary type `T`.

Nearly every routine that changes the state of a task has the same shape: look at
the bits, change some of them, and then leave the task on the list it is on, move
it to the ready or to the waiting list, or look at the wait list of its partition.
Here stands the part that decides, as a function from a `Tcb` to an `Outcome`;
finding the task in the lists and moving it is `Kernel.settle`.
-/

namespace RSX280.Sched

universe u

/-- A system may have two tasks, or four. -/
instance neZero_two : NeZero 2 := ⟨Nat.succ_ne_zero _⟩

instance neZero_four : NeZero 4 := ⟨Nat.succ_ne_zero _⟩

/-! ## Status -/

/-- `T.ATTR`. -/
structure Attr where
  /-- `TA.PRV`: task is privileged -/
  prv : Bool := false
  /-- `TA.REM`: remove on exit -/
  rem : Bool := false
  /-- `TA.AST`: AST recognition enabled -/
  ast : Bool := false
  /-- `TA.FIX`: task fixed in memory -/
  fix : Bool := false
  /-- `TA.MCR`: task is external MCR function -/
  mcr : Bool := false
  /-- `TA.CLI`: task is a CLI -/
  cli : Bool := false
  /-- `TA.ACP`: task is an ACP -/
  acp : Bool := false
  /-- `TA.CKD`: checkpointing disabled -/
  ckd : Bool := false
  deriving DecidableEq, Repr

/-- The first byte of `T.ST` and `T.SVST`. -/
structure Status where
  /-- `TS.ACT`: task active -/
  act : Bool := false
  /-- `TS.AST`: task is executing an AST -/
  ast : Bool := false
  /-- `TS.SUP`: task is in supervisor mode -/
  sup : Bool := false
  /-- `TS.CKR`: checkpoint requested -/
  ckr : Bool := false
  /-- `TS.ABX`: abort AST called -/
  abx : Bool := false
  /-- `TS.XDT`: task in debug control of another task -/
  xdt : Bool := false
  /-- bit 6, not used -/
  bit6 : Bool := false
  /-- `TS.BPT`: stopped at breakpoint -/
  bpt : Bool := false
  deriving DecidableEq, Repr

/-- The second byte: the blocking bits. -/
structure Blocking where
  /-- `T2.STP`: stopped -/
  stp : Bool := false
  /-- `T2.SEF`: stopped for event flag -/
  sef : Bool := false
  /-- `T2.EFW`: event flag waiting -/
  efw : Bool := false
  /-- `T2.WTD`: waiting for data -/
  wtd : Bool := false
  /-- `T2.OUT`: task is out of memory -/
  out : Bool := false
  /-- `T2.CKP`: task is checkpointed -/
  ckp : Bool := false
  /-- `T2.LDR`: task is being loaded -/
  ldr : Bool := false
  /-- `T2.ABO`: task is being aborted -/
  abo : Bool := false
  deriving DecidableEq, Repr

/-- No blocking bit is set. -/
def Blocking.clear : Blocking := {}

/-- A byte stored over a status byte. -/
def Status.ofByte (n : ℕ) : Status :=
  ⟨n.testBit 0, n.testBit 1, n.testBit 2, n.testBit 3, n.testBit 4, n.testBit 5, n.testBit 6,
    n.testBit 7⟩

/-! ## ASTs -/

/-- The types of `ast.inc`. -/
inductive AstType where
  /-- `AST.IO`: I/O completion -/
  | io
  /-- `AST.UC`: unsolicited character from an attached terminal -/
  | uc
  /-- `AST.RD`: data received -/
  | rd
  /-- `AST.CK`: clock (mark time) -/
  | ck
  /-- `AST.ST`: status from offspring -/
  | st
  /-- `AST.AB`: abort request -/
  | ab
  /-- `AST.CL`: command line -/
  | cl
  /-- `AST.DB`: debug event -/
  | db
  deriving DecidableEq, Repr

/-- `chktyp`: a type that needs no control block. -/
def AstType.unspecified : AstType → Bool
  | io | uc | ck => true
  | _ => false

/-- An AST control block of `T.SAST`. -/
structure Acb where
  typ : AstType
  addr : ℕ
  deriving DecidableEq, Repr

/-- An AST event block of `T.ASTL`; `special` is bit 7 of the type. -/
structure AstBlock where
  typ : AstType
  special : Bool
  addr : ℕ
  dat : List UInt8
  deriving DecidableEq, Repr

/-! ## The control block -/

/-- What `TX.XDT` points to: the debugged task in a debugger, the descriptor in a
debugged task. -/
inductive Xdt (T : Type u) where
  | task (t : T)
  | desc (d : ℕ)
  deriving DecidableEq, Repr

/-- The context block. -/
structure Ctx (T : Type u) where
  /-- `TX.SWM`: saved flag wait mask during AST -/
  swm : BitVec 32
  /-- `TX.XDT`: external debugger context data -/
  xdt : Option (Xdt T)
  /-- PC in `TX.REGS` -/
  pc : ℕ
  /-- AF in `TX.REGS` -/
  af : ℕ

/-- An element of a receive list: a packet with its `QU.PRI`, or, in the list of
the loader, a task. -/
inductive Item (T : Type u) where
  | packet (addr pri : ℕ)
  | task (t : T)
  deriving DecidableEq, Repr

/-- A task control block, with the memory of the task. -/
structure Tcb (T : Type u) where
  attr : Attr
  /-- `T.ST` -/
  st : Status
  /-- `T.ST+1` -/
  st1 : Blocking
  /-- `T.SVST` -/
  svst : Status
  /-- `T.SVST+1` -/
  svst1 : Blocking
  dpri : ℕ
  pri : ℕ
  flgs : BitVec 32
  wait : BitVec 32
  rcvl : List (Item T)
  sast : List Acb
  astl : List AstBlock
  ioc : ℕ
  ctx : Option (Ctx T)
  /-- `T.STRT`: start address -/
  strt : ℕ
  /-- `T.DEND`: default end address -/
  dend : ℕ
  /-- `T.END`: current end address -/
  tend : ℕ
  /-- `T.EPT`: entry point -/
  ept : ℕ
  sp : ℕ
  /-- the memory of the task -/
  mem : Mem

/-- Where a routine sends the task. -/
inductive Goto where
  /-- nowhere -/
  | stay
  /-- to `$RLIST` -/
  | ready
  /-- to `$WLIST` -/
  | wait
  /-- nowhere, but its partition is looked at (`TNEXT`) -/
  | next
  deriving DecidableEq, Repr

/-- How a routine returns. -/
inductive Ret where
  | ok
  /-- error code in A -/
  | err (e : Err)
  /-- carry set, no particular code -/
  | carry
  deriving DecidableEq, Repr

/-- The task as a routine leaves it, where it sends it, and what it returns. -/
structure Outcome (T : Type u) where
  tcb : Tcb T
  goto : Goto
  ret : Ret

namespace Tcb

variable {T : Type u} (t : Tcb T)

/-- The running bits: no blocking bit and not stopped for the debugger. -/
def runnable : Bool := t.st1 = Blocking.clear && !t.st.bpt

/-- `TNEXT` is taken when only `T2.CKP` and `T2.OUT` stand. -/
def nextIf (b : Blocking) : Goto :=
  if { b with out := false, ckp := false } = Blocking.clear then .next else .stay

/-! ## Stop and resume (`tskmgr.mac`) -/

/-- `TSTOP`. -/
def tstop : Outcome T :=
  if t.st.ast then
    if t.svst1.stp then ⟨t, .stay, .err .tstp⟩
    else ⟨{ t with svst1 := { t.svst1 with stp := true } }, .stay, .ok⟩
  else if !t.runnable && t.st1.stp then ⟨t, .stay, .err .tstp⟩
  else ⟨{ t with st1 := { t.st1 with stp := true } }, .wait, .ok⟩

/-- `TRESUM`. A task in AST state that is not stopped gives success as well: the
code takes the exit of a checkpointed task. -/
def tresum : Outcome T :=
  if t.st.ast then
    if t.svst1.stp then ⟨{ t with svst1 := { t.svst1 with stp := false } }, .stay, .ok⟩
    else ⟨t, .stay, .ok⟩
  else if !t.st1.stp then ⟨t, .stay, .err .trun⟩
  else
    let b := { t.st1 with stp := false }
    if b = Blocking.clear && !t.st.bpt then ⟨{ t with st1 := b }, .ready, .ok⟩
    else ⟨{ t with st1 := b }, nextIf b, .ok⟩

/-- `TCONT`, from `tcn2` on: the wait bit is taken back, `b` remains. -/
def tcont2 (b : Blocking) : Outcome T :=
  if b ≠ Blocking.clear then ⟨{ t with st1 := b }, nextIf b, .ok⟩
  else if t.st.bpt then ⟨{ t with st1 := b }, .stay, .ok⟩
  else ⟨{ t with st1 := b }, .ready, .ok⟩

/-- `TCONT`. -/
def tcont : Outcome T :=
  if t.st1.efw then t.tcont2 { t.st1 with efw := false }
  else if t.st1.sef then t.tcont2 { t.st1 with sef := false }
  else ⟨t, .stay, .err .trun⟩

/-! ## Event flags (`flags.mac`) -/

/-- `FLGMSK`: the mask of flag `e`, which is 1 to 32. -/
def flgmsk (e : ℕ) : Option (BitVec 32) :=
  if 1 ≤ e ∧ e ≤ 32 then some (1#32 <<< (e - 1)) else none

/-- `CKWMSK`: a flag the task waits for is set. -/
def ckwmsk : Bool := t.flgs &&& t.wait ≠ 0

/-- `FLWAIT` and `FLWTLO`, from `fw0` on. -/
def flwait0 : Outcome T :=
  if t.ckwmsk then ⟨t, .stay, .ok⟩
  else if !t.runnable && t.st1.efw then ⟨t, .stay, .err .tstp⟩
  else ⟨{ t with st1 := { t.st1 with efw := true } }, .wait, .ok⟩

/-- `FLSTOP` and `FLSTLO`, from `fs0` on. -/
def flstop0 : Outcome T :=
  if t.ckwmsk then ⟨t, .stay, .ok⟩
  else if !t.runnable && t.st1.sef then ⟨t, .stay, .err .tstp⟩
  else ⟨{ t with st1 := { t.st1 with sef := true } }, .wait, .ok⟩

/-! ## Send and receive (`sndrcv.mac`, `qldr.mac`) -/

/-- `WTDAT`. -/
def wtdat : Outcome T :=
  if t.st.ast then ⟨t, .stay, .err .badop⟩
  else if t.rcvl ≠ [] then ⟨t, .stay, .ok⟩
  else ⟨{ t with st1 := { t.st1 with wtd := true } }, .wait, .ok⟩

/-- `SEND`, behind `QAST`: wake the receiver. -/
def datain : Outcome T :=
  if t.st.ast then
    if t.svst1.wtd then ⟨{ t with svst1 := { t.svst1 with wtd := false } }, .stay, .ok⟩
    else ⟨t, .stay, .err .trun⟩
  else if !t.st1.wtd then ⟨t, .stay, .err .trun⟩
  else
    let b := { t.st1 with wtd := false }
    if b = Blocking.clear && !t.st.bpt then ⟨{ t with st1 := b }, .ready, .ok⟩
    else ⟨{ t with st1 := b }, nextIf b, .ok⟩

/-- `QLDR`, behind the list insertion: wake the loader. -/
def ldrin : Outcome T :=
  if !t.st1.wtd then ⟨t, .stay, .ok⟩
  else
    let b := { t.st1 with wtd := false }
    if b = Blocking.clear && !t.st.bpt then ⟨{ t with st1 := b }, .ready, .ok⟩
    else ⟨{ t with st1 := b }, .stay, .ok⟩

/-! ## Debugger stops (`tskmgr.mac`) -/

/-- Set or clear `TS.BPT`, in the saved status as well. -/
def setBpt (v : Bool) : Tcb T :=
  { t with st := { t.st with bpt := v }, svst := { t.svst with bpt := v } }

/-- `$DBBRK`, behind the test of `TS.BPT`. -/
def dbbrk : Outcome T := ⟨t.setBpt true, .wait, .ok⟩

/-- `$DBRES`. -/
def dbres : Outcome T :=
  ⟨t.setBpt false, if t.st1 = Blocking.clear then .ready else .stay, .ok⟩

/-! ## ASTs (`ast.mac`) -/

/-- `SETAST`: make the task execute ASTs. Only `TS.ACT` and `TS.SUP` of the first
status byte survive. -/
def setast : Outcome T :=
  if t.st.ast then ⟨t, .stay, .ok⟩
  else if !t.attr.ast then ⟨t, .stay, .carry⟩
  else
    match t.ctx with
    | none => ⟨t, .stay, .carry⟩
    | some c =>
      let t' := { t with
        ctx := some { c with swm := t.wait }
        wait := 0
        svst := t.st
        svst1 := t.st1
        st := { act := t.st.act, sup := t.st.sup, ast := true } }
      if t.runnable then ⟨t', .stay, .ok⟩
      else
        let b := { t.st1 with stp := false, sef := false, efw := false, wtd := false }
        if b = Blocking.clear && !t.st.bpt then ⟨{ t' with st1 := b }, .ready, .ok⟩
        else ⟨{ t' with st1 := b }, .next, .ok⟩

/-- `FNDAST`. -/
def fndast (a : AstType) : Option Acb := t.sast.find? fun b => b.typ = a

/-- `QAST` up to the call of `SETAST`. `addr` is the routine for the types without
a control block, `mem` whether there is pool for the event. `none`: nothing is
queued. -/
def qast (a : AstType) (addr : ℕ) (dat : List UInt8) (mem : Bool) : Option (Tcb T) :=
  let addr? := if a.unspecified then some addr else (t.fndast a).map (·.addr)
  match addr? with
  | none => none
  | some addr =>
    if addr = 0 ∨ mem = false then none
    else some { t with astl := t.astl ++ [⟨a, false, addr, dat⟩] }

/-- `$VALTB`: `len` bytes at `a` lie in the task. -/
def valtb (a len : ℕ) : Bool :=
  t.strt ≤ a && len ≤ t.tend && a ≤ (t.tend - len + 1) % 65536

/-- `STARG`: push AF, PC and the arguments and enter the routine. -/
def starg (b : AstBlock) : Option (Tcb T) :=
  match t.ctx with
  | none => none
  | some c =>
    let n := b.dat.length
    if t.valtb ((t.sp + 65536 - (n + 4)) % 65536) (n + 4) then
      let m := t.mem.wr16 ((t.sp + 65536 - 2) % 65536) c.af
      let m := m.wr16 ((t.sp + 65536 - 4) % 65536) c.pc
      let sp := (t.sp + 65536 - (n + 4)) % 65536
      some { t with mem := m.wrBytes sp b.dat, sp := sp, ctx := some { c with pc := b.addr } }
    else none

/-- `RMARG`: pop PC and AF. -/
def rmarg : Option (Tcb T) :=
  match t.ctx with
  | none => none
  | some c =>
    if t.valtb t.sp 4 then
      some { t with
        sp := (t.sp + 4) % 65536
        ctx := some { c with pc := t.mem.rd16 t.sp, af := t.mem.rd16 ((t.sp + 2) % 65536) } }
    else none

/-- The loop of `DOAST` over special blocks: the data of each goes to the address
in its first two bytes. -/
def specials : List AstBlock → Mem → List AstBlock × Mem
  | [], m => ([], m)
  | b :: l, m =>
    if b.special && (b.typ = .st || b.typ = .db) then
      match b.dat with
      | lo :: hi :: dat => specials l (m.wrBytes (lo.toNat + 256 * hi.toNat) dat)
      | _ => specials l m
    else (b :: l, m)

/-- `DOAST` on the special blocks. -/
def drain : Tcb T := { t with astl := (specials t.astl t.mem).1, mem := (specials t.astl t.mem).2 }

/-- `DOAST` behind `SETAST`: start the first event, unless an AST is being
executed. `none` is a bad stack; the event is off the queue then too. -/
def deliver : Tcb T × Bool :=
  if t.svst.ast then (t, true)
  else
    match t.astl with
    | [] => (t, true)
    | b :: l =>
      let abx := t.svst.abx || (b.typ = .ab && !b.special)
      let t' := { t with svst := { t.svst with ast := true, abx := abx }, astl := l }
      match t'.starg b with
      | none => (t', false)
      | some t'' => (t'', true)

/-- `ASTEXT`: does an event keep the task in AST mode? -/
def astMore : Bool :=
  t.attr.ast && t.astl.any fun b => !(b.special && (b.typ = .st || b.typ = .ab))

/-- `ASTEXT`, from `astx3` on: back to the saved status. -/
def astx3 (swm : BitVec 32) : Outcome T :=
  let t' := { t with
    wait := swm, st := t.svst, st1 := { t.svst1 with out := false, ckp := false } }
  if t'.runnable then ⟨t', .stay, .ok⟩ else ⟨t', .wait, .ok⟩

/-- `ASTEXT`, behind the test that an AST is executed. The flag is clear on a bad
stack. -/
def astext : Outcome T × Bool :=
  let abx := t.svst.abx && !t.attr.prv
  let t' := { t with svst := { t.svst with ast := false, abx := abx } }
  match t'.rmarg with
  | none => (⟨t', .stay, .ok⟩, false)
  | some t'' =>
    if t''.astMore then (⟨t'', .stay, .ok⟩, true)
    else (t''.astx3 ((t''.ctx.map (·.swm)).getD 0), true)

/-! ## Start and end of a task (`tskmgr.mac`) -/

/-- `TRQST2`, the part that resets an inactive task. -/
def reset (mcr : Bool) : Tcb T :=
  { t with
    attr := { t.attr with ast := true, mcr := mcr }
    pri := t.dpri
    tend := t.dend
    flgs := 0
    wait := 0
    ctx := if t.attr.fix then t.ctx else none
    rcvl := []
    sast := []
    astl := []
    ioc := 0 }

/-- A context block as `NEWCTX` and `SETCTX` set it up. -/
def newctx : Ctx T := ⟨0, none, 0, 0⟩

/-- `TRQST2` from `NEWCTX` on: a context block, and active. -/
def request : Tcb T :=
  { t with
    ctx := if t.attr.fix then t.ctx.map fun c => { c with xdt := none } else some newctx
    st := { act := true }
    st1 := { t.st1 with abo := false } }

/-- `TKILL2` from `tk0` on: no longer active, and out of memory unless fixed there. -/
def ended : Tcb T :=
  let b := { t with st := { t.st with act := false } }
  if t.attr.fix then b
  else { b with ctx := none, st1 := { b.st1 with out := false, ckp := false } }

end Tcb

end RSX280.Sched
