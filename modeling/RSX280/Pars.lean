import RSX280.Errors
import RSX280.Links
import RSX280.Tcb

/-!
# Partitions (`pars.mac`, `tskmgr.mac`)

A task runs in a partition. A *system-controlled* partition (`PA.SYS`) is divided among
many tasks; any other one belongs to a single task at a time and has a busy bit
(`PS.BSY`) and a pointer to that task (`P.TCB`). A task that has been requested waits
in the `P.WAIT` list of its partition until `$ASNTP` assigns the partition to it and
hands it to the loader, whose queue is threaded through the same link (`T.LNK`).
`TFREE` gives the partition back.

The model has both kinds of partitions, because they share the loader queue. Of a
system-controlled one it keeps the wait list only: which of the waiting tasks find
memory there is an answer from outside. Checkpointing is left out. No routine modelled
here starts it for a task of another kind of partition.
-/

namespace RSX280.Pars

open Links
open Sched (Ret)

universe u v

/-! ## Control blocks -/

/-- The heads of the lists linked through `T.LNK`. -/
inductive Head (P : Type v) where
  /-- `P.WAIT` of a partition -/
  | wait (p : P)
  /-- `T.RCVL` of the loader -/
  | ldr
  deriving DecidableEq, Repr

/-- What task requests, loads and kills look at in a task control block. -/
structure Tcb (P : Type v) where
  /-- the main partition `T.PCB` leads to -/
  pcb : P
  /-- `TA.FIX`: task fixed in memory -/
  fix : Bool := false
  /-- `TA.REM`: remove on exit -/
  rem : Bool := false
  /-- `TA.CLI`: task is a CLI -/
  cli : Bool := false
  /-- `TA.ACP`: task is an ACP -/
  acp : Bool := false
  /-- `TS.ACT`: task active -/
  act : Bool := false
  /-- `T2.OUT`: task is out of memory -/
  out : Bool := false
  /-- `T2.LDR`: aborted by the loader -/
  ldr : Bool := false
  /-- `T2.ABO`: task is being aborted -/
  abo : Bool := false
  /-- `T.SVST`, where `TKILL` keeps the reason code -/
  svst : ℕ := 0
  dpri : ℕ := 0
  pri : ℕ := 0
  /-- `T.IOC`: outstanding I/O count -/
  ioc : ℕ := 0
  /-- `T.DEND`: default end address -/
  dend : ℕ := 0
  deriving DecidableEq, Repr

/-- What does not change while the system runs. -/
structure Config (T : Type u) (P : Type v) where
  /-- `PA.SYS`: system-controlled partition -/
  sys : P → Bool
  /-- `LDRTCB`, the loader -/
  ldrtcb : T
  /-- `MCRTCB` -/
  mcrtcb : Option T
  /-- the task `TKTN`, which reports aborted tasks -/
  tktn : Option T

/-- The tasks and partitions. The last two fields are history: nothing reads them. -/
structure Kernel (T : Type u) (P : Type v) where
  tcb : T → Tcb P
  /-- `T.LNK` of the tasks, and the heads -/
  lnk : Links (Head P) T
  /-- is the task in the directory `$TLIST`? -/
  tlist : T → Bool
  /-- `PS.BSY`: partition busy -/
  bsy : P → Bool
  /-- `P.TCB`: the task the partition is assigned to -/
  own : P → Option T
  /-- the task the loader has taken off its queue -/
  loading : Option T
  /-- the tasks to which `$ASNTP` has assigned the partition and which `TFREE` has not
  released it for -/
  held : P → List T
  /-- the calls of `TFREE`: for which task, and to which the partition belonged -/
  freed : List (T × Option T)

/-- The answers from outside to a request: is there a terminal, pool for a subpartition,
pool for a context block, and to which waiting tasks does a system-controlled partition
give memory? -/
structure Request (T : Type u) where
  dev : Bool
  sub : Bool
  ctx : Bool
  grant : List T

/-- The answers from outside to the end of a task: the outstanding I/O bit of `IOKILL`,
the I/O count it leaves, whether there is pool for the message to `TKTN`, how its
request ends, and to which waiting tasks a system-controlled partition gives memory. -/
structure KillEnv (T : Type u) where
  oio : ℕ
  ioc : ℕ
  msg : Bool
  req : Request T
  grant : List T

/-- `EA2PG`: number of 4K pages below an end address, in five bits. The source adds 4096
before it divides. -/
def ea2pg (a : ℕ) : ℕ := (a / 4096 + 1) % 32

/-- `GETSIZ`: the pages a task needs. -/
def getsiz (dend : ℕ) : Except Err ℕ :=
  if ea2pg dend = 0 then .error .badtf
  else if 16 < ea2pg dend then .error .pbig
  else .ok (ea2pg dend)

namespace Kernel

variable {T : Type u} {P : Type v} [DecidableEq T] [DecidableEq P]

/-- Store a control block. -/
def setTcb (k : Kernel T P) (t : T) (b : Tcb P) : Kernel T P :=
  { k with tcb := Function.update k.tcb t b }

section Lists

variable [Fintype T]

/-- `$LKTCB` with offset `T.LNK`: link `t` into list `h`, ordered by priority. -/
def lktcb (k : Kernel T P) (h : Head P) (t : T) : Kernel T P :=
  { k with
    lnk := k.lnk.relink
      (k.lnk.slot (fun a => (k.tcb a).pri < (k.tcb t).pri) (Fintype.card T) (.head h)) t }

/-- `FTCB` with offset `T.LNK`: the cell before `t` in list `h`. -/
def ftcb (k : Kernel T P) (h : Head P) (t : T) : Option (Cell (Head P) T) :=
  k.lnk.find t (Fintype.card T) (.head h)

/-- `UNLTCB` with offset `T.LNK`. -/
def unltcb (k : Kernel T P) (h : Head P) (t : T) : Option (Kernel T P) :=
  (k.ftcb h t).map fun c => { k with lnk := k.lnk.unlink c t }

/-- `QLDR`: queue `t` to the loader. -/
def qldr (k : Kernel T P) (t : T) : Kernel T P := k.lktcb .ldr t

/-- `QPAR`: queue `t` to the wait list of its partition. -/
def qpar (k : Kernel T P) (t : T) : Kernel T P := k.lktcb (.wait (k.tcb t).pcb) t

/-! ## Assigning and freeing a partition -/

/-- `ps41` of `$ASNTP`, when `MALLOC` finds memory for `t` in the system-controlled
partition `p`. -/
def grant1 (p : P) (k : Kernel T P) (t : T) : Kernel T P :=
  match k.unltcb (.wait p) t with
  | none => k
  | some k => k.qldr t

/-- `$ASNTP` for a partition that is not system-controlled: `t`, the first task of its
wait list, gets it. -/
def assign (k : Kernel T P) (p : P) (t : T) : Kernel T P :=
  { k with
    bsy := Function.update k.bsy p true
    tcb := Function.update k.tcb t { k.tcb t with pcb := p }
    own := Function.update k.own p (some t)
    lnk := k.lnk.unlink (.head (.wait p)) t
    held := Function.update k.held p (k.held p ++ [t]) }

/-- `$ASNTP`: assign partition `p` to the next waiting task; `g` are the tasks that get
memory if it is system-controlled. -/
def asntp (c : Config T P) (k : Kernel T P) (p : P) (g : List T) : Kernel T P :=
  if c.sys p then g.foldl (grant1 p) k
  else if k.bsy p then k
  else
    match k.lnk (.head (.wait p)) with
    | none => k
    | some t => (k.assign p t).qldr t

/-- `TFREE` for a partition that is not system-controlled. -/
def release (k : Kernel T P) (p : P) (t : T) : Kernel T P :=
  { k with
    bsy := Function.update k.bsy p false
    held := Function.update k.held p ((k.held p).filter (· ≠ t))
    freed := k.freed ++ [(t, if k.bsy p then k.own p else none)] }

/-- `TFREE`: release the memory of `t`. -/
def tfree (c : Config T P) (k : Kernel T P) (t : T) (g : List T) : Kernel T P :=
  let p := (k.tcb t).pcb
  (if c.sys p then k else k.release p t).asntp c p g

/-! ## Request and fix -/

/-- `GETSIZ`, `TALLOC` and `NEWCTX` for `t`, `trqe` when the last one fails. -/
def room (c : Config T P) (k : Kernel T P) (t : T) (r : Request T) :
    Except (Kernel T P × Ret) Unit :=
  match getsiz (k.tcb t).dend with
  | .error e => .error (k, .err e)
  | .ok e =>
    if 16 < e then .error (k, .err .nomem)
    else if c.sys (k.tcb t).pcb && !r.sub then .error (k, .carry)
    else if !r.ctx then .error (k.tfree c t r.grant, .carry)
    else .ok ()

/-- `trq6`: queue `t` to its partition and assign that to the next task. -/
def trq6 (c : Config T P) (k : Kernel T P) (t : T) (g : List T) : Kernel T P :=
  (k.qpar t).asntp c (k.tcb t).pcb g

/-- `$LDGO` when the task is not being aborted: start execution, or just note that a fixed
task is in memory now. -/
def ldgo2 (k : Kernel T P) (t : T) : Kernel T P :=
  k.setTcb t { k.tcb t with out := false, ldr := false, abo := false }

/-- `trq4`: a fixed task is requested, which is in memory already or will be when the load
request in progress ends. -/
def trq4 (k : Kernel T P) (t : T) : Kernel T P :=
  let k := k.setTcb t { k.tcb t with act := true, abo := false }
  if (k.tcb t).out then k else k.ldgo2 t

/-- `TRQST2` from `trq3` on. -/
def trq3 (c : Config T P) (k : Kernel T P) (t : T) (r : Request T) : Kernel T P × Ret :=
  if !r.dev then (k, .carry)
  else if (k.tcb t).fix then (k.trq4 t, .ok)
  else
    match k.room c t r with
    | .error e => e
    | .ok _ =>
      ((k.setTcb t { k.tcb t with act := true, out := true, ldr := false, abo := false }).trq6
        c t r.grant, .ok)

/-- `TRQST2`: start an installed task. -/
def trqst2 (c : Config T P) (k : Kernel T P) (t : T) (r : Request T) : Kernel T P × Ret :=
  if (k.tcb t).act then (k, if (k.tcb t).cli || (k.tcb t).acp then .ok else .err .trun)
  else (k.setTcb t { k.tcb t with pri := (k.tcb t).dpri, ioc := 0 }).trq3 c t r

/-- `TRQST`: `TRQST2` for a task of the directory. -/
def trqst (c : Config T P) (k : Kernel T P) (t : T) (r : Request T) : Kernel T P × Ret :=
  if !k.tlist t then (k, .err .tnf) else k.trqst2 c t r

/-- `FIX`. -/
def fix (c : Config T P) (k : Kernel T P) (t : T) (r : Request T) : Kernel T P × Ret :=
  match k.room c t r with
  | .error e => e
  | .ok _ =>
    ((k.setTcb t { k.tcb t with out := true, ldr := false, abo := false, fix := true }).trq6
      c t r.grant, .ok)

/-- `$FIXTK`: fix `t` in memory. -/
def fixtk (c : Config T P) (k : Kernel T P) (t : T) (r : Request T) : Kernel T P × Ret :=
  if !k.tlist t then (k, .err .tnf)
  else if (k.tcb t).act then (k, .err .tact)
  else if (k.tcb t).fix then (k, .err .tfix)
  else k.fix c t r

/-- `UNFIX`: remove `t` from memory. -/
def unfix (c : Config T P) (k : Kernel T P) (t : T) (g : List T) : Kernel T P × Ret :=
  let b := k.tcb t
  if !b.fix then (k, .err .tnfix)
  else ((k.setTcb t { b with fix := false }).tfree c t g, .ok)

/-- `$UNFTK`. -/
def unftk (c : Config T P) (k : Kernel T P) (t : T) (g : List T) : Kernel T P × Ret :=
  if !k.tlist t then (k, .err .tnf)
  else if (k.tcb t).act then (k, .err .tact)
  else k.unfix c t g

/-- `$REMTK`: remove `t` from the directory. -/
def remtk (c : Config T P) (k : Kernel T P) (t : T) (g : List T) : Kernel T P × Ret :=
  if !k.tlist t then (k, .err .tnf)
  else if (k.tcb t).act then (k, .err .tact)
  else ({ (k.unfix c t g).1 with tlist := Function.update (k.unfix c t g).1.tlist t false }, .ok)

/-! ## The end of a task -/

/-- `QTKTN`, as far as `TKTN` is requested for the message about an aborted task. -/
def qtktn (c : Config T P) (k : Kernel T P) (v : KillEnv T) : Kernel T P :=
  match c.tktn with
  | none => k
  | some u => if !k.tlist u || !v.msg then k else (k.trqst2 c u v.req).1

/-- `TKILL2` up to `tk0`: a task with `TA.REM` leaves the directory. -/
def unlist (k : Kernel T P) (t : T) : Kernel T P :=
  if (k.tcb t).rem then
    { k with tlist := Function.update k.tlist t false }.setTcb t { k.tcb t with fix := false }
  else k

/-- `TKILL2` from `tk3` on: the memory of a task that is not fixed is released. -/
def tk3 (c : Config T P) (k : Kernel T P) (t : T) (g : List T) : Kernel T P :=
  if (k.tcb t).fix then k
  else
    let k := k.tfree c t g
    k.setTcb t { k.tcb t with out := false }

/-- `TKILL2` from `tk0` on. A task is in the active list if it is active. -/
def tk0 (c : Config T P) (k : Kernel T P) (t : T) (v : KillEnv T) : Kernel T P × Ret :=
  if !(k.tcb t).act then (k, .err .tnf)
  else
    let k' := k.setTcb t { k.tcb t with act := false }
    ((if (k.tcb t).svst = 0 then k' else k'.qtktn c v).tk3 c t v.grant, .ok)

/-- `TKILL2`: the end of a task. -/
def tkill2 (c : Config T P) (k : Kernel T P) (t : T) (v : KillEnv T) : Kernel T P × Ret :=
  if (k.tcb t).rem ∧ !k.tlist t then (k, .err .tnf) else (k.unlist t).tk0 c t v

/-- `TKILL` from `tk5` on: a task with I/O outstanding is left to the end of its I/O. -/
def tk5 (c : Config T P) (k : Kernel T P) (t : T) (v : KillEnv T) : Kernel T P × Ret :=
  if (k.tcb t).ioc ≠ 0 then (k, .ok) else k.tkill2 c t v

/-- `TKILL` from `tk6` on: a task out of memory is taken off the list it is on; one that
is being loaded is left to the loader. -/
def tk6 (c : Config T P) (k : Kernel T P) (t : T) (v : KillEnv T) : Kernel T P × Ret :=
  let b := k.tcb t
  if !b.out then k.tk5 c t v
  else
    match k.unltcb (.wait b.pcb) t with
    | some k => k.tk5 c t v
    | none =>
      match k.unltcb .ldr t with
      | some k => k.tk5 c t v
      | none => if b.ldr then k.tk5 c t v else (k, .ok)

/-- `TKILL`: abort task `t` for reason `e`; with 0 it exits. -/
def tkill (c : Config T P) (k : Kernel T P) (t : T) (e : ℕ) (v : KillEnv T) :
    Kernel T P × Ret :=
  let b := k.tcb t
  if c.mcrtcb = some t ∨ c.ldrtcb = t then (k, .err .badop)
  else if !b.act then (k, .err .tnac)
  else if b.abo then (k, .err .tabo)
  else (k.setTcb t { b with svst := v.oio ||| e, abo := true, ioc := v.ioc }).tk6 c t v

/-- `SETFRE`: the end of an I/O request of `t`, and of the task if it was waiting for
that. -/
def setfre (c : Config T P) (k : Kernel T P) (t : T) (v : KillEnv T) : Kernel T P :=
  let b := { k.tcb t with ioc := (k.tcb t).ioc - 1 }
  let k := k.setTcb t b
  if b.ioc = 0 ∧ b.abo then (k.tkill2 c t v).1 else k

/-! ## The loader -/

/-- The loader takes the first task off its queue. -/
def next (k : Kernel T P) : Kernel T P :=
  match k.loading, k.lnk (.head .ldr) with
  | none, some t => { k with lnk := k.lnk.unlink (.head .ldr) t, loading := some t }
  | _, _ => k

/-- `$LDGO`, called by the loader: `t` is in memory. -/
def ldgo (c : Config T P) (k : Kernel T P) (t : T) (v : KillEnv T) : Kernel T P :=
  if (k.tcb t).abo then (k.tkill2 c t v).1 else k.ldgo2 t

/-- The end of `TLOAD`, without error. -/
def ldend (c : Config T P) (k : Kernel T P) (v : KillEnv T) : Kernel T P :=
  match k.loading with
  | none => k
  | some t => { k with loading := none }.ldgo c t v

/-- `lderr` of `TLOAD`: abort the task that could not be loaded. -/
def lderr (c : Config T P) (k : Kernel T P) (e : ℕ) (v : KillEnv T) : Kernel T P :=
  match k.loading with
  | none => k
  | some t =>
    (({ k with loading := none }.setTcb t { k.tcb t with ldr := true }).tkill c t e v).1

/-! ## Priority -/

/-- `ALTPRI`, as far as the lists linked through `T.LNK` depend on it. -/
def altpri (k : Kernel T P) (t : T) (e : ℕ) (inst : Bool) : Kernel T P :=
  let b := k.tcb t
  let e := if e = 0 then b.dpri else e
  if inst then if !k.tlist t then k else k.setTcb t { b with pri := e, dpri := e }
  else if b.act then k.setTcb t { b with pri := e }
  else k

end Lists

end Kernel

end RSX280.Pars
