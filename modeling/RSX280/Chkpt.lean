import RSX280.Pars
import RSX280.Queue
import RSX280.Subpars

/-!
# Checkpointing (`pars.mac`, `tskmgr.mac`, `qio.mac`)

A task waits in the list `P.WAIT` of its partition, is assigned memory by `$ASNTP` and
loaded by the loader. When a task of higher priority needs the memory, or the task needs
more of it, `$CHKPT` has the loader write it to a checkpoint file; `$LDCKW` then releases
its memory and lets it wait again, and when it has memory the loader reads it back.
`ALLCS` and `FREECS` allocate and free the space in the checkpoint files, and `EXTTSK`
changes the size of a task, in place, by moving it, or by checkpointing it.

The lists are those of `Pars`, kept as Lean lists, and the memory of a partition is that of
`Subpars`; the control block of the subpartition of a task is named by the task. Fixing
and removing tasks is left out. Four things come from outside: which tasks `MKSPC` selects
to be checkpointed, which tasks are stopped or debugged, which I/O requests `IOKILL` can
delete, and whether there is pool. `RQSHF`, which requests the shuffler, is a request of
its own.
-/

namespace RSX280.Chkpt

open Queue Subpars
open Sched (Ret)
open Pars (getsiz ea2pg)

universe u v w

/-! ## Control blocks -/

/-- The control block of a task. -/
structure Tcb (P : Type v) extends Pars.Tcb P where
  /-- `TA.CKD`: checkpointing disabled -/
  ckd : Bool := false
  /-- `TS.CKR`: checkpoint requested -/
  ckr : Bool := false
  /-- `T2.CKP`: checkpointed, or about to be -/
  ckp : Bool := false
  /-- `T.END`: end address -/
  fin : ℕ := 0
  /-- `T.CPCB`: its checkpoint control block -/
  cpcb : Option ℕ := none
  deriving DecidableEq, Repr

/-- What does not change while the system runs. -/
structure Config (T : Type u) (F : Type w) where
  /-- `LDRTCB`, the loader -/
  ldrtcb : T
  /-- `MCRTCB` -/
  mcrtcb : Option T
  /-- the task `TKTN`, which reports aborted tasks -/
  tktn : Option T
  /-- `$CPLST`: the checkpoint files -/
  cplst : List F

/-- An assignment of a partition: the priority of the task it goes to, and those of the
tasks that were waiting for it, could run and would have fitted. -/
structure Grant where
  pri : ℕ
  fit : List ℕ
  deriving DecidableEq, Repr

/-- The tasks, the partitions and the checkpoint files. The last three fields are history:
nothing reads them. -/
structure Kernel (T : Type u) (P : Type v) (F : Type w) where
  tcb : T → Tcb P
  /-- is the task in the directory `$TLIST`? -/
  tlist : T → Bool
  main : P → Main T
  /-- `PS.BSY` of a partition that is not system-controlled -/
  bsy : P → Bool
  /-- `P.TCB`: the task such a partition is assigned to -/
  own : P → Option T
  /-- `P.WAIT` -/
  wait : P → List T
  /-- `T.RCVL` of the loader -/
  ldq : List T
  /-- the task the loader has taken off its queue -/
  loading : Option T
  /-- the checkpoint files; their ranges are named by when they were allocated -/
  file : F → Main ℕ
  /-- `P.REL` of a file tells that it is being discontinued -/
  off : F → Bool
  /-- `P.MAIN` of a checkpoint control block -/
  home : ℕ → Option F
  /-- how many checkpoint control blocks have been allocated -/
  count : ℕ
  /-- the I/O requests of a task that are not done yet; each has the base and the size that
  its region had when it was queued -/
  io : T → List (ℕ × ℕ)
  /-- the calls of `FREECS`: with which control block -/
  freed : List (Option ℕ)
  /-- the assignments of partitions -/
  given : P → List Grant

/-- What is outside: which tasks have a debugger attached and which are stopped for some
other reason than being out of memory, and which tasks `MKSPC` selects to make space for
one, each with the answer to whether there is pool for a control block. -/
structure Look (T : Type u) where
  xdt : T → Bool
  blk : T → Bool
  spc : T → List (T × Bool)

/-- The answers to a request: is there a terminal, pool for a subpartition, pool for a
context block? -/
structure Request (T : Type u) where
  dev : Bool
  sub : Bool
  ctx : Bool
  look : Look T

/-- The answers to the end of a task: the outstanding I/O bit of `IOKILL`, the requests it
leaves, whether there is pool for the message to `TKTN` and how its request ends. -/
structure KillEnv (T : Type u) where
  oio : ℕ
  rest : List (ℕ × ℕ)
  msg : Bool
  req : Request T
  look : Look T

/-- `CKPGAP`: the first gap of `n` blocks in a checkpoint file. -/
def ckpgap (m : Main ℕ) (n : ℕ) : Option (List ℕ × ℕ × List ℕ) :=
  if m.sub = [] then if m.size < n then none else some ([], 0, [])
  else gap1 m.pcb n (fun e => sub16 m.size e) 0 m.sub

namespace Kernel

variable {T : Type u} {P : Type v} {F : Type w} [DecidableEq T] [DecidableEq P] [DecidableEq F]

/-- Store a control block. -/
def setTcb (k : Kernel T P F) (t : T) (b : Tcb P) : Kernel T P F :=
  { k with tcb := Function.update k.tcb t b }

/-- Store a partition. -/
def setMain (k : Kernel T P F) (p : P) (m : Main T) : Kernel T P F :=
  { k with main := Function.update k.main p m }

/-- The base and the size of the partition `T.PCB` leads to: the subpartition of `t`, or the
whole partition. -/
def region (k : Kernel T P F) (t : T) : ℕ × ℕ :=
  let m := k.main (k.tcb t).pcb
  if m.sys then ((m.pcb t).base, (m.pcb t).size) else (m.base, m.size)

/-- Set `P.SIZE` of the partition `T.PCB` leads to. -/
def resize (k : Kernel T P F) (t : T) (n : ℕ) : Kernel T P F :=
  let m := k.main (k.tcb t).pcb
  k.setMain (k.tcb t).pcb
    (if m.sys then { m with pcb := Function.update m.pcb t { m.pcb t with size := n } }
    else { m with size := n })

/-- `QLDR`: queue `t` to the loader. -/
def qldr (k : Kernel T P F) (t : T) : Kernel T P F :=
  { k with ldq := enqueue (fun u => (k.tcb u).pri) t k.ldq }

/-- `QPAR`: queue `t` to the wait list of its partition. -/
def qpar (k : Kernel T P F) (t : T) : Kernel T P F :=
  let p := (k.tcb t).pcb
  { k with wait := Function.update k.wait p (enqueue (fun u => (k.tcb u).pri) t (k.wait p)) }

/-! ## Checkpoint space -/

/-- `acs1` of `ALLCS`: the first file with a gap of `n` blocks. -/
def acs1 (k : Kernel T P F) (n : ℕ) : List F → Option (F × List ℕ × ℕ × List ℕ)
  | [] => none
  | f :: l =>
    if k.off f then k.acs1 n l
    else
      match ckpgap (k.file f) n with
      | none => k.acs1 n l
      | some g => some (f, g)

/-- `ALLCS`: allocate `n` blocks; `pool` tells whether there is pool for the control block. -/
def allcs (c : Config T F) (k : Kernel T P F) (n : ℕ) (pool : Bool) :
    Except Ret (Kernel T P F × ℕ) :=
  match k.acs1 n c.cplst with
  | none => .error (.err .nomem)
  | some (f, l₁, rel, l₂) =>
    if !pool then .error .carry
    else
      let m := k.file f
      let m := { m with pcb := Function.update m.pcb k.count ⟨rel, n, false⟩ }
      .ok ({ k with
        file := Function.update k.file f (m.lnkpcb l₁ k.count l₂)
        home := Function.update k.home k.count (some f)
        count := k.count + 1 }, k.count)

/-- `FREECS`, without a control block if the pointer to it is null. -/
def freecs (k : Kernel T P F) (i : Option ℕ) : Kernel T P F :=
  let k := { k with freed := k.freed ++ [i] }
  match i with
  | none => k
  | some i =>
    match k.home i with
    | none => k
    | some f =>
      match (k.file f).unlpcb i with
      | none => k
      | some (l₁, l₂) =>
        { k with file := Function.update k.file f { k.file f with sub := l₁ ++ l₂ } }

/-- Clear `T.CPCB` and free what it points to. -/
def frecpcb (k : Kernel T P F) (t : T) : Kernel T P F :=
  (k.setTcb t { k.tcb t with cpcb := none }).freecs (k.tcb t).cpcb

/-- `$CHKPT`: initiate the checkpoint of `t`; `x` tells whether a debugger is attached. -/
def chkpt (c : Config T F) (k : Kernel T P F) (t : T) (x pool : Bool) : Kernel T P F × Ret :=
  let b := k.tcb t
  if b.ckp || b.fix || b.ckd || b.abo || b.out || x then (k, .err .badop)
  else if b.ioc ≠ 0 then (k.setTcb t { b with ckr := true }, .ok)
  else
    match k.allcs c ((k.region t).2 * 8 % 65536) pool with
    | .error e => (k, e)
    | .ok (k, i) =>
      ((k.setTcb t { b with cpcb := some i, ckp := true, ckr := false }).qldr t, .ok)

/-! ## Assigning a partition -/

/-- `MKSPC` for task `t`, which waits for partition `p`: the tasks selected have memory
there. -/
def mkspc (c : Config T F) (v : Look T) (p : P) (k : Kernel T P F) (t : T) : Kernel T P F :=
  (v.spc t).foldl
    (fun k a => if a.1 ∈ (k.main p).sub then (k.chkpt c a.1 (v.xdt a.1) a.2).1 else k) k

/-- `ps4` of `$ASNTP`: could the task run if it were in memory? -/
def runnable (v : Look T) (k : Kernel T P F) (t : T) : Bool :=
  v.xdt t || !((k.tcb t).ldr || (k.tcb t).abo || v.blk t)

/-- Register E for `MALLOC`: the low byte of `P.SIZE`. -/
def pages (k : Kernel T P F) (p : P) (t : T) : ℕ := ((k.main p).pcb t).size % 256

/-- The priorities of the tasks waiting for partition `p` that could run there now. -/
def fit (v : Look T) (k : Kernel T P F) (p : P) : List ℕ :=
  ((k.wait p).filter fun t =>
    k.runnable v t && ((k.main p).fndgap (k.pages p t)).isSome).map fun t => (k.tcb t).pri

/-- `ps41` of `$ASNTP`, when `MALLOC` has found memory for `t` in partition `p`, which is
`m` then. -/
def grant (v : Look T) (p : P) (k : Kernel T P F) (t : T) (m : Main T) : Kernel T P F :=
  { k.setMain p m with
    wait := Function.update k.wait p ((k.wait p).erase t)
    given := Function.update k.given p
      (k.given p ++ [Grant.mk (k.tcb t).pri (k.fit v p)]) }.qldr t

/-- One scan of the wait list by `$ASNTP`, from `ps31` on, or from `ps5` on with the class
`TPRI`. It stops when it has assigned memory to a task, or at the end of the class. -/
def scan (c : Config T F) (v : Look T) (p : P) :
    List T → Option ℕ → Kernel T P F → Kernel T P F × Bool
  | [], _, k => (k, false)
  | t :: l, tpri, k =>
    if tpri.any (· ≠ (k.tcb t).pri) then (k, false)
    else if !k.runnable v t then scan c v p l none k
    else
      match (k.main p).malloc t (k.pages p t) with
      | (m, .ok) => (k.grant v p t m, true)
      | _ => scan c v p l (some (k.tcb t).pri) (k.mkspc c v p t)

/-- `ps2` of `$ASNTP`: scan the wait list again after each assignment, `n` times at most. -/
def ps2 (c : Config T F) (v : Look T) (p : P) : ℕ → Kernel T P F → Kernel T P F
  | 0, k => k
  | n + 1, k =>
    match k.scan c v p (k.wait p) none with
    | (k, true) => ps2 c v p n k
    | (k, false) => k

/-- `$ASNTP` for a partition that is not system-controlled: `t`, the first task of its wait
list, gets it. -/
def assign (k : Kernel T P F) (p : P) (t : T) : Kernel T P F :=
  { k with
    bsy := Function.update k.bsy p true
    own := Function.update k.own p (some t)
    wait := Function.update k.wait p ((k.wait p).erase t)
    given := Function.update k.given p
      (k.given p ++ [Grant.mk (k.tcb t).pri ((k.wait p).map fun u => (k.tcb u).pri)]) }.qldr t

/-- `$ASNTP`: assign partition `p` to the next waiting task. -/
def asntp (c : Config T F) (v : Look T) (k : Kernel T P F) (p : P) : Kernel T P F :=
  if (k.main p).sys then k.ps2 c v p (k.wait p).length
  else if k.bsy p then k
  else
    match k.wait p with
    | [] => k
    | t :: _ => k.assign p t

/-- `MFREE` with the partition `T.PCB` leads to. The main partition is in no list. -/
def mfree (k : Kernel T P F) (t : T) : Kernel T P F :=
  let p := (k.tcb t).pcb
  if (k.main p).sys then k.setMain p ((k.main p).mfree t).1
  else { k with bsy := Function.update k.bsy p false }

/-- `TFREE`: release the memory of `t`. -/
def tfree (c : Config T F) (k : Kernel T P F) (t : T) (v : Look T) : Kernel T P F :=
  (k.mfree t).asntp c v (k.tcb t).pcb

/-! ## Request -/

/-- `GETSIZ`, `TALLOC` and `NEWCTX` for `t`, `trqe` when the last one fails. -/
def room (c : Config T F) (k : Kernel T P F) (t : T) (r : Request T) :
    Except (Kernel T P F × Ret) (Kernel T P F) :=
  let p := (k.tcb t).pcb
  match getsiz (k.tcb t).dend with
  | .error e => .error (k, .err e)
  | .ok e =>
    if 16 < e then .error (k, .err .nomem)
    else if (k.main p).sys && !r.sub then .error (k, .carry)
    else
      let k := if (k.main p).sys then k.resize t e else k
      if !r.ctx then .error (k.tfree c t r.look, .carry) else .ok k

/-- `trq6`: queue `t` to its partition and assign that to the next task. -/
def trq6 (c : Config T F) (k : Kernel T P F) (t : T) (v : Look T) : Kernel T P F :=
  (k.qpar t).asntp c v (k.tcb t).pcb

/-- `$LDGO` when the task is not being aborted. -/
def ldgo2 (k : Kernel T P F) (t : T) : Kernel T P F :=
  k.setTcb t { k.tcb t with out := false, ckp := false, ldr := false, abo := false }

/-- `trq4`: a fixed task is requested, which is in memory already or will be when the load
request in progress ends. -/
def trq4 (k : Kernel T P F) (t : T) : Kernel T P F :=
  let k := k.setTcb t { k.tcb t with act := true, ckr := false, abo := false }
  if (k.tcb t).out then k else k.ldgo2 t

/-- `TRQST2` from `trq3` on. -/
def trq3 (c : Config T F) (k : Kernel T P F) (t : T) (r : Request T) : Kernel T P F × Ret :=
  if !r.dev then (k, .carry)
  else if (k.tcb t).fix then (k.trq4 t, .ok)
  else
    match k.room c t r with
    | .error e => e
    | .ok k =>
      ((k.setTcb t { k.tcb t with
        act := true, ckr := false, out := true, ckp := false, ldr := false, abo := false }).trq6
          c t r.look, .ok)

/-- `TRQST2`: start an installed task. -/
def trqst2 (c : Config T F) (k : Kernel T P F) (t : T) (r : Request T) : Kernel T P F × Ret :=
  let b := k.tcb t
  if b.act then (k, if b.cli || b.acp then .ok else .err .trun)
  else (k.setTcb t { b with pri := b.dpri, fin := b.dend, cpcb := none, ioc := 0 }).trq3 c t r

/-- `TRQST`: `TRQST2` for a task of the directory. -/
def trqst (c : Config T F) (k : Kernel T P F) (t : T) (r : Request T) : Kernel T P F × Ret :=
  if !k.tlist t then (k, .err .tnf) else k.trqst2 c t r

/-! ## The end of a task -/

/-- `QTKTN`, as far as `TKTN` is requested for the message about an aborted task. -/
def qtktn (c : Config T F) (k : Kernel T P F) (v : KillEnv T) : Kernel T P F :=
  match c.tktn with
  | none => k
  | some u => if !k.tlist u || !v.msg then k else (k.trqst2 c u v.req).1

/-- `TKILL2` up to `tk0`: a task with `TA.REM` leaves the directory. -/
def unlist (k : Kernel T P F) (t : T) : Kernel T P F :=
  if (k.tcb t).rem then
    { k with tlist := Function.update k.tlist t false }.setTcb t { k.tcb t with fix := false }
  else k

/-- `TKILL2` from `tk3` on: the memory of a task that is not fixed is released. -/
def tk3 (c : Config T F) (k : Kernel T P F) (t : T) (v : Look T) : Kernel T P F :=
  if (k.tcb t).fix then k
  else
    let k := k.tfree c t v
    k.setTcb t { k.tcb t with out := false, ckp := false }

/-- `TKILL2` from `tk0` on. A task is in the active list if it is active. -/
def tk0 (c : Config T F) (k : Kernel T P F) (t : T) (v : KillEnv T) : Kernel T P F × Ret :=
  if !(k.tcb t).act then (k, .err .tnf)
  else
    let k' := k.setTcb t { k.tcb t with act := false }
    ((if (k.tcb t).svst = 0 then k' else k'.qtktn c v).tk3 c t v.look, .ok)

/-- `TKILL2`: the end of a task. -/
def tkill2 (c : Config T F) (k : Kernel T P F) (t : T) (v : KillEnv T) : Kernel T P F × Ret :=
  if (k.tcb t).rem ∧ !k.tlist t then (k, .err .tnf) else (k.unlist t).tk0 c t v

/-- `TKILL` from `tk5` on: a task with I/O outstanding is left to the end of its I/O. -/
def tk5 (c : Config T F) (k : Kernel T P F) (t : T) (v : KillEnv T) : Kernel T P F × Ret :=
  if (k.tcb t).ioc ≠ 0 then (k, .ok) else k.tkill2 c t v

/-- `TKILL` from `tk1` on: the checkpoint space of the task is freed. -/
def tk1 (c : Config T F) (k : Kernel T P F) (t : T) (v : KillEnv T) : Kernel T P F × Ret :=
  (if (k.tcb t).ckp then k.frecpcb t else k).tk5 c t v

/-- `TKILL` from `tk6` on: a task out of memory is taken off the list it is on; one that
the loader is working on is left to the loader. -/
def tk6 (c : Config T F) (k : Kernel T P F) (t : T) (v : KillEnv T) : Kernel T P F × Ret :=
  let p := (k.tcb t).pcb
  if t ∈ k.wait p then
    { k with wait := Function.update k.wait p ((k.wait p).erase t) }.tk1 c t v
  else if t ∈ k.ldq then { k with ldq := k.ldq.erase t }.tk1 c t v
  else if (k.tcb t).ldr then k.tk1 c t v
  else (k, .ok)

/-- `TKILL`: abort task `t` for reason `e`; with 0 it exits. `T.IOC` is a byte. -/
def tkill (c : Config T F) (k : Kernel T P F) (t : T) (e : ℕ) (v : KillEnv T) :
    Kernel T P F × Ret :=
  let b := k.tcb t
  if c.mcrtcb = some t ∨ c.ldrtcb = t then (k, .err .badop)
  else if !b.act then (k, .err .tnac)
  else if b.abo then (k, .err .tabo)
  else
    let n := (k.io t).length - v.rest.length
    let k := { k with io := Function.update k.io t v.rest }.setTcb t
      { b with svst := v.oio ||| e, abo := true, ioc := (b.ioc + 256 * n - n) % 256 }
    if b.out || b.ckp then k.tk6 c t v else k.tk5 c t v

/-! ## Input and output -/

/-- `QIO`: `t` queues a request. -/
def qio (k : Kernel T P F) (t : T) : Kernel T P F :=
  { k with io := Function.update k.io t (k.io t ++ [k.region t]) }.setTcb t
    { k.tcb t with ioc := ((k.tcb t).ioc + 1) % 256 }

/-- `SETFRE`: the end of request `i` of `t`, of the task if it was waiting for that, or the
start of a checkpoint. -/
def setfre (c : Config T F) (k : Kernel T P F) (t : T) (i : ℕ) (v : KillEnv T) (x pool : Bool) :
    Kernel T P F :=
  let b := { k.tcb t with ioc := ((k.tcb t).ioc + 255) % 256 }
  let k := { k with io := Function.update k.io t ((k.io t).eraseIdx i) }.setTcb t b
  if b.ioc ≠ 0 then k
  else if b.abo then (k.tkill2 c t v).1
  else if b.ckr then (k.chkpt c t x pool).1
  else k

/-! ## The loader -/

/-- The loader takes the first task off its queue. -/
def next (k : Kernel T P F) : Kernel T P F :=
  match k.loading, k.ldq with
  | none, t :: l => { k with ldq := l, loading := some t }
  | _, _ => k

/-- `$LDGO`: `t` is in memory for the first time. -/
def ldgo (c : Config T F) (k : Kernel T P F) (t : T) (v : KillEnv T) : Kernel T P F :=
  if (k.tcb t).abo then (k.tkill2 c t v).1 else k.ldgo2 t

/-- `$LDCKR`: `t` has been read from the checkpoint file. -/
def ldckr (c : Config T F) (k : Kernel T P F) (t : T) (v : KillEnv T) : Kernel T P F :=
  let k := k.frecpcb t
  let k := k.setTcb t { k.tcb t with out := false, ckp := false }
  if (k.tcb t).abo then (k.tkill2 c t v).1 else k

/-- `$LDCKW`: `t` has been written to the checkpoint file. It will be read back with the
size `T.END` asks for. -/
def ldckw (c : Config T F) (k : Kernel T P F) (t : T) (v : KillEnv T) : Kernel T P F :=
  let b := k.tcb t
  if b.abo then ((k.frecpcb t).tkill2 c t v).1
  else (((k.setTcb t { b with out := true }).mfree t).resize t (ea2pg b.fin)).trq6 c t v.look

/-- `lderr` of `TLOAD`: abort the task that could not be loaded, read or written. -/
def lderr (c : Config T F) (k : Kernel T P F) (e : ℕ) (v : KillEnv T) : Kernel T P F :=
  match k.loading with
  | none => k
  | some t =>
    (({ k with loading := none }.setTcb t { k.tcb t with ldr := true }).tkill c t e v).1

/-- The end of `TLOAD`, without error. -/
def ldend (c : Config T F) (k : Kernel T P F) (v : KillEnv T) : Kernel T P F :=
  match k.loading with
  | none => k
  | some t =>
    let k := { k with loading := none }
    if !(k.tcb t).ckp then k.ldgo c t v
    else if (k.tcb t).out then k.ldckr c t v
    else k.ldckw c t v

/-! ## Size and priority -/

/-- `newtop` of `EXTTSK`: the new end address, for an increment `n` in units of 16 bytes, a
signed word. -/
def newtop (b : Tcb P) (n : ℕ) : Except Err ℕ :=
  if 32768 ≤ n then
    let d := 16 * (65536 - n)
    if 65536 ≤ d ∨ b.fin < d then .error .inv else .ok (b.fin - d)
  else if n = 0 then .ok b.dend
  else if 65536 ≤ 16 * n ∨ 65536 ≤ b.fin + 16 * n then .error .nomem
  else .ok (b.fin + 16 * n)

/-- `tryckp` of `EXTTSK`: have `t` checkpointed until there is memory for `e` pages, up to
the address `top`. -/
def tryckp (c : Config T F) (k : Kernel T P F) (t : T) (top e : ℕ) (x pool : Bool) :
    Kernel T P F × Ret :=
  if (k.tcb t).ioc ≠ 0 then (k, .err .badop)
  else if (k.main (k.tcb t).pcb).size < e then (k, .err .nomem)
  else
    match k.chkpt c t x pool with
    | (k, .ok) =>
      if (k.tcb t).ckp then (k.setTcb t { k.tcb t with fin := top }, .ok)
      else (k.setTcb t { k.tcb t with ckr := false }, .err .nomem)
    | (k, e) => (k, e)

/-- `EXTTSK`: change the size of `t` by `n`. -/
def exttsk (c : Config T F) (k : Kernel T P F) (t : T) (n : ℕ) (x pool : Bool) :
    Kernel T P F × Ret :=
  let b := k.tcb t
  match newtop b n with
  | .error e => (k, .err e)
  | .ok top =>
    if top < b.dend then (k, .err .badop)
    else if ea2pg top = (k.region t).2 % 256 then (k.setTcb t { b with fin := top }, .ok)
    else if 16 < ea2pg top then (k, .err .nomem)
    else if ea2pg top = 0 then (k, .err .inv)
    else
      match (k.main b.pcb).mextnd t (ea2pg top) with
      | (m, .ok) => ((k.setMain b.pcb m).setTcb t { b with fin := top }, .ok)
      | _ => k.tryckp c t top (ea2pg top) x pool

/-- `ALTPRI`, as far as the wait lists depend on it. -/
def altpri (k : Kernel T P F) (t : T) (e : ℕ) (inst : Bool) : Kernel T P F :=
  let b := k.tcb t
  let e := if e = 0 then b.dpri else e
  if inst then if !k.tlist t then k else k.setTcb t { b with pri := e, dpri := e }
  else if b.act then k.setTcb t { b with pri := e }
  else k

end Kernel

end RSX280.Chkpt
