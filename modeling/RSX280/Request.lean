import RSX280.Queue
import RSX280.Tcb

/-!
# Requesting tasks (`URQST` and `RPOI` of `sysfn.mac`)

A task requests another one by a task descriptor (TDB), with a command line, with data to send,
and with a connection: its own with `URQST`, those it has been connected by with `RPOI`. The
directives take blocks from the pool one after another, and give back what they have taken when
they fail, not always all of it. The pool is modelled by the blocks taken from it; a request that
fails leaves its free list as it was when those are the same. The AST queues are left out.
-/

namespace RSX280.Request

open Sched (Tcb.flgmsk)

universe u

variable {T : Type u} [DecidableEq T]

/-! ## Blocks and tasks -/

/-- An offspring control block. -/
structure Ocb (T : Type u) where
  /-- `O.PTCB` -/
  ptcb : T
  /-- `O.ESB` -/
  esb : ℕ
  /-- `O.FMT` -/
  fmt : ℕ
  /-- `O.EFN` -/
  efn : ℕ
  deriving DecidableEq

/-- A packet of a receive list. -/
inductive Packet (T : Type u) where
  /-- a command for a CLI: the UCB, OCBs and characters -/
  | command (ucb : ℕ) (ocbs : List (Ocb T)) (line : List UInt8)
  /-- data: `QU.PRI` and the address and size of the buffer -/
  | data (pri buf size : ℕ)
  deriving DecidableEq

/-- `QU.PRI` -/
def Packet.pri : Packet T → ℕ
  | .command .. => 200
  | .data pri _ _ => pri

/-- A block of the pool. -/
inductive Blk (T : Type u) where
  /-- a command line block -/
  | cmd (line : List UInt8)
  | ocb (o : Ocb T)
  /-- the PCB of a task's subpartition -/
  | pcb (t : T)
  /-- the context block of a task -/
  | ctx (t : T)
  | packet (p : Packet T)
  deriving DecidableEq

/-- What the directives read and write of a task control block. -/
structure Task (T : Type u) where
  /-- `TS.ACT` -/
  act : Bool
  /-- `TA.CLI` -/
  cli : Bool
  /-- `TA.ACP` -/
  acp : Bool
  /-- `TA.FIX` -/
  fix : Bool
  /-- `TA.MCR` -/
  mcr : Bool
  /-- `TA.PRV` -/
  prv : Bool
  /-- the task's main partition is system-controlled (`PA.SYS`) -/
  sys : Bool
  pri : ℕ
  dpri : ℕ
  flgs : BitVec 32
  wait : BitVec 32
  /-- `T.CMD` -/
  cmd : Option (List UInt8)
  rcvl : List (Packet T)
  ocbl : List (Ocb T)
  /-- `T.TI` -/
  ti : ℕ

structure Kern (T : Type u) where
  /-- `$CTCB` -/
  ctcb : T
  tcb : T → Task T
  /-- the blocks taken from the pool -/
  held : List (Blk T)
  /-- what has been freed without being such a block: address and size -/
  wild : List (ℕ × ℕ)
  /-- a word has been written where no list is -/
  stray : Bool
  /-- the clock queue, by addresses of packets -/
  clkq : List ℕ
  /-- `CMDPTR` -/
  cmdptr : Option (List UInt8)

/-- A request, with what is found valid in it: a descriptor in user space, and the registers for
the connection. -/
structure Req (T : Type u) where
  /-- BC: address of the exit status block, 0 for no connection -/
  esb : ℕ
  /-- D -/
  fmt : ℕ
  /-- E -/
  efn : ℕ
  esbOk : Bool
  tdbOk : Bool
  /-- `TD.SDAT` -/
  sdat : ℕ
  /-- `TD.SLEN` -/
  slen : ℕ
  sdatOk : Bool
  /-- `TD.CMD` -/
  cmd : ℕ
  /-- the `TD.CML` characters there -/
  line : List UInt8
  cmdOk : Bool
  /-- the task that `$FNTSK` finds for `TD.NAME` -/
  task : Option T
  /-- `TA.MCR` in `TD.ATTR` -/
  mcr : Bool
  /-- the UCB that `$FNDEV` finds for `TD.TI` -/
  ucb : Option ℕ
  /-- is `TD.TI` zero? -/
  noTi : Bool

/-- Which of the calls of `$ALLOC` find room, what `GETSIZ` says of the task, and what lies at the
place of `TA.ACP` where there is no task. -/
structure Room where
  cmd : Bool
  ocb : Bool
  item : Bool
  packet : Bool
  pcb : Bool
  ctx : Bool
  size : Bool
  junk : Bool

/-! ## The routines -/

namespace Kern

variable (k : Kern T) (r : Req T) (m : Room)

def setTask (t : T) (b : Task T) : Kern T := { k with tcb := Function.update k.tcb t b }

def take (b : Blk T) : Kern T := { k with held := b :: k.held }

def free (b : Blk T) : Kern T := { k with held := k.held.erase b }

/-- `FRECMD` of `CMDPTR`. -/
def frecmd : Kern T :=
  match k.cmdptr with
  | none => k
  | some l => k.free (.cmd l)

/-- `GETCMD`. The length of a command line is a byte. -/
def getcmd : Kern T × Option Err :=
  let k := { k with cmdptr := none }
  if r.cmd = 0 then (k, none)
  else if 256 ≤ r.line.length then (k, some .badop)
  else if r.line = [] then (k, none)
  else if !r.cmdOk then (k, some .inv)
  else if !m.cmd then (k, some .nomem)
  else ({ k.take (.cmd r.line) with cmdptr := some r.line }, none)

/-- `TRQST`, from `trq1` on: start a task that is not active. -/
def trq1 (t : T) : Kern T × Option Err :=
  let b := k.tcb t
  let b := { b with
    mcr := r.mcr, pri := b.dpri, flgs := 0, wait := 0, cmd := none, rcvl := [], ocbl := [] }
  let k := k.setTask t b
  match r.ucb with
  | none => (k, some .nodev)
  | some u =>
    let b := { b with ti := u }
    let k := k.setTask t b
    let b := { b with act := true }
    if b.fix then (k.setTask t b, none)
    else if !m.size then (k, some .pbig)
    else if b.sys && !m.pcb then (k, some .nomem)
    else
      let k := if b.sys then k.take (.pcb t) else k
      if !m.ctx then ((if b.sys then k.free (.pcb t) else k), some .nomem)
      else ((k.take (.ctx t)).setTask t b, none)

/-- `TRQST` of the task found. -/
def trqst (t : T) : Kern T × Option Err :=
  let b := k.tcb t
  if !b.act then k.trq1 r m t
  else if b.cli || b.acp then (k, none)
  else (k, some .trun)

/-- `NEWOCB`: the OCB, if there is no error. -/
def newocb : Kern T × Except Err (Ocb T) :=
  let o : Ocb T := ⟨k.ctcb, r.esb, r.fmt, r.efn⟩
  if !m.ocb then (k, .error .nomem)
  else
    let k := k.take (.ocb o)
    match Tcb.flgmsk r.efn with
    | none => (k.free (.ocb o), .error .badfl)
    | some msk =>
      let b := k.tcb k.ctcb
      (k.setTask k.ctcb { b with flgs := b.flgs &&& ~~~msk }, .ok o)

/-- `LNKOCB`: link the OCB behind those of the task. HL is left at the link field it goes to. -/
def lnkocb (t : T) (o : Ocb T) : Kern T :=
  k.setTask t { k.tcb t with ocbl := (k.tcb t).ocbl ++ [o] }

/-- `$CONN` -/
def conn (t : T) : Kern T × Option Err :=
  if (k.tcb t).cli then (k, some .badop)
  else if !(k.tcb t).act then (k, some .tnac)
  else
    match k.newocb r m with
    | (k, .error e) => (k, some e)
    | (k, .ok o) => (k.lnkocb t o, none)

/-- `SEND` of a packet that has been taken from the pool, and its return to the pool if the
receiver is not active: it is linked before that is found out. -/
def send (t : T) (p : Packet T) : Kern T × Option Err :=
  let b := k.tcb t
  let k := k.setTask t { b with rcvl := Queue.enqueue Packet.pri p b.rcvl }
  if b.act then (k, none) else (k.free (.packet p), some .tnf)

/-- `USEND1`, with the receiver in HL if that is a task. Elsewhere, the packet is linked to
whatever lies at the place of `T.RCVL`. -/
def usend1 (hl : Option T) : Kern T × Option Err :=
  let p : Packet T := .data (k.tcb k.ctcb).pri r.sdat r.slen
  match hl with
  | none =>
    if m.junk then (k, some .badop)
    else if !m.packet then (k, some .nomem)
    else ({ k with stray := true }, some .tnf)
  | some t =>
    if (k.tcb t).acp then (k, some .badop)
    else if !m.packet then (k, some .nomem)
    else (k.take (.packet p)).send t p

/-- `rq1` of `URQST`: send the data, if any. -/
def rq1 (hl : Option T) : Kern T × Option Err :=
  if r.sdat = 0 ∨ r.slen = 0 then (k, none) else k.usend1 r m hl

/-- `QCLI`, with `QMCR1`: send the command line to CLI `t`, with OCBs, and free its block. -/
def qcli (t : T) (ocbs : List (Ocb T)) : Kern T × Option Err :=
  let b := k.tcb k.ctcb
  let ucb := if !r.noTi && b.prv then r.ucb.getD b.ti else b.ti
  let p : Packet T := .command ucb ocbs (k.cmdptr.getD [])
  if !m.item then (k.frecmd, some .nomem)
  else
    let s := (k.take (.packet p)).send t p
    (s.1.frecmd, s.2)

/-- `OCBSZ` -/
def OCBSZ : ℕ := 8

/-- `rqcli` of `URQST`: a command for a CLI. When that cannot be sent, `rq4` frees an OCB whether
there is one or not. -/
def rqcli (t : T) : Kern T × Option Err :=
  if r.esb = 0 then
    match k.qcli r m t [] with
    | (k, none) => (k, none)
    | (k, some e) => ({ k with wild := (0, OCBSZ) :: k.wild }, some e)
  else
    match k.newocb r m with
    | (k, .error e) => (k, some e)
    | (k, .ok o) =>
      match k.qcli r m t [o] with
      | (k, none) => (k, none)
      | (k, some e) => (k.free (.ocb o), some e)

/-- `URQST` of a task that is no CLI: its command line is linked to it, and it is connected. HL is
the link field of the OCB then. -/
def rqtsk (t : T) : Kern T × Option Err :=
  let k := k.setTask t { k.tcb t with cmd := k.cmdptr }
  if r.esb = 0 then k.rq1 r m (some t)
  else
    match k.conn r m t with
    | (k, some e) => (k, some e)
    | (k, none) => k.rq1 r m none

/-- `VALSD` -/
def valsd : Bool := r.sdat = 0 || r.slen = 0 || r.sdatOk

/-- `GETCMD` and `TRQST`: the task that has been requested. -/
def request : Kern T × Except Err T :=
  match k.getcmd r m with
  | (k, some e) => (k.frecmd, .error e)
  | (k, none) =>
    match r.task with
    | none => (k.frecmd, .error .tnf)
    | some t =>
      match k.trqst r m t with
      | (k, some e) => (k.frecmd, .error e)
      | (k, none) => (k, .ok t)

/-- `URQST` -/
def urqst : Kern T × Option Err :=
  if r.esb ≠ 0 ∧ !r.esbOk then (k, some .inv)
  else if !r.tdbOk then (k, some .inv)
  else if !valsd r then (k, some .inv)
  else
    match k.request r m with
    | (k, .error e) => (k, some e)
    | (k, .ok t) =>
      if (k.tcb t).cli then k.rqcli r m t else k.rqtsk r m t

/-- `rpcli` of `RPOI`: a command for a CLI, with the OCBs of the parent. They are linked to the
parent again when it cannot be sent. -/
def rpcli (t : T) : Kern T × Option Err :=
  let ocbs := (k.tcb k.ctcb).ocbl
  match (k.setTask k.ctcb { k.tcb k.ctcb with ocbl := [] }).qcli r m t ocbs with
  | (k, none) => (k, none)
  | (k, some e) => (k.setTask k.ctcb { k.tcb k.ctcb with ocbl := ocbs }, some e)

/-- `RPOI` of a task that is no CLI: it gets the command line and the OCBs of the parent. -/
def rptsk (t : T) : Kern T × Option Err :=
  let k := k.setTask t { k.tcb t with cmd := k.cmdptr }
  let k := k.setTask t { k.tcb t with ocbl := (k.tcb k.ctcb).ocbl }
  let k := k.setTask k.ctcb { k.tcb k.ctcb with ocbl := [] }
  let k := k.setTask t { k.tcb t with mcr := (k.tcb t).mcr || (k.tcb k.ctcb).mcr }
  k.rq1 r m (some t)

/-- `RPOI` -/
def rpoi : Kern T × Option Err :=
  if !r.tdbOk then (k, some .inv)
  else if !valsd r then (k, some .inv)
  else
    match k.request r m with
    | (k, .error e) => (k, some e)
    | (k, .ok t) => if (k.tcb t).cli then k.rpcli r m t else k.rptsk r m t

end Kern

/-! ## What is asked for -/

/-- The command line, if one is given. -/
def Req.text (r : Req T) : Option (List UInt8) := if r.cmd = 0 ∨ r.line = [] then none else some r.line

/-- An OCB of the pool. -/
def Blk.isOcb : Blk T → Bool
  | .ocb _ => true
  | _ => false

/-- What a failed request leaves: the pool, the receive and OCB lists of the tasks and the clock
queue as they were. -/
structure Same (k k' : Kern T) : Prop where
  held : k'.held.Perm k.held
  wild : k'.wild = k.wild
  stray : k'.stray = k.stray
  rcvl : ∀ x, (k'.tcb x).rcvl = (k.tcb x).rcvl
  ocbl : ∀ x, (k'.tcb x).ocbl = (k.tcb x).ocbl
  clkq : k'.clkq = k.clkq

/-- The lists of a task when it has been requested: a task started by that has none. -/
def Kern.base (k : Kern T) (t x : T) : Task T :=
  if x = t ∧ !(k.tcb t).act then { k.tcb x with cmd := none, rcvl := [], ocbl := [] } else k.tcb x

/-- What a request leaves behind at task `t`: one command, in the receive list of a CLI with the
OCBs `passed`, in `T.CMD` elsewhere, with data or without; no command and no packet for anybody
else; `news` of OCBs, one at most, and the OCB lists `ocbl`. -/
structure Queued (k k' : Kern T) (r : Req T) (t : T) (news passed : List (Ocb T))
    (ocbl : T → List (Ocb T)) : Prop where
  few : news.length ≤ 1
  created : (k'.held.filter Blk.isOcb).Perm (news.map .ocb ++ k.held.filter Blk.isOcb)
  cli : (k.tcb t).cli → (k'.tcb t).cmd = (k.base t t).cmd ∧
    ∃ u, (k'.tcb t).rcvl =
      Queue.enqueue Packet.pri (.command u passed (r.text.getD [])) (k.base t t).rcvl
  task : !(k.tcb t).cli → (k'.tcb t).cmd = r.text ∧
    ((k'.tcb t).rcvl = (k.base t t).rcvl ∨ ∃ pri, (k'.tcb t).rcvl =
      Queue.enqueue Packet.pri (.data pri r.sdat r.slen) (k.base t t).rcvl)
  others : ∀ x, x ≠ t → (k'.tcb x).cmd = (k.tcb x).cmd ∧ (k'.tcb x).rcvl = (k.tcb x).rcvl
  ocbl : ∀ x, (k'.tcb x).ocbl = ocbl x
  wild : k'.wild = k.wild
  stray : k'.stray = k.stray
  clkq : k'.clkq = k.clkq

/-- `URQST`: the OCB is linked to the task, or goes to the CLI with its command. -/
def MeetsU (k : Kern T) (r : Req T) (e : Kern T × Option Err) : Prop :=
  (e.2 ≠ none → Same k e.1) ∧
  (e.2 = none → ∃ t news, r.task = some t ∧ Queued k e.1 r t news news fun x =>
    if x = t ∧ !(k.tcb t).cli then (k.base t x).ocbl ++ news else (k.base t x).ocbl)

/-- `RPOI`: the OCBs of the parent go to the task or the CLI. -/
def MeetsR (k : Kern T) (r : Req T) (e : Kern T × Option Err) : Prop :=
  (e.2 ≠ none → Same k e.1) ∧
  (e.2 = none → ∃ t, r.task = some t ∧ Queued k e.1 r t [] (k.base t k.ctcb).ocbl fun x =>
    if x = k.ctcb then []
    else if x = t ∧ !(k.tcb t).cli then (k.base t k.ctcb).ocbl else (k.base t x).ocbl)

/-! ## When it is done -/

/-- The command line is one that can be had: not too long, and if there is one, in the memory of
the task and with a block for it. -/
def Req.Reads (r : Req T) (m : Room) : Prop :=
  r.cmd = 0 ∨ r.line.length < 256 ∧ (r.line = [] ∨ r.cmdOk ∧ m.cmd)

/-- The task can be started, or is a CLI or ACP that runs. -/
def Kern.Starts (k : Kern T) (r : Req T) (m : Room) (t : T) : Prop :=
  if (k.tcb t).act then (k.tcb t).cli ∨ (k.tcb t).acp
  else r.ucb.isSome ∧ ((k.tcb t).fix ∨ m.size ∧ ((k.tcb t).sys → m.pcb) ∧ m.ctx)

/-- A task that is not active has nothing in its lists. -/
def Kern.Idle (k : Kern T) (t : T) : Prop :=
  (k.tcb t).act ∨ (k.tcb t).rcvl = [] ∧ (k.tcb t).ocbl = []

/-- Requesting the task takes no memory: it runs, or is fixed. -/
def Kern.Resident (k : Kern T) (t : T) : Prop := ((k.tcb t).act ∨ (k.tcb t).fix) ∧ k.Idle t

/-- There is an OCB for the connection, and its flag is one. -/
def Req.Connects (r : Req T) (m : Room) : Prop := m.ocb ∧ 1 ≤ r.efn ∧ r.efn ≤ 32

/-- There are data to send. -/
def Req.Sends (r : Req T) : Prop := r.sdat ≠ 0 ∧ r.slen ≠ 0

instance (r : Req T) (m : Room) : Decidable (r.Reads m) := by unfold Req.Reads; infer_instance
instance (k : Kern T) (r : Req T) (m : Room) (t : T) : Decidable (k.Starts r m t) := by
  unfold Kern.Starts; infer_instance
instance (r : Req T) (m : Room) : Decidable (r.Connects m) := by
  unfold Req.Connects; infer_instance
instance (r : Req T) : Decidable r.Sends := by unfold Req.Sends; infer_instance

/-- When `URQST` does what is asked for at a CLI. -/
def CleanCli (k : Kern T) (r : Req T) (m : Room) (t : T) : Prop :=
  if r.esb = 0 then m.item = true
  else if r.Connects m then m.item ∨ k.Resident t
  else r.text = none ∧ k.Resident t

/-- When it does at another task. -/
def CleanTsk (k : Kern T) (r : Req T) (m : Room) (t : T) : Prop :=
  if r.esb = 0 then ¬r.Sends ∨ !(k.tcb t).acp ∧ m.packet ∨ r.text = none ∧ k.Resident t
  else if r.Connects m then ¬r.Sends
  else r.text = none ∧ k.Resident t

/-- When `URQST` does what is asked for: a task that cannot be started has no lists to lose, and
one that is started gets what it is sent. -/
def CleanU (k : Kern T) (r : Req T) (m : Room) : Prop :=
  (r.esb ≠ 0 → r.esbOk) ∧ r.tdbOk ∧ Kern.valsd r ∧ r.Reads m → ∀ t, r.task = some t →
    if ¬k.Starts r m t then k.Idle t
    else if (k.tcb t).cli then CleanCli k r m t
    else CleanTsk k r m t

/-- When `RPOI` does. -/
def CleanR (k : Kern T) (r : Req T) (m : Room) : Prop :=
  r.tdbOk ∧ Kern.valsd r ∧ r.Reads m → ∀ t, r.task = some t →
    if ¬k.Starts r m t then k.Idle t
    else if (k.tcb t).cli then m.item = true ∨ k.Resident t
    else ¬r.Sends ∨ !(k.tcb t).acp ∧ m.packet ∨
      r.text = none ∧ k.Resident t ∧ (k.tcb k.ctcb).ocbl = [] ∧ (k.tcb t).ocbl = []

/-! ## The task requested -/

/-- The blocks that starting a task takes. -/
def Kern.grown (k : Kern T) (t : T) : List (Blk T) :=
  if (k.tcb t).act ∨ (k.tcb t).fix then []
  else if (k.tcb t).sys then [.ctx t, .pcb t] else [.ctx t]

/-- The block of the command line. -/
def Req.block (r : Req T) : List (Blk T) := (r.text.map Blk.cmd).toList

/-- How far a request for `t` has come: the blocks it holds besides those of a started task, and
the command lines, receive lists and OCB lists of the tasks. -/
structure Stage (k k' : Kern T) (r : Req T) (t : T) (extra : List (Blk T))
    (cmd : T → Option (List UInt8)) (rcvl : T → List (Packet T)) (ocbl : T → List (Ocb T)) :
    Prop where
  ctcb : k'.ctcb = k.ctcb
  held : k'.held.Perm (extra ++ (k.grown t ++ k.held))
  wild : k'.wild = k.wild
  stray : k'.stray = k.stray
  clkq : k'.clkq = k.clkq
  cmdptr : k'.cmdptr = r.text
  cli : (k'.tcb t).cli = (k.tcb t).cli
  acp : (k'.tcb t).acp = (k.tcb t).acp
  act : (k'.tcb t).act
  cmd : ∀ x, (k'.tcb x).cmd = cmd x
  rcvl : ∀ x, (k'.tcb x).rcvl = rcvl x
  ocbl : ∀ x, (k'.tcb x).ocbl = ocbl x

/-- The lists when a request begins. -/
abbrev Began (k k' : Kern T) (r : Req T) (t : T) (extra : List (Blk T)) : Prop :=
  Stage k k' r t extra (fun x => (k.base t x).cmd) (fun x => (k.base t x).rcvl)
    fun x => (k.base t x).ocbl

variable {k k' : Kern T} {r : Req T} {m : Room} {t : T}

omit [DecidableEq T] in
theorem grown_eq_nil : k.grown t = [] ↔ (k.tcb t).act ∨ (k.tcb t).fix := by
  unfold Kern.grown
  split
  · simp [*]
  · split
    · simp [*]
    · simp [*]

theorem base_of_ne {x : T} (h : x ≠ t) : k.base t x = k.tcb x := if_neg fun hx => h hx.1

theorem base_idle (h : k.Idle t) (x : T) :
    (k.base t x).rcvl = (k.tcb x).rcvl ∧ (k.base t x).ocbl = (k.tcb x).ocbl := by
  unfold Kern.base
  split
  · next hx =>
    obtain ⟨rfl, ha⟩ := hx
    have hi := h.resolve_left (by simpa using ha)
    exact ⟨hi.1.symm, hi.2.symm⟩
  · exact ⟨rfl, rfl⟩

theorem idle_of_base (h : (k.tcb t).rcvl = (k.base t t).rcvl)
    (h' : (k.tcb t).ocbl = (k.base t t).ocbl) : k.Idle t := by
  by_cases ha : (k.tcb t).act
  · exact .inl ha
  · rw [Kern.base, if_pos ⟨rfl, by simpa using ha⟩] at h h'
    exact .inr ⟨h, h'⟩

/-- What is left is what was there just when nothing is over and the task is resident. -/
theorem Stage.same_iff {extra : List (Blk T)} {cmd : T → Option (List UInt8)}
    (h : Stage k k' r t extra cmd (fun x => (k.base t x).rcvl) fun x => (k.base t x).ocbl) :
    Same k k' ↔ extra = [] ∧ k.Resident t := by
  constructor
  · intro hs
    have hl := (h.held.symm.trans hs.held).length_eq
    simp only [List.length_append] at hl
    have he : extra = [] := List.eq_nil_of_length_eq_zero (by omega)
    have hg : k.grown t = [] := List.eq_nil_of_length_eq_zero (by omega)
    refine ⟨he, grown_eq_nil.mp hg, idle_of_base ?_ ?_⟩
    · rw [← h.rcvl, hs.rcvl]
    · rw [← h.ocbl, hs.ocbl]
  · rintro ⟨rfl, hr, hi⟩
    refine ⟨?_, h.wild, h.stray, fun x => ?_, fun x => ?_, h.clkq⟩
    · simpa [grown_eq_nil.mpr hr] using h.held
    · rw [h.rcvl, (base_idle hi x).1]
    · rw [h.ocbl, (base_idle hi x).2]

namespace Kern

omit [DecidableEq T] in
theorem getcmd_of_reads (h : r.Reads m) :
    k.getcmd r m = ({ k with held := r.block ++ k.held, cmdptr := r.text }, none) := by
  rw [getcmd, Req.block, Req.text]
  dsimp only
  rcases h with h | ⟨hl, h⟩
  · rw [if_pos h, if_pos (.inl h)]
    rfl
  · by_cases hc : r.cmd = 0
    · rw [if_pos hc, if_pos (.inl hc)]
      rfl
    · rw [if_neg hc, if_neg (by omega)]
      rcases h with h | ⟨ho, hm⟩
      · rw [if_pos h, if_pos (.inr h)]
        rfl
      · by_cases hn : r.line = []
        · rw [if_pos hn, if_pos (.inr hn)]
          rfl
        · rw [if_neg hn, if_neg (by simp [ho]), if_neg (by simp [hm]),
            if_neg (not_or.mpr ⟨hc, hn⟩)]
          rfl

omit [DecidableEq T] in
theorem getcmd_of_not (h : ¬r.Reads m) :
    ∃ e, k.getcmd r m = ({ k with cmdptr := none }, some e) := by
  rw [Req.Reads] at h
  rw [getcmd]
  dsimp only
  split
  · next hc => exact absurd (.inl hc) h
  · split
    · exact ⟨_, rfl⟩
    · next hl =>
      split
      · next hn => exact absurd (.inr ⟨by omega, .inl hn⟩) h
      · split
        · exact ⟨_, rfl⟩
        · next ho =>
          split
          · exact ⟨_, rfl⟩
          · next hm =>
            exact absurd (.inr ⟨by omega, .inr ⟨by simpa using ho, by simpa using hm⟩⟩) h

/-- The task as `TRQST` sets it up, with a terminal. -/
def reset (b : Task T) (r : Req T) (u : ℕ) : Task T :=
  { b with
    mcr := r.mcr, pri := b.dpri, flgs := 0, wait := 0, cmd := none, rcvl := [], ocbl := []
    ti := u }

/-- The task as `TRQST` starts it. -/
def fresh (b : Task T) (r : Req T) (u : ℕ) : Task T := { reset b r u with act := true }

theorem trq1_of_starts (ha : ¬(k.tcb t).act) (h : k.Starts r m t) :
    ∃ u, k.trq1 r m t = ({ k with
      tcb := Function.update k.tcb t (fresh (k.tcb t) r u)
      held := k.grown t ++ k.held }, none) := by
  rw [Starts, if_neg ha] at h
  obtain ⟨hu, h⟩ := h
  obtain ⟨u, hu⟩ := Option.isSome_iff_exists.mp hu
  refine ⟨u, ?_⟩
  rw [trq1, hu]
  dsimp only
  by_cases hf : (k.tcb t).fix
  · have hg : k.grown t = [] := grown_eq_nil.mpr (.inr hf)
    simp [hf, hg, setTask, fresh, reset]
  · obtain ⟨hz, hp, hc⟩ := h.resolve_left hf
    by_cases hy : (k.tcb t).sys
    · simp [hf, hz, hy, hp hy, hc, ha, grown, setTask, take, fresh, reset]
    · simp [hf, hz, hy, hc, ha, grown, setTask, take, fresh, reset]

/-- A task that cannot be started has lost its lists, and taken nothing. -/
theorem trq1_of_not (ha : ¬(k.tcb t).act) (h : ¬k.Starts r m t) :
    ∃ e b, k.trq1 r m t = ({ k with tcb := Function.update k.tcb t b }, some e) ∧
      b.rcvl = [] ∧ b.ocbl = [] := by
  rw [Starts, if_neg ha] at h
  rw [trq1]
  rcases hu : r.ucb with _ | u
  · exact ⟨_, _, rfl, rfl, rfl⟩
  · simp only [hu, Option.isSome_some, true_and, not_or, not_and] at h
    obtain ⟨hf, h⟩ := h
    dsimp only
    rw [if_neg hf]
    by_cases hz : m.size
    · rw [if_neg (by simp [hz])]
      by_cases hy : (k.tcb t).sys
      · by_cases hp : m.pcb
        · have hc : ¬m.ctx := h hz fun _ => hp
          refine ⟨.nomem, reset (k.tcb t) r u, ?_, rfl, rfl⟩
          simp [hy, hp, hc, take, free, setTask, reset]
        · refine ⟨.nomem, reset (k.tcb t) r u, ?_, rfl, rfl⟩
          simp [hy, hp, setTask, reset]
      · have hc : ¬m.ctx := h hz fun hy' => absurd hy' hy
        refine ⟨.nomem, reset (k.tcb t) r u, ?_, rfl, rfl⟩
        simp [hy, hc, setTask, reset]
    · refine ⟨.pbig, reset (k.tcb t) r u, ?_, rfl, rfl⟩
      simp [hz, setTask, reset]

/-- The command line block is freed, if there is one. -/
theorem frecmd_eq {g l : List (Blk T)} (h : k.cmdptr = r.text)
    (hh : k.held = g ++ (r.block ++ l)) (hg : ∀ x, Blk.cmd x ∉ g) :
    k.frecmd = { k with held := g ++ l } := by
  rw [Req.block] at hh
  cases ht : r.text with
  | none =>
    have hf : k.frecmd = k := by rw [frecmd, h, ht]
    rw [ht] at hh
    rw [hf, ← show k.held = g ++ l from hh]
  | some x =>
    have hf : k.frecmd = k.free (.cmd x) := by rw [frecmd, h, ht]
    rw [ht] at hh
    dsimp only [Option.map_some, Option.toList_some] at hh
    rw [hf, free, hh, List.erase_append_right _ (hg x), List.singleton_append,
      List.erase_cons_head]

/-- The request goes on with the task. -/
theorem request_of_starts (hr : r.Reads m) (ht : r.task = some t) (hs : k.Starts r m t) :
    ∃ k', k.request r m = (k', .ok t) ∧ Began k k' r t r.block := by
  rw [request, getcmd_of_reads hr]
  dsimp only
  rw [ht]
  dsimp only
  rw [trqst]
  dsimp only
  by_cases ha : (k.tcb t).act
  · have hs' := hs
    rw [Starts, if_pos ha] at hs'
    rw [if_neg (by simp [ha]), if_pos (by simpa using hs')]
    have hb : ∀ x, k.base t x = k.tcb x := fun x => if_neg (by simp [ha])
    refine ⟨_, rfl, rfl, ?_, rfl, rfl, rfl, rfl, rfl, rfl, ha, ?_, ?_, ?_⟩
    · rw [grown_eq_nil.mpr (.inl ha)]
      rfl
    all_goals
      intro x
      rw [hb]
  · rw [if_pos (by simpa using ha)]
    obtain ⟨u, h⟩ := trq1_of_starts (k := { k with held := r.block ++ k.held, cmdptr := r.text })
      ha hs
    have hb : k.base t t = { k.tcb t with cmd := none, rcvl := [], ocbl := [] } :=
      if_pos ⟨rfl, by simpa using ha⟩
    rw [h]
    refine ⟨_, rfl, rfl, ?_, rfl, rfl, rfl, rfl, ?_, ?_, ?_, fun x => ?_, fun x => ?_, fun x => ?_⟩
    · exact List.perm_append_comm_assoc ..
    all_goals dsimp only
    · rw [Function.update_self]
      rfl
    · rw [Function.update_self]
      rfl
    · rw [Function.update_self]
      rfl
    all_goals
      by_cases hx : x = t
      · rw [hx, Function.update_self, hb]
        rfl
      · rw [Function.update_of_ne hx, base_of_ne hx]

/-- Without a task that can be requested, the command line block is freed again. -/
theorem request_of_not (h : ∀ t, r.task = some t → r.Reads m → ¬k.Starts r m t) :
    ∃ k' e, k.request r m = (k', .error e) ∧
      (Same k k' ↔ (r.Reads m → ∀ t, r.task = some t → k.Idle t)) := by
  rw [request]
  by_cases hr : r.Reads m
  · rw [getcmd_of_reads hr]
    dsimp only
    -- the block is on top of what is held, whatever has become of the task
    have freed (k₁ : Kern T) (hc : k₁.cmdptr = r.text) (hh : k₁.held = r.block ++ k.held) :
        k₁.frecmd = { k₁ with held := k.held } := by
      rw [frecmd_eq (g := []) hc hh (by simp)]
      rfl
    cases ht : r.task with
    | none =>
      refine ⟨_, _, rfl, ?_⟩
      rw [freed _ rfl rfl]
      exact iff_of_true ⟨.rfl, rfl, rfl, fun _ => rfl, fun _ => rfl, rfl⟩ (by simp)
    | some t =>
      have hs : ¬k.Starts r m t := h t ht hr
      dsimp only
      rw [trqst]
      dsimp only
      by_cases ha : (k.tcb t).act
      · have hs' := hs
        rw [Starts, if_pos ha] at hs'
        rw [if_neg (by simp [ha]), if_neg (by simpa using hs')]
        refine ⟨_, _, rfl, ?_⟩
        rw [freed _ rfl rfl]
        refine iff_of_true ⟨.rfl, rfl, rfl, fun _ => rfl, fun _ => rfl, rfl⟩ ?_
        rintro - x ⟨⟩
        exact .inl ha
      · rw [if_pos (by simpa using ha)]
        obtain ⟨e, b, he, hb, hb'⟩ :=
          trq1_of_not (k := { k with held := r.block ++ k.held, cmdptr := r.text }) ha hs
        rw [he]
        refine ⟨_, _, rfl, ?_⟩
        rw [freed _ rfl rfl]
        constructor
        · rintro hsame - x ⟨⟩
          refine .inr ⟨?_, ?_⟩
          · have h₁ := hsame.rcvl t
            dsimp only at h₁
            rw [← h₁, Function.update_self, hb]
          · have h₁ := hsame.ocbl t
            dsimp only at h₁
            rw [← h₁, Function.update_self, hb']
        · intro hi
          obtain ⟨h₁, h₂⟩ := (hi hr t rfl).resolve_left ha
          refine ⟨.rfl, rfl, rfl, fun x => ?_, fun x => ?_, rfl⟩
          all_goals dsimp only
          · by_cases hx : x = t
            · rw [hx, Function.update_self, hb, h₁]
            · rw [Function.update_of_ne hx]
          · by_cases hx : x = t
            · rw [hx, Function.update_self, hb', h₂]
            · rw [Function.update_of_ne hx]
  · obtain ⟨e, he⟩ := getcmd_of_not (k := k) hr
    rw [he]
    refine ⟨_, _, rfl, ?_⟩
    exact iff_of_true ⟨.rfl, rfl, rfl, fun _ => rfl, fun _ => rfl, rfl⟩ fun h => absurd h hr

end Kern

/-! ## The steps -/

section Steps

open Kern

variable {extra e : List (Blk T)} {cmd : T → Option (List UInt8)} {rcvl : T → List (Packet T)}
  {ocbl : T → List (Ocb T)}

/-- What of a task is the same after an update is the same for all tasks. -/
theorem proj_update {α : Type*} (p : Task T → α) {tcb : T → Task T} {x : T} {b : Task T}
    (h : p b = p (tcb x)) (y : T) : p (Function.update tcb x b y) = p (tcb y) := by
  by_cases hy : y = x
  · rw [hy, Function.update_self, h]
  · rw [Function.update_of_ne hy]

namespace Stage

/-- A step that changes the lists of one task. -/
theorem set (h : Stage k k' r t extra cmd rcvl ocbl) {b : Task T} {l : List (Blk T)}
    (hl : l.Perm (e ++ k'.held)) (hc : b.cli = (k'.tcb t).cli) (hp : b.acp = (k'.tcb t).acp)
    (ha : b.act = (k'.tcb t).act) :
    Stage k { k' with tcb := Function.update k'.tcb t b, held := l } r t (e ++ extra)
      (Function.update cmd t b.cmd) (Function.update rcvl t b.rcvl)
      (Function.update ocbl t b.ocbl) := by
  refine ⟨h.ctcb, ?_, h.wild, h.stray, h.clkq, h.cmdptr, ?_, ?_, ?_, fun x => ?_, fun x => ?_,
    fun x => ?_⟩
  · rw [List.append_assoc]
    exact hl.trans (h.held.append_left e)
  all_goals dsimp only
  · rw [Function.update_self, hc, h.cli]
  · rw [Function.update_self, hp, h.acp]
  · rw [Function.update_self, ha, h.act]
  · by_cases hx : x = t
    · rw [hx, Function.update_self, Function.update_self]
    · rw [Function.update_of_ne hx, Function.update_of_ne hx, h.cmd]
  · by_cases hx : x = t
    · rw [hx, Function.update_self, Function.update_self]
    · rw [Function.update_of_ne hx, Function.update_of_ne hx, h.rcvl]
  · by_cases hx : x = t
    · rw [hx, Function.update_self, Function.update_self]
    · rw [Function.update_of_ne hx, Function.update_of_ne hx, h.ocbl]

theorem cmd_self (h : Stage k k' r t extra cmd rcvl ocbl) :
    Function.update cmd t (k'.tcb t).cmd = cmd := by rw [h.cmd, Function.update_eq_self]

theorem rcvl_self (h : Stage k k' r t extra cmd rcvl ocbl) :
    Function.update rcvl t (k'.tcb t).rcvl = rcvl := by rw [h.rcvl, Function.update_eq_self]

theorem ocbl_self (h : Stage k k' r t extra cmd rcvl ocbl) :
    Function.update ocbl t (k'.tcb t).ocbl = ocbl := by rw [h.ocbl, Function.update_eq_self]

omit [DecidableEq T] in
theorem perm (h : Stage k k' r t extra cmd rcvl ocbl) (he : extra.Perm e) :
    Stage k k' r t e cmd rcvl ocbl :=
  { h with held := h.held.trans (he.append_right _) }

theorem frecmd (h : Stage k k' r t (r.block ++ e) cmd rcvl ocbl) :
    Stage k k'.frecmd r t e cmd rcvl ocbl := by
  have hh := h.held
  rw [Req.block] at hh
  rw [Kern.frecmd]
  split
  · next hn =>
    rw [show r.text = none from h.cmdptr.symm.trans hn] at hh
    exact { h with held := hh }
  · next x hx =>
    rw [show r.text = some x from h.cmdptr.symm.trans hx] at hh
    refine { h with held := ?_ }
    rw [free]
    simpa using hh.erase (.cmd x)

theorem setCmd (h : Stage k k' r t extra cmd rcvl ocbl) :
    Stage k (k'.setTask t { k'.tcb t with cmd := k'.cmdptr }) r t extra
      (Function.update cmd t r.text) rcvl ocbl := by
  have hs := h.set (b := { k'.tcb t with cmd := k'.cmdptr }) (e := []) (l := k'.held) .rfl rfl rfl rfl
  dsimp only at hs
  rw [h.rcvl_self, h.ocbl_self] at hs
  rw [← h.cmdptr]
  exact hs

theorem lnkocb (h : Stage k k' r t extra cmd rcvl ocbl) (o : Ocb T) :
    Stage k (k'.lnkocb t o) r t extra cmd rcvl (Function.update ocbl t (ocbl t ++ [o])) := by
  have hs := h.set (b := { k'.tcb t with ocbl := (k'.tcb t).ocbl ++ [o] }) (e := []) (l := k'.held)
    .rfl rfl rfl rfl
  dsimp only at hs
  rw [h.cmd_self, h.rcvl_self] at hs
  rw [← h.ocbl]
  exact hs

theorem newocb (h : Stage k k' r t extra cmd rcvl ocbl) (hc : r.Connects m) :
    ∃ o k'', k'.newocb r m = (k'', .ok o) ∧ Stage k k'' r t (.ocb o :: extra) cmd rcvl ocbl := by
  obtain ⟨ho, hf⟩ := hc
  rw [Kern.newocb, if_neg (by simp [ho]), Tcb.flgmsk, if_pos hf]
  refine ⟨_, _, rfl, h.ctcb, h.held.cons _, h.wild, h.stray, h.clkq, h.cmdptr, ?_, ?_, ?_,
    fun x => ?_, fun x => ?_, fun x => ?_⟩
  all_goals dsimp only [setTask, take]
  · exact (proj_update Task.cli (by rfl) t).trans h.cli
  · exact (proj_update Task.acp (by rfl) t).trans h.acp
  · exact (proj_update Task.act (by rfl) t).trans h.act
  · exact (proj_update Task.cmd (by rfl) x).trans (h.cmd x)
  · exact (proj_update Task.rcvl (by rfl) x).trans (h.rcvl x)
  · exact (proj_update Task.ocbl (by rfl) x).trans (h.ocbl x)

theorem send (h : Stage k k' r t extra cmd rcvl ocbl) (p : Packet T) :
    ∃ k'', (k'.take (.packet p)).send t p = (k'', none) ∧
      Stage k k'' r t (.packet p :: extra) cmd
        (Function.update rcvl t (Queue.enqueue Packet.pri p (rcvl t))) ocbl := by
  have hs := h.set (b := { k'.tcb t with rcvl := Queue.enqueue Packet.pri p (k'.tcb t).rcvl })
    (e := [.packet p]) (l := .packet p :: k'.held) .rfl rfl rfl rfl
  dsimp only at hs
  rw [h.cmd_self, h.ocbl_self] at hs
  have ha : ((k'.take (.packet p)).tcb t).act := h.act
  refine ⟨_, by rw [Kern.send, if_pos ha], ?_⟩
  rw [← h.rcvl]
  exact hs

/-- The command goes to the CLI, and its block back to the pool. -/
theorem qcli (h : Stage k k' r t (r.block ++ e) cmd rcvl ocbl) (hi : m.item) (l : List (Ocb T)) :
    ∃ u k'', k'.qcli r m t l = (k'', none) ∧
      Stage k k'' r t (.packet (.command u l (r.text.getD [])) :: e) cmd
        (Function.update rcvl t
          (Queue.enqueue Packet.pri (.command u l (r.text.getD [])) (rcvl t))) ocbl := by
  obtain ⟨u, hu⟩ : ∃ u, u = if !r.noTi && (k'.tcb k'.ctcb).prv then
    r.ucb.getD (k'.tcb k'.ctcb).ti else (k'.tcb k'.ctcb).ti := ⟨_, rfl⟩
  obtain ⟨k'', hk, hs⟩ := h.send (.command u l (r.text.getD []))
  refine ⟨u, k''.frecmd, ?_, (hs.perm List.perm_middle.symm).frecmd⟩
  rw [Kern.qcli, if_neg (by simp [hi])]
  dsimp only
  rw [← hu, h.cmdptr, hk]

end Stage

theorem newocb_of_not (h : ¬r.Connects m) : ∃ e, k.newocb r m = (k, .error e) := by
  rw [Kern.newocb]
  dsimp only
  split
  · exact ⟨_, rfl⟩
  · next ho =>
    have hf : ¬(1 ≤ r.efn ∧ r.efn ≤ 32) := fun hf => h ⟨by simpa using ho, hf⟩
    rw [Tcb.flgmsk, if_neg hf]
    refine ⟨.badfl, ?_⟩
    dsimp only
    rw [free, take]
    dsimp only
    rw [List.erase_cons_head]

theorem rq1_of_not (h : ¬r.Sends) (hl : Option T) : k.rq1 r m hl = (k, none) := by
  rw [rq1, if_pos]
  by_contra hn
  exact h (not_or.mp hn)

theorem rq1_of_sends (h : r.Sends) (hl : Option T) : k.rq1 r m hl = k.usend1 r m hl :=
  if_neg (not_or.mpr h)

/-- The data are sent. -/
theorem Stage.rq1 (h : Stage k k' r t extra cmd rcvl ocbl) (hs : r.Sends)
    (ha : ¬(k.tcb t).acp) (hp : m.packet) :
    ∃ pri k'', k'.rq1 r m (some t) = (k'', none) ∧
      Stage k k'' r t (.packet (.data pri r.sdat r.slen) :: extra) cmd
        (Function.update rcvl t
          (Queue.enqueue Packet.pri (.data pri r.sdat r.slen) (rcvl t))) ocbl := by
  obtain ⟨k'', hk, hs'⟩ := h.send (.data (k'.tcb k'.ctcb).pri r.sdat r.slen)
  refine ⟨_, k'', ?_, hs'⟩
  rw [rq1_of_sends hs, usend1]
  rw [if_neg (by rw [h.acp]; exact ha), if_neg (by simp [hp])]
  exact hk

/-- The data cannot be sent. -/
theorem Stage.rq1_failed (h : Stage k k' r t extra cmd rcvl ocbl) (hs : r.Sends)
    (hx : ¬(!(k.tcb t).acp ∧ m.packet)) : ∃ e, k'.rq1 r m (some t) = (k', some e) := by
  rw [rq1_of_sends hs, usend1]
  split
  · exact ⟨_, rfl⟩
  · next ha =>
    rw [h.acp] at ha
    rw [if_pos (by simpa [ha] using hx)]
    exact ⟨_, rfl⟩

/-- To send data to what is no task fails, and takes nothing from the pool. -/
theorem rq1_none (hs : r.Sends) : ∃ e k', k.rq1 r m none = (k', some e) ∧ k'.held = k.held := by
  rw [rq1_of_sends hs, usend1]
  split
  · exact ⟨_, _, rfl, rfl⟩
  · split
    · exact ⟨_, _, rfl, rfl⟩
    · exact ⟨_, _, rfl, rfl⟩

/-- What has been queued at the end. -/
theorem Stage.queued (h : Stage k k' r t extra cmd rcvl ocbl) {news passed : List (Ocb T)}
    (hn : news.length ≤ 1) (hx : (extra.filter Blk.isOcb).Perm (news.map .ocb))
    (hc : (k.tcb t).cli → cmd t = (k.base t t).cmd ∧ ∃ u, rcvl t =
      Queue.enqueue Packet.pri (.command u passed (r.text.getD [])) (k.base t t).rcvl)
    (ht : !(k.tcb t).cli → cmd t = r.text ∧ (rcvl t = (k.base t t).rcvl ∨ ∃ pri, rcvl t =
      Queue.enqueue Packet.pri (.data pri r.sdat r.slen) (k.base t t).rcvl))
    (ho : ∀ x, x ≠ t → cmd x = (k.base t x).cmd ∧ rcvl x = (k.base t x).rcvl) :
    Queued k k' r t news passed ocbl := by
  refine ⟨hn, ?_, ?_, ?_, fun x hx => ?_, h.ocbl, h.wild, h.stray, h.clkq⟩
  · have hg : (k.grown t).filter Blk.isOcb = [] := by
      unfold grown
      split
      · rfl
      · split
        · rfl
        · rfl
    have hh := h.held.filter Blk.isOcb
    rw [List.filter_append, List.filter_append, hg, List.nil_append] at hh
    exact hh.trans (hx.append_right _)
  · rw [h.cmd, h.rcvl]
    exact hc
  · rw [h.cmd, h.rcvl]
    exact ht
  · rw [h.cmd, h.rcvl, (ho x hx).1, (ho x hx).2, base_of_ne hx]
    exact ⟨rfl, rfl⟩

end Steps

/-! ## `URQST` -/

section Urqst

open Kern

theorem meetsU_error {e : Err} : MeetsU k r (k', some e) ↔ Same k k' := by
  simp [MeetsU]

theorem meetsU_queued (news : List (Ocb T)) (ht : r.task = some t)
    (h : Queued k k' r t news news fun x =>
      if x = t ∧ !(k.tcb t).cli then (k.base t x).ocbl ++ news else (k.base t x).ocbl) :
    MeetsU k r (k', none) :=
  ⟨fun h => absurd rfl h, fun _ => ⟨t, news, ht, h⟩⟩

omit [DecidableEq T] in
theorem same_refl (k : Kern T) : Same k k := ⟨.rfl, rfl, rfl, fun _ => rfl, fun _ => rfl, rfl⟩

omit [DecidableEq T] in
theorem block_eq_nil : r.block = [] ↔ r.text = none := by
  rw [Req.block]
  cases r.text with
  | none => simp
  | some x => simp

/-- `URQST` to a CLI. -/
theorem rqcli_meets_iff (h : Began k k' r t r.block) (ht : r.task = some t)
    (hc : (k.tcb t).cli) :
    MeetsU k r (k'.rqcli r m t) ↔ CleanCli k r m t := by
  rw [CleanCli]
  have hb : Began k k' r t (r.block ++ []) := by rwa [List.append_nil]
  -- a CLI has its OCB lists as they were
  have lists {news : List (Ocb T)} (x : T) : (if x = t ∧ !(k.tcb t).cli then
      (k.base t x).ocbl ++ news else (k.base t x).ocbl) = (k.base t x).ocbl :=
    if_neg (by simp [hc])
  rw [rqcli]
  split
  · by_cases hi : m.item
    · obtain ⟨u, k'', hk, hs⟩ := hb.qcli hi []
      rw [hk]
      refine iff_of_true (meetsU_queued [] ht ?_) hi
      simp only [lists]
      refine hs.queued (by simp) (by simp [Blk.isOcb]) (fun _ => ⟨rfl, u, ?_⟩) (by simp [hc]) ?_
      · rw [Function.update_self]
      · exact fun x hx => ⟨rfl, by rw [Function.update_of_ne hx]⟩
    · have hk : k'.qcli r m t [] = (k'.frecmd, some .nomem) := by
        rw [Kern.qcli, if_pos (by simpa using hi)]
      rw [hk]
      dsimp only
      rw [meetsU_error]
      refine iff_of_false (fun hs => ?_) hi
      have := congrArg List.length hs.wild
      rw [← hb.frecmd.wild] at this
      simp at this
  · by_cases ho : r.Connects m
    · obtain ⟨o, k'', hk, hs⟩ := h.newocb ho
      rw [hk, if_pos ho]
      dsimp only
      have hs' := hs.perm (e := r.block ++ [.ocb o]) (List.perm_append_singleton ..).symm
      by_cases hi : m.item
      · obtain ⟨u, k₃, hk₃, hs₃⟩ := hs'.qcli hi [o]
        rw [hk₃]
        refine iff_of_true (meetsU_queued [o] ht ?_) (.inl hi)
        simp only [lists]
        refine hs₃.queued (by simp) (by simp [Blk.isOcb]) (fun _ => ⟨rfl, u, ?_⟩) (by simp [hc]) ?_
        · rw [Function.update_self]
        · exact fun x hx => ⟨rfl, by rw [Function.update_of_ne hx]⟩
      · have hk₃ : k''.qcli r m t [o] = (k''.frecmd, some .nomem) := by
          rw [Kern.qcli, if_pos (by simpa using hi)]
        rw [hk₃]
        dsimp only
        rw [meetsU_error, or_iff_right hi]
        -- the OCB is freed as well
        have hf : Began k (k''.frecmd.free (.ocb o)) r t [] := by
          refine { hs'.frecmd with held := ?_ }
          simpa [free] using hs'.frecmd.held.erase (.ocb o)
        rw [hf.same_iff]
        exact and_iff_right rfl
    · obtain ⟨e, hk⟩ := newocb_of_not (k := k') ho
      rw [hk, if_neg ho]
      dsimp only
      rw [meetsU_error, h.same_iff, block_eq_nil]

/-- What a task has been sent, with the data or without. -/
theorem queued_task {news : List (Ocb T)} {extra : List (Blk T)} {rcvl : T → List (Packet T)}
    {ocbl : T → List (Ocb T)} {passed : List (Ocb T)} (hc : ¬(k.tcb t).cli)
    (h : Stage k k' r t extra (Function.update (fun x => (k.base t x).cmd) t r.text) rcvl ocbl)
    (hn : news.length ≤ 1) (hx : (extra.filter Blk.isOcb).Perm (news.map .ocb))
    (ht : rcvl t = (k.base t t).rcvl ∨ ∃ pri, rcvl t =
      Queue.enqueue Packet.pri (.data pri r.sdat r.slen) (k.base t t).rcvl)
    (ho : ∀ x, x ≠ t → rcvl x = (k.base t x).rcvl) : Queued k k' r t news passed ocbl := by
  refine h.queued hn hx (fun hc' => absurd hc' hc) (fun _ => ⟨?_, ht⟩) fun x hx => ⟨?_, ho x hx⟩
  · rw [Function.update_self]
  · rw [Function.update_of_ne hx]

omit [DecidableEq T] in
theorem filter_block (l : List (Blk T)) :
    (r.block ++ l).filter Blk.isOcb = l.filter Blk.isOcb := by
  rw [Req.block, List.filter_append]
  cases r.text with
  | none => rfl
  | some x => rfl

/-- `URQST` to a task that is no CLI. -/
theorem rqtsk_meets_iff (h : Began k k' r t r.block) (ht : r.task = some t)
    (hc : ¬(k.tcb t).cli) :
    MeetsU k r (k'.rqtsk r m t) ↔ CleanTsk k r m t := by
  rw [CleanTsk, rqtsk]
  have hs := h.setCmd
  generalize k'.setTask t { k'.tcb t with cmd := k'.cmdptr } = k₁ at hs ⊢
  split
  · by_cases hd : r.Sends
    · by_cases hx : !(k.tcb t).acp ∧ m.packet
      · obtain ⟨pri, k₂, hk, hs₂⟩ := hs.rq1 hd (by simpa using hx.1) hx.2
        rw [hk]
        refine iff_of_true (meetsU_queued [] ht ?_) (.inr (.inl hx))
        simp only [List.append_nil, ite_self]
        refine queued_task hc hs₂ (by simp) ?_ (.inr ⟨pri, ?_⟩) fun x hx => ?_
        · rw [List.filter_cons_of_neg (by simp [Blk.isOcb]), ← List.append_nil r.block,
            filter_block]
          rfl
        · rw [Function.update_self]
        · rw [Function.update_of_ne hx]
      · obtain ⟨e, hk⟩ := hs.rq1_failed hd hx
        rw [hk, meetsU_error, hs.same_iff, block_eq_nil]
        simp only [hd, not_true_eq_false, false_or]
        exact (or_iff_right hx).symm
    · rw [rq1_of_not hd]
      refine iff_of_true (meetsU_queued [] ht ?_) (.inl hd)
      simp only [List.append_nil, ite_self]
      refine queued_task hc hs (by simp) ?_ (.inl rfl) fun x hx => rfl
      rw [← List.append_nil r.block, filter_block]
      rfl
  · rw [conn, if_neg (by rw [hs.cli]; exact hc), if_neg (by simp [hs.act])]
    by_cases ho : r.Connects m
    · obtain ⟨o, k₂, hk, hs₂⟩ := hs.newocb ho
      rw [hk, if_pos ho]
      dsimp only
      have hs₃ := hs₂.lnkocb o
      by_cases hd : r.Sends
      · obtain ⟨e, k₄, hk₄, hh⟩ := rq1_none (k := k₂.lnkocb t o) (m := m) hd
        rw [hk₄, meetsU_error]
        -- the OCB stays with the task
        refine iff_of_false (fun hsame => ?_) fun hn => hn hd
        have hl := (hs₃.held.symm.trans (hh ▸ hsame.held)).length_eq
        simp only [List.length_append, List.length_cons] at hl
        omega
      · rw [rq1_of_not hd]
        refine iff_of_true (meetsU_queued [o] ht ?_) hd
        have hf : (fun x => if x = t ∧ !(k.tcb t).cli then (k.base t x).ocbl ++ [o]
            else (k.base t x).ocbl) =
            Function.update (fun x => (k.base t x).ocbl) t ((k.base t t).ocbl ++ [o]) := by
          funext x
          by_cases hx : x = t
          · rw [hx, Function.update_self, if_pos ⟨rfl, by simpa using hc⟩]
          · rw [Function.update_of_ne hx, if_neg fun h => hx h.1]
        rw [hf]
        refine queued_task hc hs₃ (by simp) ?_ (.inl rfl) fun x hx => rfl
        rw [List.filter_cons_of_pos rfl, ← List.append_nil r.block, filter_block]
        rfl
    · obtain ⟨e, hk⟩ := newocb_of_not (k := k₁) ho
      rw [hk, if_neg ho]
      dsimp only
      rw [meetsU_error, hs.same_iff, block_eq_nil]

/-- `URQST` leaves everything as it was when it fails, and else one command with the task and one
OCB at most, exactly when it is clean. -/
theorem urqst_meets_iff (k : Kern T) (r : Req T) (m : Room) :
    MeetsU k r (k.urqst r m) ↔ CleanU k r m := by
  by_cases hv : (r.esb ≠ 0 → r.esbOk) ∧ r.tdbOk ∧ valsd r
  · rw [urqst, if_neg (by simpa using hv.1), if_neg (by simp [hv.2.1]), if_neg (by simp [hv.2.2])]
    by_cases h : ∃ t, r.task = some t ∧ r.Reads m ∧ k.Starts r m t
    · obtain ⟨t, ht, hr, hs⟩ := h
      obtain ⟨k', hk, hb⟩ := request_of_starts hr ht hs
      have hclean : CleanU k r m ↔
          if (k.tcb t).cli then CleanCli k r m t else CleanTsk k r m t := by
        constructor
        · intro hcl
          have := hcl ⟨hv.1, hv.2.1, hv.2.2, hr⟩ t ht
          rwa [if_neg (not_not.mpr hs)] at this
        · intro hcl _ t' ht'
          obtain rfl : t = t' := Option.some.inj (ht.symm.trans ht')
          rwa [if_neg (not_not.mpr hs)]
      rw [hk, hclean]
      dsimp only
      by_cases hc : (k.tcb t).cli
      · rw [if_pos hc, if_pos (hb.cli.trans hc)]
        exact rqcli_meets_iff hb ht hc
      · rw [if_neg hc, if_neg (by rw [hb.cli]; exact hc)]
        exact rqtsk_meets_iff hb ht hc
    · obtain ⟨k', e, hk, hi⟩ := request_of_not (k := k) (r := r) (m := m)
        fun t ht hr hs => h ⟨t, ht, hr, hs⟩
      rw [hk]
      dsimp only
      rw [meetsU_error, hi]
      constructor
      · intro hcl hr t ht
        rw [if_pos fun hs => h ⟨t, ht, hr.2.2.2, hs⟩]
        exact hcl hr.2.2.2 t ht
      · intro hcl hr t ht
        have := hcl ⟨hv.1, hv.2.1, hv.2.2, hr⟩ t ht
        rwa [if_pos fun hs => h ⟨t, ht, hr, hs⟩] at this
  · have hu : k.urqst r m = (k, some .inv) := by
      rw [urqst]
      split
      · rfl
      · next he =>
        split
        · rfl
        · next htd =>
          rw [if_pos]
          by_contra hsd
          exact hv ⟨by simpa using he, by simpa using htd, by simpa using hsd⟩
    rw [hu, meetsU_error]
    exact iff_of_true (same_refl k) fun hr => absurd ⟨hr.1, hr.2.1, hr.2.2.1⟩ hv

end Urqst

/-! ## `RPOI` -/

section Rpoi

open Kern

theorem meetsR_error {e : Err} : MeetsR k r (k', some e) ↔ Same k k' := by
  simp [MeetsR]

theorem meetsR_queued (ht : r.task = some t)
    (h : Queued k k' r t [] (k.base t k.ctcb).ocbl fun x =>
      if x = k.ctcb then []
      else if x = t ∧ !(k.tcb t).cli then (k.base t k.ctcb).ocbl else (k.base t x).ocbl) :
    MeetsR k r (k', none) :=
  ⟨fun h => absurd rfl h, fun _ => ⟨t, ht, h⟩⟩

variable {extra : List (Blk T)} {cmd : T → Option (List UInt8)} {rcvl : T → List (Packet T)}
  {ocbl : T → List (Ocb T)}

/-- The OCB list of some task is replaced. -/
theorem Stage.setOcbl (h : Stage k k' r t extra cmd rcvl ocbl) (x : T) (l : List (Ocb T)) :
    Stage k (k'.setTask x { k'.tcb x with ocbl := l }) r t extra cmd rcvl
      (Function.update ocbl x l) := by
  refine ⟨h.ctcb, h.held, h.wild, h.stray, h.clkq, h.cmdptr, ?_, ?_, ?_, fun y => ?_, fun y => ?_,
    fun y => ?_⟩
  all_goals dsimp only [setTask]
  · exact (proj_update Task.cli (by rfl) t).trans h.cli
  · exact (proj_update Task.acp (by rfl) t).trans h.acp
  · exact (proj_update Task.act (by rfl) t).trans h.act
  · exact (proj_update Task.cmd (by rfl) y).trans (h.cmd y)
  · exact (proj_update Task.rcvl (by rfl) y).trans (h.rcvl y)
  · by_cases hx : y = x
    · rw [hx, Function.update_self, Function.update_self]
    · rw [Function.update_of_ne hx, Function.update_of_ne hx, h.ocbl]

/-- `TA.MCR` is none of what the stage is about. -/
theorem Stage.setMcr (h : Stage k k' r t extra cmd rcvl ocbl) (b : Bool) :
    Stage k (k'.setTask t { k'.tcb t with mcr := b }) r t extra cmd rcvl ocbl := by
  have hs := h.set (b := { k'.tcb t with mcr := b }) (e := []) (l := k'.held) .rfl rfl rfl rfl
  dsimp only at hs
  rw [h.cmd_self, h.rcvl_self, h.ocbl_self] at hs
  exact hs

/-- `RPOI` to a CLI. -/
theorem rpcli_meets_iff (h : Began k k' r t r.block) (ht : r.task = some t)
    (hc : (k.tcb t).cli) :
    MeetsR k r (k'.rpcli r m t) ↔ m.item = true ∨ k.Resident t := by
  have hb : Began k k' r t (r.block ++ []) := by rwa [List.append_nil]
  have ho : (k'.tcb k'.ctcb).ocbl = (k.base t k.ctcb).ocbl := by rw [hb.ocbl, h.ctcb]
  have hs := hb.setOcbl k'.ctcb []
  rw [rpcli]
  dsimp only
  rw [ho]
  generalize k'.setTask k'.ctcb { k'.tcb k'.ctcb with ocbl := [] } = k₁ at hs ⊢
  by_cases hi : m.item
  · obtain ⟨u, k₂, hk, hs₂⟩ := hs.qcli hi (k.base t k.ctcb).ocbl
    rw [hk]
    refine iff_of_true (meetsR_queued ht ?_) (.inl hi)
    have hf : (fun x => if x = k.ctcb then []
        else if x = t ∧ !(k.tcb t).cli then (k.base t k.ctcb).ocbl else (k.base t x).ocbl) =
        Function.update (fun x => (k.base t x).ocbl) k'.ctcb [] := by
      funext x
      rw [h.ctcb]
      by_cases hx : x = k.ctcb
      · rw [hx, Function.update_self, if_pos rfl]
      · rw [Function.update_of_ne hx, if_neg hx, if_neg (by simp [hc])]
    rw [hf]
    refine hs₂.queued (by simp) (by simp [Blk.isOcb]) (fun _ => ⟨rfl, u, ?_⟩) (by simp [hc]) ?_
    · rw [Function.update_self]
    · exact fun x hx => ⟨rfl, by rw [Function.update_of_ne hx]⟩
  · have hk : k₁.qcli r m t (k.base t k.ctcb).ocbl = (k₁.frecmd, some .nomem) := by
      rw [Kern.qcli, if_pos (by simpa using hi)]
    rw [hk]
    dsimp only
    rw [meetsR_error, or_iff_right hi]
    -- the OCBs are with the parent again
    have hs₂ := hs.frecmd.setOcbl k₁.frecmd.ctcb (k.base t k.ctcb).ocbl
    rw [hs.frecmd.ctcb, ← h.ctcb, Function.update_idem, h.ctcb, Function.update_eq_self] at hs₂
    rw [hs.frecmd.ctcb, hs₂.same_iff]
    exact and_iff_right rfl

/-- The OCB lists when those of the parent have gone to the task. -/
def Kern.handed (k : Kern T) (t : T) : T → List (Ocb T) :=
  Function.update (Function.update (fun x => (k.base t x).ocbl) t (k.base t k.ctcb).ocbl) k.ctcb []

theorem handed_eq (hc : ¬(k.tcb t).cli) : (fun x => if x = k.ctcb then []
    else if x = t ∧ !(k.tcb t).cli then (k.base t k.ctcb).ocbl else (k.base t x).ocbl) =
    k.handed t := by
  funext x
  rw [handed]
  by_cases hx : x = k.ctcb
  · rw [hx, Function.update_self, if_pos rfl]
  · rw [Function.update_of_ne hx, if_neg hx]
    by_cases ht : x = t
    · rw [ht, Function.update_self, if_pos ⟨rfl, by simpa using hc⟩]
    · rw [Function.update_of_ne ht, if_neg fun h => ht h.1]

/-- With the OCBs gone to the task, what is left is what was there only without any. -/
theorem Stage.handed_same_iff (h : Stage k k' r t extra cmd (fun x => (k.base t x).rcvl)
    (k.handed t)) :
    Same k k' ↔ extra = [] ∧
      k.Resident t ∧ (k.tcb k.ctcb).ocbl = [] ∧ (k.tcb t).ocbl = [] := by
  -- a task has no more OCBs when it has been requested
  have hbase {x : T} (hx : (k.tcb x).ocbl = []) : (k.base t x).ocbl = [] := by
    unfold Kern.base
    split
    · rfl
    · exact hx
  constructor
  · intro hs
    have hl := (h.held.symm.trans hs.held).length_eq
    simp only [List.length_append] at hl
    have he : extra = [] := List.eq_nil_of_length_eq_zero (by omega)
    have hg : k.grown t = [] := List.eq_nil_of_length_eq_zero (by omega)
    have ho (x : T) : k.handed t x = (k.tcb x).ocbl := by rw [← h.ocbl, hs.ocbl]
    have hp : (k.tcb k.ctcb).ocbl = [] := by rw [← ho, handed, Function.update_self]
    have ht : (k.tcb t).ocbl = [] := by
      by_cases hx : t = k.ctcb
      · rw [hx, hp]
      · rw [← ho, handed, Function.update_of_ne hx, Function.update_self, hbase hp]
    refine ⟨he, ⟨grown_eq_nil.mp hg, idle_of_base ?_ ?_⟩, hp, ht⟩
    · rw [← h.rcvl, hs.rcvl]
    · rw [ht, hbase ht]
  · rintro ⟨rfl, ⟨hr, hi⟩, hp, ht⟩
    refine ⟨?_, h.wild, h.stray, fun x => ?_, fun x => ?_, h.clkq⟩
    · simpa [grown_eq_nil.mpr hr] using h.held
    · rw [h.rcvl, (base_idle hi x).1]
    · rw [h.ocbl, handed]
      by_cases hx : x = k.ctcb
      · rw [hx, Function.update_self, hp]
      · rw [Function.update_of_ne hx]
        by_cases hx' : x = t
        · rw [hx', Function.update_self, ht, hbase hp]
        · rw [Function.update_of_ne hx', base_of_ne hx']

/-- `RPOI` to a task that is no CLI. -/
theorem rptsk_meets_iff (h : Began k k' r t r.block) (ht : r.task = some t)
    (hc : ¬(k.tcb t).cli) :
    MeetsR k r (k'.rptsk r m t) ↔ ¬r.Sends ∨ !(k.tcb t).acp ∧ m.packet ∨
      r.text = none ∧ k.Resident t ∧ (k.tcb k.ctcb).ocbl = [] ∧ (k.tcb t).ocbl = [] := by
  obtain ⟨k₁, hk, hs⟩ : ∃ k₁, k'.rptsk r m t = k₁.rq1 r m (some t) ∧ Stage k k₁ r t r.block
      (Function.update (fun x => (k.base t x).cmd) t r.text) (fun x => (k.base t x).rcvl)
      (k.handed t) := by
    refine ⟨_, rfl, ?_⟩
    have hs := h.setCmd
    generalize k'.setTask t { k'.tcb t with cmd := k'.cmdptr } = k₁ at hs ⊢
    have hs₂ := hs.setOcbl t (k₁.tcb k₁.ctcb).ocbl
    rw [hs.ocbl, hs.ctcb] at hs₂
    rw [hs.ocbl, hs.ctcb]
    generalize k₁.setTask t { k₁.tcb t with ocbl := (k.base t k.ctcb).ocbl } = k₂ at hs₂ ⊢
    have hs₃ := hs₂.setOcbl k₂.ctcb []
    rw [hs₂.ctcb] at hs₃ ⊢
    exact hs₃.setMcr _
  rw [hk]
  have empty : (r.block.filter Blk.isOcb).Perm ([].map .ocb) := by
    rw [← List.append_nil r.block, filter_block]
    rfl
  by_cases hd : r.Sends
  · by_cases hx : !(k.tcb t).acp ∧ m.packet
    · obtain ⟨pri, k₂, hk₂, hs₂⟩ := hs.rq1 hd (by simpa using hx.1) hx.2
      rw [hk₂]
      refine iff_of_true (meetsR_queued ht ?_) (.inr (.inl hx))
      rw [handed_eq hc]
      refine queued_task hc hs₂ (by simp) ?_ (.inr ⟨pri, ?_⟩) fun x hx => ?_
      · rw [List.filter_cons_of_neg (by simp [Blk.isOcb])]
        exact empty
      · rw [Function.update_self]
      · rw [Function.update_of_ne hx]
    · obtain ⟨e, hk₂⟩ := hs.rq1_failed hd hx
      rw [hk₂, meetsR_error, hs.handed_same_iff, block_eq_nil]
      simp only [hd, not_true_eq_false, false_or]
      exact (or_iff_right hx).symm
  · rw [rq1_of_not hd]
    refine iff_of_true (meetsR_queued ht ?_) (.inl hd)
    rw [handed_eq hc]
    exact queued_task hc hs (by simp) empty (.inl rfl) fun x hx => rfl

/-- `RPOI` leaves everything as it was when it fails, and else one command with the task and the
OCBs of the parent, exactly when it is clean. -/
theorem rpoi_meets_iff (k : Kern T) (r : Req T) (m : Room) :
    MeetsR k r (k.rpoi r m) ↔ CleanR k r m := by
  by_cases hv : r.tdbOk ∧ valsd r
  · rw [rpoi, if_neg (by simp [hv.1]), if_neg (by simp [hv.2])]
    by_cases h : ∃ t, r.task = some t ∧ r.Reads m ∧ k.Starts r m t
    · obtain ⟨t, ht, hr, hs⟩ := h
      obtain ⟨k', hk, hb⟩ := request_of_starts hr ht hs
      have hclean : CleanR k r m ↔
          if (k.tcb t).cli then m.item = true ∨ k.Resident t
          else ¬r.Sends ∨ !(k.tcb t).acp ∧ m.packet ∨
            r.text = none ∧ k.Resident t ∧ (k.tcb k.ctcb).ocbl = [] ∧ (k.tcb t).ocbl = [] := by
        constructor
        · intro hcl
          have := hcl ⟨hv.1, hv.2, hr⟩ t ht
          rwa [if_neg (not_not.mpr hs)] at this
        · intro hcl _ t' ht'
          obtain rfl : t = t' := Option.some.inj (ht.symm.trans ht')
          rwa [if_neg (not_not.mpr hs)]
      rw [hk, hclean]
      dsimp only
      by_cases hc : (k.tcb t).cli
      · rw [if_pos hc, if_pos (hb.cli.trans hc)]
        exact rpcli_meets_iff hb ht hc
      · rw [if_neg hc, if_neg (by rw [hb.cli]; exact hc)]
        exact rptsk_meets_iff hb ht hc
    · obtain ⟨k', e, hk, hi⟩ := request_of_not (k := k) (r := r) (m := m)
        fun t ht hr hs => h ⟨t, ht, hr, hs⟩
      rw [hk]
      dsimp only
      rw [meetsR_error, hi]
      constructor
      · intro hcl hr t ht
        rw [if_pos fun hs => h ⟨t, ht, hr.2.2, hs⟩]
        exact hcl hr.2.2 t ht
      · intro hcl hr t ht
        have := hcl ⟨hv.1, hv.2, hr⟩ t ht
        rwa [if_pos fun hs => h ⟨t, ht, hr, hs⟩] at this
  · have hu : k.rpoi r m = (k, some .inv) := by
      rw [rpoi]
      split
      · rfl
      · next htd =>
        rw [if_pos]
        by_contra hsd
        exact hv ⟨by simpa using htd, by simpa using hsd⟩
    rw [hu, meetsR_error]
    exact iff_of_true (same_refl k) fun hr => absurd ⟨hr.1, hr.2.1⟩ hv

end Rpoi

/-- A request that fails leaves nothing behind, and one that does not leaves one command with the
task and an OCB at most, exactly when no step fails after another one that is not undone. -/
theorem requests_meet_iff (k : Kern T) (r : Req T) (m : Room) :
    (MeetsU k r (k.urqst r m) ↔ CleanU k r m) ∧ (MeetsR k r (k.rpoi r m) ↔ CleanR k r m) :=
  ⟨urqst_meets_iff k r m, rpoi_meets_iff k r m⟩

/-- A task that requests another one, which is a CLI that runs or a task that does not. -/
def parent (cli : Bool) : Kern Bool where
  ctcb := true
  tcb t := ⟨t || cli, !t && cli, false, false, false, false, true, 50, 50, 0, 0, none, [], [], 1⟩
  held := []
  wild := []
  stray := false
  clkq := []
  cmdptr := none

/-- A request with the command line `A`. -/
def asked (esb efn : ℕ) : Req Bool :=
  ⟨esb, 0, efn, true, true, 0, 0, true, 1000, [65], true, some false, false, some 1, true⟩

/-- A flag number out of range is found only when the task has been started: its blocks and the
command line stay. -/
theorem left_behind : ((parent false).urqst (asked 2000 33) ⟨true, true, true, true, true, true,
      true, false⟩).2 = some .badfl ∧
    ((parent false).urqst (asked 2000 33) ⟨true, true, true, true, true, true,
      true, false⟩).1.held = [.ctx false, .pcb false, .cmd [65]] ∧
    ¬∀ (k : Kern Bool) (r : Req Bool) (m : Room), MeetsU k r (k.urqst r m) := by
  refine ⟨by decide, by decide, fun h => ?_⟩
  have hs := (h (parent false) (asked 2000 33) ⟨true, true, true, true, true, true, true, false⟩).1
    (by decide)
  exact absurd hs.held.length_eq (by decide)

/-- Without room for the packet, and without a connection, the block at address 0 is freed. -/
example : ((parent true).urqst (asked 0 1) ⟨true, true, false, true, true, true, true, false⟩).1.wild =
    [(0, 8)] := by decide

end RSX280.Request
