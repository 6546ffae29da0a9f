import RSX280.Request
import RSX280.Runs
import RSX280.Tokens

/-!
# Connected tasks (`connect.mac`, `qtktn.mac`, `sysfn.mac`)

A task that asks for the exit status of another one has an OCB in the list of that task, or in the packet of a CLI that is
to run a command for it. When a task emits a status, `EMTST` sends it to all parents in its list and frees their OCBs;
`DISCON` frees those of a parent that ends. A task that is aborted leaves its OCBs to TKTN (`QTKTN`).

The directives that make and move OCBs are those of `Request`. What wakes the parent up, and the AST it gets, are left
out. `CLRCVL` leaves `T.RCVL` as it is: what is sent to a task between `TKILL` and `TKILL2` is linked to a packet that has
been freed, and a run ends there, as it does where something else is written astray.
-/

namespace RSX280.Connect

open Request Tokens
open Sched (Tcb.flgmsk)

universe u

variable {T : Type u} [DecidableEq T]

/-! ### State -/

/-- How a status gets to the parent: into its memory, with a special AST block when it is out of memory, or not at all when
there is no room for the block. -/
inductive Via
  | stored
  | queued
  | failed
  deriving DecidableEq

/-- A status that has been sent. -/
structure Sent (T : Type u) where
  ocb : Ocb T
  status : ℕ
  /-- the task that the long form names, with its terminal and state -/
  about : T
  size : ℕ
  via : Via
  /-- is the parent active? -/
  live : Bool

structure Conns (T : Type u) where
  kern : Kern T
  /-- `T2.OUT` -/
  out : T → Bool
  /-- `T2.ABO`, looked at in active tasks only -/
  abo : T → Bool
  /-- `T.RCVL` points to packets that `CLRCVL` has freed -/
  purged : T → Bool
  /-- the OCBs that have been made -/
  made : List (Ocb T)
  sent : List (Sent T)
  /-- those that have been freed because their parent ends -/
  dropped : List (Ocb T)

/-- `ESBSIZ` -/
def ESBSIZ (fmt : ℕ) : ℕ := if fmt = 0 then 2 else 16

/-- `EX.SEV` -/
def SEV : ℕ := 4

/-- `TKNSZ` -/
def TKNSZ : ℕ := 41

/-- `SETFLG`. The task has to be active. -/
def setflg (k : Kern T) (t : T) (e : ℕ) : Kern T :=
  if (k.tcb t).act then
    match Tcb.flgmsk e with
    | none => k
    | some mask => k.setTask t { k.tcb t with flgs := (k.tcb t).flgs ||| mask }
  else k

/-- `CLNOCB` from `cln1` on: free the OCBs of parent `bc`. -/
def cln1 (bc : T) : List (Ocb T) → Kern T → List (Ocb T) × Kern T
  | [], k => ([], k)
  | o :: os, k => if o.ptcb = bc then cln1 bc os (k.free (.ocb o)) else (o :: (cln1 bc os k).1, (cln1 bc os k).2)

/-- `CLRCVL`: free the packets of the receive list. -/
def clrcvl : List (Packet T) → Kern T → Kern T
  | [], k => k
  | p :: ps, k => clrcvl ps (k.free (.packet p))

namespace Conns

variable (s : Conns T)

def setOcbl (t : T) (l : List (Ocb T)) : Conns T :=
  { s with kern := s.kern.setTask t { s.kern.tcb t with ocbl := l } }

/-! ### Emitting a status -/

/-- `SENDST`. An event flag is set whatever becomes of the status. -/
def sendst (o : Ocb T) (status : ℕ) (room : Bool) : Conns T :=
  { s with
    kern := setflg s.kern o.ptcb o.efn
    sent := s.sent ++ [{
      ocb := o
      status := status
      about := s.kern.ctcb
      size := ESBSIZ o.fmt
      via := if !s.out o.ptcb then .stored else if room then .queued else .failed
      live := (s.kern.tcb o.ptcb).act }] }

/-- `em1`: send to each parent and free the OCB. There is an answer of the pool for each. -/
def em1 (status : ℕ) : List (Ocb T) → List Bool → Conns T → Conns T
  | [], _, s => s
  | o :: os, room, s =>
    let s := s.sendst o status (room.headD false)
    em1 status os room.tail { s with kern := s.kern.free (.ocb o) }

/-- `EMTST` -/
def emtst (t : T) (status : ℕ) (room : List Bool) : Conns T :=
  (em1 status (s.kern.tcb t).ocbl room s).setOcbl t []

/-! ### The end of a task -/

/-- `CLNOCB`: take the OCBs of parent `bc` out of the list of `x`. -/
def clnocb (bc x : T) : Conns T :=
  let l := (s.kern.tcb x).ocbl
  let c := cln1 bc l s.kern
  { s with
    kern := c.2.setTask x { c.2.tcb x with ocbl := c.1 }
    dropped := s.dropped ++ l.filter fun o => o.ptcb = bc }

/-- `DISCON` with `disc1`: the tasks that are listed in `$RLIST` and `$WLIST`. -/
def discon (bc : T) : List T → Conns T → Conns T
  | [], s => s
  | x :: xs, s => discon bc xs (s.clnocb bc x)

/-- `TKILL` for tasks other than those of `CHKSYS`. -/
def tkill (sys : T → Bool) (t : T) (listed : List T) : Conns T :=
  if sys t ∨ !(s.kern.tcb t).act ∨ s.abo t then s
  else
    let s := s.discon t listed
    let b := s.kern.tcb t
    let k := clrcvl b.rcvl s.kern
    { s with
      kern := match b.cmd with
        | none => k
        | some l => k.free (.cmd l)
      purged := Function.update s.purged t (s.purged t || !b.rcvl.isEmpty)
      abo := Function.update s.abo t true }

/-- `rqtk0` of `QTKTN`, with the packet sent: `u`, which is TKTN, gets the OCBs of `t`. -/
def rqtk0 (t u : T) (p : Packet T) : Conns T × Option Err :=
  let k := s.kern.setTask u { s.kern.tcb u with ocbl := (s.kern.tcb u).ocbl ++ (s.kern.tcb t).ocbl }
  let k := k.setTask t { k.tcb t with ocbl := [] }
  let k := k.setTask u { k.tcb u with mcr := (k.tcb u).mcr || (k.tcb t).mcr }
  let c := k.send u p
  ({ s with kern := c.1 }, c.2)

/-- `QTKTN`: tell TKTN about the end of `t`. Without TKTN, or when it cannot be told, the status is emitted. -/
def qtktn (tkn : Option T) (t : T) (code : ℕ) (r : Req T) (m : Room) (room : List Bool) : Conns T :=
  match tkn with
  | none => s.emtst t (256 * code + SEV) room
  | some u =>
    if !m.packet then s
    else
      let p : Packet T := .data (s.kern.tcb t).pri 0 TKNSZ
      match (s.kern.take (.packet p)).trqst r m u with
      | (k, some .trun) | (k, none) =>
        match rqtk0 { s with kern := k } t u p with
        | (s, none) => s
        | (s, some _) => s.emtst t (256 * code + SEV) room
      | (k, some _) => emtst { s with kern := k.free (.packet p) } t (256 * code + SEV) room

/-- `TKILL2`, which is called when the I/O of the task is done. Tasks are not removed. -/
def tkill2 (tkn : Option T) (t : T) (code : ℕ) (r : Req T) (m : Room) (room : List Bool) : Conns T :=
  let s := { s with
    kern := s.kern.setTask t { s.kern.tcb t with act := false }
    abo := Function.update s.abo t false
    purged := Function.update s.purged t false }
  let s := if code = 0 then s else s.qtktn tkn t code r m room
  if (s.kern.tcb t).fix then s else { s with kern := (s.kern.free (.ctx t)).free (.pcb t) }

/-! ### Directives -/

/-- `URECV`: take the first packet off the list. The OCB in a packet for a CLI, or what lies there, is linked to it. -/
def urecv (ok junk : Bool) : Conns T :=
  let t := s.kern.ctcb
  match (s.kern.tcb t).rcvl with
  | [] => s
  | p :: ps =>
    if !ok then s
    else
      let k := s.kern.setTask t { s.kern.tcb t with rcvl := ps }
      let k :=
        if !(k.tcb t).cli then k
        else
          match p with
          | .command _ l _ => k.setTask t { k.tcb t with ocbl := (k.tcb t).ocbl ++ l }
          | .data .. => if junk then { k with stray := true } else k
      { s with kern := k.free (.packet p) }

/-- A packet has been linked to one that was freed. -/
def trampled [Fintype T] (k : Kern T) : Bool :=
  decide (∃ x, s.purged x = true ∧ (s.kern.tcb x).act = true ∧ (k.tcb x).rcvl ≠ (s.kern.tcb x).rcvl)

/-- The OCBs among blocks of the pool. -/
def ocbs (l : List (Blk T)) : List (Ocb T) :=
  l.filterMap fun
    | .ocb o => some o
    | _ => none

/-- What a directive of `Request` leaves. -/
def call [Fintype T] (k : Kern T) : Conns T :=
  { s with
    kern := { k with stray := k.stray || s.trampled k }
    made := s.made ++ (ocbs k.held).diff (ocbs s.kern.held) }

/-- `UCONN`, with the task that `$FNTSK` finds. -/
def uconn (t : Option T) (r : Req T) (m : Room) : Kern T :=
  match t with
  | none => s.kern
  | some t => if !r.esbOk then s.kern else (s.kern.conn r m t).1

end Conns

/-! ### Runs -/

inductive Op (T : Type u)
  /-- another task runs -/
  | dspatch (t : T)
  /-- a task is checkpointed or loaded -/
  | move (t : T) (out : Bool)
  /-- a task is started by the clock -/
  | trqst (t : T) (r : Req T) (m : Room)
  | urqst (r : Req T) (m : Room)
  | rpoi (r : Req T) (m : Room)
  | uconn (t : Option T) (r : Req T) (m : Room)
  | urecv (ok junk : Bool)
  | emitst (status : ℕ) (room : List Bool)
  | exit (status : ℕ) (room : List Bool) (listed : List T)
  | tkill (t : T) (listed : List T)
  | tkill2 (t : T) (code : ℕ) (r : Req T) (m : Room) (room : List Bool)

/-- The tasks in `$RLIST` and `$WLIST` are those that are active. -/
def Listed (k : Kern T) (l : List T) : Prop := l.Nodup ∧ ∀ x, x ∈ l ↔ (k.tcb x).act = true

/-- The current task runs. -/
def Conns.Current (s : Conns T) : Prop := (s.kern.tcb s.kern.ctcb).act = true ∧ s.abo s.kern.ctcb = false

/-- The directives are called by the current task; `TKILL2` comes after `TKILL`. Nothing has been written astray. -/
def Ready (op : Op T) (s : Conns T) : Prop :=
  s.kern.stray = false ∧ s.kern.wild = [] ∧
  match op with
  | .dspatch t => (s.kern.tcb t).act = true ∧ s.abo t = false
  | .move .. => True
  | .trqst .. => True
  | .urqst .. => s.Current
  | .rpoi .. => s.Current
  | .uconn .. => s.Current
  | .urecv .. => s.Current
  | .emitst .. => s.Current
  | .exit _ _ l => s.Current ∧ Listed s.kern l
  | .tkill _ l => Listed s.kern l
  | .tkill2 t .. => (s.kern.tcb t).act = true ∧ s.abo t = true

/-- The tasks with `sys` are those of `CHKSYS`, and `tkn` is TKTN if that is installed. -/
def run [Fintype T] (sys : T → Bool) (tkn : Option T) (op : Op T) (s : Conns T) : Conns T :=
  match op with
  | .dspatch t => { s with kern := { s.kern with ctcb := t } }
  | .move t out => { s with out := Function.update s.out t out }
  | .trqst t r m => s.call (s.kern.trqst r m t).1
  | .urqst r m => s.call (s.kern.urqst r m).1
  | .rpoi r m => s.call (s.kern.rpoi r m).1
  | .uconn t r m => s.call (s.uconn t r m)
  | .urecv ok junk => s.urecv ok junk
  | .emitst st room => s.emtst s.kern.ctcb st room
  | .exit st room l => (s.emtst s.kern.ctcb st room).tkill sys s.kern.ctcb l
  | .tkill t l => s.tkill sys t l
  | .tkill2 t code r m room => s.tkill2 tkn t code r m room

def conns [Fintype T] (sys : T → Bool) (tkn : Option T) : Machine (Op T) (Conns T) where
  run := run sys tkn
  Ready := Ready

/-- No task has been connected. -/
structure Start (s : Conns T) : Prop where
  held : ∀ o, Blk.ocb o ∉ s.kern.held
  ocbl : ∀ x, (s.kern.tcb x).ocbl = []
  rcvl : ∀ x, (s.kern.tcb x).rcvl = []
  made : s.made = []
  sent : s.sent = []
  dropped : s.dropped = []

end RSX280.Connect
