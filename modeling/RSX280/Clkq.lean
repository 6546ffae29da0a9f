import Mathlib.Algebra.Group.Nat.Defs
import RSX280.Runs
import RSX280.TaskRuns

/-!
# The clock queue (`clkq.mac`)

Mark-time and run requests wait in `$CLKQ`, ordered by the time they expire. `DOCLKQ` walks
the queue from the dispatcher: `Call.next` is one turn of its loop, so the clock may tick
between any two of them. All the while the kernel is that of `RSX280.SchedRuns`.
-/

namespace RSX280.Clkq

open Sched

universe u

variable {T : Type u}

/-! ## Packets -/

/-- What a packet asks for, by `C.TYPE`. -/
inductive Req where
  /-- `CT.MKT`: mark time, with `C.EFN` and `C.AST` -/
  | mkt (efn ast : ℕ)
  /-- `CT.RUN`: run at specified time, with `C.USR`, `C.GRP` and `C.RSI` -/
  | run (usr grp rsi : ℕ)
  deriving DecidableEq, Repr

/-- A clock queue packet; `id` is history, the number of packets sent before it. -/
structure Packet (T : Type u) where
  id : ℕ
  /-- `C.TCB` -/
  tcb : T
  /-- `C.TIME`: absolute system time in ticks -/
  time : ℕ
  req : Req

/-- A mark-time packet. -/
def Packet.marks (p : Packet T) : Bool :=
  match p.req with
  | .mkt .. => true
  | .run .. => false

/-- A run packet. -/
def Packet.runs (p : Packet T) : Bool := !p.marks

/-- History: what becomes of the packets. -/
inductive Event where
  /-- a mark-time packet has expired, and `ACTMKT` is called -/
  | act (id : ℕ)
  /-- its event flag is set -/
  | flag (id : ℕ)
  /-- its AST is queued -/
  | ast (id : ℕ)
  /-- the block of the packet is returned to the pool -/
  | free (id : ℕ)
  deriving DecidableEq, Repr

/-- The packet an event belongs to. -/
def Event.id : Event → ℕ
  | .act i | .flag i | .ast i | .free i => i

/-- The kernel with the clock queue, which is `past ++ next`: while `DOCLKQ` walks it (`busy`),
IY points to the last packet of `past`. -/
structure Clock (T : Type u) where
  k : Kernel T
  /-- `TICCNT`: 32 bits -/
  ticcnt : ℕ
  /-- `TICSEC`: ticks in a second -/
  ticsec : ℕ
  busy : Bool
  past : List (Packet T)
  next : List (Packet T)
  /-- all packets that were ever queued -/
  sent : List (Packet T)
  log : List Event

/-! ## Time -/

/-- One turn of the loop of `MUL328`, with the multiplier in A and the product. The carry of the
doubling is lost, that of the addition goes to A. -/
def m1 (x : ℕ) (s : ℕ × ℕ) : ℕ × ℕ :=
  let p := s.2 * 2 % 2 ^ 32
  if s.1 < 128 then (s.1 * 2, p) else (s.1 * 2 - 256 + (p + x) / 2 ^ 32, (p + x) % 2 ^ 32)

/-- `MUL328`, which returns A and HLDE. -/
def mul328 (x a : ℕ) : ℕ × ℕ := (m1 x)^[8] (a, 0)

/-- `TMULT`: the time interval of magnitude `n` in units `c`, as A and HLDE. For a number of
ticks A is what it was. -/
def tmult (ticsec a n c : ℕ) : Option (ℕ × ℕ) :=
  let s := mul328 n ticsec
  let m := mul328 s.2 60
  let h := mul328 m.2 60
  if c = 1 then some (a, n)
  else if c = 2 then some s
  else if c = 3 then some m
  else if c = 4 then some h
  else none

/-- `ABSTIM`: the absolute time. -/
def abstim (ticcnt n : ℕ) : ℕ := (ticcnt + n) % 2 ^ 32

/-! ## The queue -/

/-- `LNKCLQ`: in front of the first packet of a later time. -/
def lnkclq (p : Packet T) : List (Packet T) → List (Packet T)
  | [] => [p]
  | q :: l => if p.time < q.time then p :: q :: l else q :: lnkclq p l

namespace Clock

/-- `$CLKQ`. -/
def clkq (c : Clock T) : List (Packet T) := c.past ++ c.next

/-- Link a packet, wherever IY stands. -/
def link (c : Clock T) (p : Packet T) : Clock T :=
  if c.past.any fun q => p.time < q.time then { c with past := lnkclq p c.past }
  else { c with next := lnkclq p c.next }

/-- A new packet is queued. -/
def send (c : Clock T) (t : T) (time : ℕ) (r : Req) : Clock T :=
  let p := ⟨c.sent.length, t, time, r⟩
  { c with sent := c.sent ++ [p] }.link p

/-- Record an event. -/
def record (c : Clock T) (e : Event) : Clock T := { c with log := e :: c.log }

variable [DecidableEq T]

/-- `cmatch`: with an AST address only that is compared. -/
def cmatch (t : T) (mkt : Bool) (efn ast : ℕ) (p : Packet T) : Bool :=
  p.tcb = t &&
    match p.req with
    | .mkt e a => mkt && (if ast = 0 then efn = 0 || e = efn else a = ast)
    | .run .. => !mkt

/-- `CLNCLQ`: unlink and free the packets that match. -/
def clnclq (c : Clock T) (t : T) (mkt : Bool) (efn ast : ℕ) : Clock T :=
  { c with
    past := c.past.filter fun p => !cmatch t mkt efn ast p
    next := c.next.filter fun p => !cmatch t mkt efn ast p
    log := ((c.clkq.filter (cmatch t mkt efn ast)).map fun p => .free p.id) ++ c.log }

/-! ## Requests -/

/-- `MRKT` by the current task; `mem` tells whether there is pool for the packet. -/
def mrkt (c : Clock T) (efn ast n units : ℕ) (mem : Bool) : Clock T × Ret :=
  match c.k.ctcb with
  | none => (c, .carry)
  | some t =>
    if !mem then (c, .err .nomem)
    else
      match tmult c.ticsec 0 n units with
      | none => (c, .err .inv)
      | some (a, n) =>
        if a ≠ 0 then (c, .err .inv)
        else if efn = 0 then (c.send t (abstim c.ticcnt n) (.mkt efn ast), .ok)
        else
          match c.k.clrflg t efn with
          | (k, .ok) => ({ c with k := k }.send t (abstim c.ticcnt n) (.mkt efn ast), .ok)
          | (k, r) => ({ c with k := k }, r)

/-- `CMKT` by the current task. -/
def cmkt (c : Clock T) (efn ast : ℕ) : Clock T :=
  match c.k.ctcb with
  | none => c
  | some t => c.clnclq t true efn ast

/-- `SRQST`: run task `t` after time `n`, and then again and again after time `rn`. A holds the
group when the first interval is converted, and the high byte of the absolute time when
the second is. -/
def srqst (c : Clock T) (t : T) (usr grp n units rn runits : ℕ) (mem : Bool) : Clock T × Ret :=
  if !mem then (c, .err .nomem)
  else
    match tmult c.ticsec grp n units with
    | none => (c, .err .inv)
    | some (a, n) =>
      if a ≠ 0 then (c, .err .inv)
      else
        let time := abstim c.ticcnt n
        match tmult c.ticsec (time / 2 ^ 24) rn runits with
        | none => (c, .err .inv)
        | some (a, rn) =>
          if a ≠ 0 then (c, .err .inv) else (c.send t time (.run usr grp rn), .ok)

variable [Fintype T]

/-! ## `DOCLKQ` -/

/-- The carry `QAST` returns for the event of a mark-time packet: no event, ASTs disabled, no
context block, or a task that is not on the lists. -/
def qastCy (k : Kernel T) (t : T) (ast : ℕ) (dat : List UInt8) (mem : Bool) : Bool :=
  match (k.tcb t).qast .ck ast dat mem with
  | none => true
  | some b => b.setast.ret = .carry || (b.setast.goto = .ready && (k.fntcb t).isNone)

/-- `ACTMKT` up to the event flag. -/
def actflg (c : Clock T) (p : Packet T) (efn : ℕ) : Clock T :=
  if efn = 0 then c
  else
    let r := c.k.setflg p.tcb efn
    if r.2 = .ok then { c with k := r.1 }.record (.flag p.id) else { c with k := r.1 }

/-- `ACTMKT`, with the carry it returns: set the event flag and queue the AST. -/
def actmkt (c : Clock T) (p : Packet T) (efn ast : ℕ) (mem : Bool) : Clock T × Bool :=
  let c := (c.record (.act p.id)).actflg p efn
  if ast = 0 then (c, false)
  else
    let c' := { c with k := c.k.qast p.tcb .ck ast (Kernel.word efn) mem }
    (if ((c.k.tcb p.tcb).qast .ck ast (Kernel.word efn) mem).isSome then c'.record (.ast p.id)
      else c', qastCy c.k p.tcb ast (Kernel.word efn) mem)

/-- `ACTRUN`, with the carry it returns: request the task, if it is in the directory. -/
def actrun (c : Clock T) (p : Packet T) (ok : Bool) : Clock T × Bool :=
  if p.tcb ∈ c.k.tlist then
    let r := c.k.trqst2 p.tcb false ok
    ({ c with k := r.1 }, r.2 ≠ .ok)
  else (c, true)

/-- One turn of the loop of `DOCLKQ`. A packet that fails is skipped, a run packet with a
reschedule interval is queued again, any other is freed. -/
def step (c : Clock T) (mem ok : Bool) : Clock T :=
  match c.next with
  | [] => { c with busy := false, past := [], next := c.clkq }
  | p :: l =>
    if c.ticcnt < p.time then { c with busy := false, past := [], next := c.clkq }
    else
      match p.req with
      | .mkt efn ast =>
        match c.actmkt p efn ast mem with
        | (c, true) => { c with past := c.past ++ [p], next := l }
        | (c, false) => { c with next := l }.record (.free p.id)
      | .run _ _ rsi =>
        match c.actrun p ok with
        | (c, true) => { c with past := c.past ++ [p], next := l }
        | (c, false) =>
          if rsi = 0 then { c with next := l }.record (.free p.id)
          else { c with next := l }.link { p with time := abstim p.time rsi }

end Clock

/-! ## Runs -/

section Runs

variable [DecidableEq T] [Fintype T]

/-- What happens to the clock queue. -/
inductive Call (T : Type u) where
  /-- an operation of the rest of the kernel -/
  | sys (op : Op T)
  | mrkt (efn ast n units : ℕ) (mem : Bool)
  | cmkt (efn ast : ℕ)
  | srqst (t : T) (usr grp n units rn runits : ℕ) (mem : Bool)
  /-- `TCSRQ`: cancel the run requests of a task -/
  | tcsrq (t : T)
  | tick
  /-- `DOCLKQ` begins -/
  | doclkq
  /-- and looks at a packet -/
  | next (mem ok : Bool)

/-- An operation of the rest of the kernel: `TKILL` and `$REMTK` purge the queue. -/
def Clock.sys (c : Clock T) (op : Op T) : Clock T :=
  let c' := match op.kill c.k with
    | none => c
    | some (t, _) => c.clnclq t true 0 0
  let c' := match op with
    | .remtk t => if (c.k.remtk t).2 = Ret.ok then c'.clnclq t false 0 0 else c'
    | _ => c'
  { c' with k := op.run c.k }

/-- The kernel with the clock queue. `DOCLKQ` is not interrupted but by the clock. -/
def clock : Machine (Call T) (Clock T) where
  run
    | .sys op, c => c.sys op
    | .mrkt efn ast n units mem, c => (c.mrkt efn ast n units mem).1
    | .cmkt efn ast, c => c.cmkt efn ast
    | .srqst t usr grp n units rn runits mem, c => (c.srqst t usr grp n units rn runits mem).1
    | .tcsrq t, c => c.clnclq t false 0 0
    | .tick, c => { c with ticcnt := abstim c.ticcnt 1 }
    | .doclkq, c => { c with busy := true }
    | .next mem ok, c => c.step mem ok
  Ready
    | .sys op, c => c.busy = false ∧ op.Ready c.k
    | .mrkt .., c => c.busy = false ∧ ∀ t, c.k.ctcb = some t → c.k.Running t
    | .cmkt .., c => c.busy = false ∧ ∀ t, c.k.ctcb = some t → c.k.Running t
    | .srqst t .., c => c.busy = false ∧ t ∈ c.k.tlist
    | .tcsrq _, c | .doclkq, c => c.busy = false
    | .tick, _ => True
    | .next .., c => c.busy = true

end Runs

end RSX280.Clkq
