import RSX280.Queue
import RSX280.Runs
import Mathlib.Data.Nat.Notation
import Mathlib.Logic.Function.Basic
import Mathlib.Data.UInt

/-!
# Attached units (`qio.mac`)

A request for a device waits in the packet list of its controller until the driver calls
`GETPKT`, which passes over the units attached to other tasks. `IO.ATT` and `IO.DET` take
effect there, when they are dequeued. A request with `TF.WBT` breaks through to an attached
terminal, whoever makes it. `exclusive_of_reach` says that an attached task has the unit for
itself apart from that, as long as the bit is not set in an `IO.ATT` or `IO.DET`, for which it
has no meaning.
-/

namespace RSX280.Attach

universe u v w

/-! ## Packets and units -/

/-- The function of a request. -/
inductive Func where
  /-- `IO.ATT` -/
  | att
  /-- `IO.DET` -/
  | det
  /-- any other, by its code -/
  | io (code : ℕ)
  deriving DecidableEq, Repr

/-- `TF.WBT` -/
def tfWbt : UInt8 := 8

/-- An I/O packet. -/
structure Pkt (T : Type u) (U : Type v) where
  /-- `I.PRI` -/
  pri : ℕ
  /-- `I.TCB` -/
  tcb : T
  /-- `I.UCB` -/
  ucb : U
  /-- `Q.FUNC` -/
  func : Func
  /-- `Q.SUBF` -/
  subf : UInt8
  deriving DecidableEq

/-- Is the write pass-thru bit set? -/
def Pkt.wbt {T : Type u} {U : Type v} (p : Pkt T U) : Bool := p.subf &&& tfWbt != 0

/-- What does not change: the units, and which tasks are privileged (`GETPKT` does not ask). -/
structure Config (T : Type u) (U : Type v) (S : Type w) where
  /-- `U.SCB` -/
  scb : U → S
  /-- `DV.TTY` -/
  tty : U → Bool
  /-- `UC.ATT`: the driver wants to be told -/
  ctlatt : U → Bool
  /-- `TA.PRV` -/
  prv : T → Bool

/-- What happens at a unit. -/
inductive Event (T : Type u) where
  /-- an `IO.ATT` of the task is dequeued -/
  | attach (t : T)
  /-- an `IO.DET` -/
  | detach (t : T)
  /-- any other packet of the task is started, with `TF.WBT` or without -/
  | start (t : T) (wbt : Bool)
  /-- the task ends while attached -/
  | gone (t : T)
  deriving DecidableEq

structure Kernel (T : Type u) (U : Type v) (S : Type w) where
  /-- `S.PKTL` -/
  pktl : S → List (Pkt T U)
  /-- `S.CPKT`; there is one as long as `S.ST` says busy -/
  cpkt : S → Option (Pkt T U)
  /-- `U.ATT` -/
  att : U → Option T
  /-- what has happened at each unit, the latest first -/
  log : U → List (Event T)

variable {T : Type u} {U : Type v} {S : Type w} [DecidableEq T] [DecidableEq U] [DecidableEq S]
/-- Nothing is queued or attached. -/
def Kernel.initial : Kernel T U S := ⟨fun _ => [], fun _ => none, fun _ => none, fun _ => []⟩

namespace Kernel

variable (c : Config T U S) (k : Kernel T U S)

/-- `IOREQ`: queue the packet by priority. -/
def ioreq (p : Pkt T U) : Kernel T U S :=
  let l := Queue.enqueue Pkt.pri p (k.pktl (c.scb p.ucb))
  { k with pktl := Function.update k.pktl (c.scb p.ucb) l }

/-- May `GETPKT` take the packet? -/
def free (p : Pkt T U) : Bool :=
  match k.att p.ucb with
  | none => true
  | some t => c.tty p.ucb && p.wbt || decide (p.tcb = t)

/-- The packet is dequeued, which leaves `rest` at the controller. It becomes the current one,
unless it is an attach or detach that the driver need not see. -/
def take (s : S) (p : Pkt T U) (rest : List (Pkt T U)) : Kernel T U S :=
  let k := { k with pktl := Function.update k.pktl s rest }
  let started := { k with cpkt := Function.update k.cpkt (c.scb p.ucb) (some p) }
  match p.func with
  | .att =>
    let k := if c.ctlatt p.ucb then started else k
    { k with
      att := Function.update k.att p.ucb (some p.tcb)
      log := Function.update k.log p.ucb (.attach p.tcb :: k.log p.ucb) }
  | .det =>
    let k := if c.ctlatt p.ucb then started else k
    { k with
      att := Function.update k.att p.ucb none
      log := Function.update k.log p.ucb (.detach p.tcb :: k.log p.ucb) }
  | .io _ =>
    { started with log := Function.update k.log p.ucb (.start p.tcb p.wbt :: k.log p.ucb) }

/-- `GETPKT`, one pass: after an attach or detach that the driver does not see, it starts
again. -/
def getpkt (u : U) : Kernel T U S :=
  if (k.cpkt (c.scb u)).isSome then k
  else match (k.pktl (c.scb u)).find? (Kernel.free c k) with
    | none => k
    | some p => Kernel.take c k (c.scb u) p ((k.pktl (c.scb u)).eraseP (Kernel.free c k))

/-- `IODONE`: the current packet is done. -/
def iodone (u : U) : Kernel T U S :=
  { k with cpkt := Function.update k.cpkt (c.scb u) none }

/-- `CLNUCB`: delete the packets of a task from the unit's list. -/
def clnucb (t : T) (u : U) : Kernel T U S :=
  let l := (k.pktl (c.scb u)).filter fun p => decide (p.tcb ≠ t)
  { k with pktl := Function.update k.pktl (c.scb u) l }

/-- `CLNATT`: detach a task that ends. -/
def clnatt (t : T) (u : U) : Kernel T U S :=
  if k.att u = some t then
    { k with
      att := Function.update k.att u none
      log := Function.update k.log u (.gone t :: k.log u) }
  else k

end Kernel

/-! ## Runs -/

/-- What happens to the units. -/
inductive Op (T : Type u) (U : Type v) where
  /-- a request is accepted -/
  | qio (p : Pkt T U)
  /-- `IO.KIL` -/
  | iokil (t : T) (u : U)
  /-- the driver asks for the next packet -/
  | getpkt (u : U)
  /-- it has processed the current one -/
  | iodone (u : U)
  /-- `IOKILL` comes to the unit when the task ends -/
  | iokill (t : T) (u : U)

variable (c : Config T U S)

def machine : Machine (Op T U) (Kernel T U S) where
  Ready _ _ := True
  run
    | .qio p, k => Kernel.ioreq c k p
    | .iokil t u, k => Kernel.clnucb c k t u
    | .getpkt u, k => Kernel.getpkt c k u
    | .iodone u, k => Kernel.iodone c k u
    | .iokill t u, k => (Kernel.clnucb c k t u).clnatt t u

/-- No attach or detach of a terminal has the bit for break-through writes. -/
def Pkt.Plain (p : Pkt T U) : Prop :=
  c.tty p.ucb = true → p.func = .att ∨ p.func = .det → p.wbt = false

/-- The requests are plain. -/
def Op.Plain : Op T U → Kernel T U S → Prop
  | .qio p, _ => p.Plain c
  | _, _ => True

variable {c}

/-- While `l` happens at `u`, `t` stays attached and what is started is its own or breaks
through; or `l` says that it has detached or is gone. -/
def Keeps (c : Config T U S) (u : U) (t : T) (l : List (Event T)) (att : Option T) : Prop :=
  .detach t ∉ l → .gone t ∉ l →
    att = some t ∧ ∀ s b, .start s b ∈ l → s = t ∨ c.tty u = true ∧ b = true

/-- What `t`, attached to `u`, may expect to happen next. -/
def Expected (c : Config T U S) (u : U) (t : T) (e : Event T) (att : Option T) : Prop :=
  e = .detach t ∨ e = .gone t ∨
    att = some t ∧ ∀ s b, e = .start s b → s = t ∨ c.tty u = true ∧ b = true

omit [DecidableEq T] [DecidableEq U] [DecidableEq S] in
theorem Keeps.nil {u : U} {t : T} : Keeps c u t [] (some t) :=
  fun _ _ => ⟨rfl, fun _ _ h => nomatch h⟩

omit [DecidableEq T] [DecidableEq U] [DecidableEq S] in
/-- One more thing happens: what it does may depend on `t` being attached still. -/
theorem Keeps.cons {u : U} {t : T} {l : List (Event T)} {o o' : Option T} {e : Event T}
    (h : Keeps c u t l o) (he : o = some t → Expected c u t e o') : Keeps c u t (e :: l) o' := by
  intro hdet hgone
  rw [List.mem_cons, not_or] at hdet hgone
  obtain ⟨ho, hl⟩ := h hdet.2 hgone.2
  rcases he ho with rfl | rfl | ⟨ho', hs⟩
  · exact absurd rfl hdet.1
  · exact absurd rfl hgone.1
  · refine ⟨ho', fun s b hs' => ?_⟩
    rcases List.mem_cons.mp hs' with hs' | hs'
    · exact hs s b hs'.symm
    · exact hl s b hs'

/-- What a step does at a unit: nothing, or one thing that an attached task may expect. -/
def Fair (c : Config T U S) (k k' : Kernel T U S) (u : U) : Prop :=
  (k'.log u = k.log u ∧ k'.att u = k.att u) ∨
    ∃ e, k'.log u = e :: k.log u ∧ ∀ t, k.att u = some t → Expected c u t e (k'.att u)

namespace Kernel

variable {k : Kernel T U S}

/-- The packets that wait are plain. -/
def Plain (c : Config T U S) (k : Kernel T U S) : Prop := ∀ s, ∀ p ∈ k.pktl s, p.Plain c

omit [DecidableEq S] in
theorem fair_clnatt (t : T) (u v : U) : Fair c k (k.clnatt t u) v := by
  rw [clnatt]
  split
  · next hatt =>
    rcases eq_or_ne v u with rfl | hv
    · refine Or.inr ⟨.gone t, Function.update_self .., fun s hs => Or.inr (Or.inl ?_)⟩
      rw [hatt] at hs
      rw [Option.some.inj hs]
    · exact Or.inl ⟨Function.update_of_ne hv .., Function.update_of_ne hv ..⟩
  · exact Or.inl ⟨rfl, rfl⟩

/-- A packet is taken at a unit attached to another task: it breaks through. -/
theorem fair_take {s : S} {p : Pkt T U} {rest : List (Pkt T U)} (hp : p.Plain c)
    (h : ∀ t, k.att p.ucb = some t → p.tcb ≠ t → c.tty p.ucb = true ∧ p.wbt = true) (u : U) :
    Fair c k (Kernel.take c k s p rest) u := by
  have hne : ∀ {σ : Type _} (f : U → σ) (x : σ), u ≠ p.ucb → Function.update f p.ucb x u = f u :=
    fun f x hu => Function.update_of_ne hu ..
  -- an attach or detach does not
  have hown : p.func = .att ∨ p.func = .det → ∀ t, k.att p.ucb = some t → p.tcb = t := by
    intro hf t ht
    by_contra hne
    obtain ⟨htty, hwbt⟩ := h t ht hne
    exact absurd hwbt (by rw [hp htty hf]; exact Bool.false_ne_true)
  rw [Fair, take]
  dsimp only
  cases hf : p.func with
  | att =>
    dsimp only
    rcases eq_or_ne u p.ucb with rfl | hu
    · refine Or.inr ⟨.attach p.tcb, by split <;> exact Function.update_self .., fun t ht => ?_⟩
      refine Or.inr (Or.inr ⟨?_, fun s b hs => nomatch hs⟩)
      rw [← hown (Or.inl hf) t ht]
      exact Function.update_self ..
    · exact Or.inl ⟨by split <;> exact hne _ _ hu, by split <;> exact hne _ _ hu⟩
  | det =>
    dsimp only
    rcases eq_or_ne u p.ucb with rfl | hu
    · refine Or.inr ⟨.detach p.tcb, by split <;> exact Function.update_self .., fun t ht => ?_⟩
      exact Or.inl (congrArg _ (hown (Or.inr hf) t ht))
    · exact Or.inl ⟨by split <;> exact hne _ _ hu, by split <;> exact hne _ _ hu⟩
  | io n =>
    dsimp only
    rcases eq_or_ne u p.ucb with rfl | hu
    · refine Or.inr ⟨.start p.tcb p.wbt, Function.update_self .., fun t ht => ?_⟩
      refine Or.inr (Or.inr ⟨ht, fun s b hs => ?_⟩)
      obtain ⟨rfl, rfl⟩ := Event.start.inj hs
      by_cases htcb : p.tcb = t
      · exact Or.inl htcb
      · exact Or.inr (h t ht htcb)
    · exact Or.inl ⟨hne _ _ hu, rfl⟩

/-- A packet is taken if its task is attached, or breaks through. -/
theorem fair_getpkt (hk : k.Plain c) (u v : U) : Fair c k (Kernel.getpkt c k u) v := by
  rw [getpkt]
  split
  · exact Or.inl ⟨rfl, rfl⟩
  split
  · exact Or.inl ⟨rfl, rfl⟩
  · next p hp =>
    refine fair_take (hk _ p (List.mem_of_find?_eq_some hp)) (fun t ht htcb => ?_) v
    have hfree := List.find?_some hp
    rw [free, ht, Bool.or_eq_true, Bool.and_eq_true, decide_eq_true_iff] at hfree
    exact hfree.resolve_right htcb

omit [DecidableEq T] [DecidableEq U] in
/-- One list of packets is replaced by packets that were there or are plain. -/
theorem Plain.update {k' : Kernel T U S} (hk : k.Plain c) {s : S} {l : List (Pkt T U)}
    (hl : ∀ p ∈ l, p ∈ k.pktl s ∨ p.Plain c) (h : k'.pktl = Function.update k.pktl s l) :
    k'.Plain c := by
  intro s' p hp
  rw [h] at hp
  rcases eq_or_ne s' s with rfl | hs
  · rw [Function.update_self] at hp
    exact (hl p hp).elim (hk s' p) id
  · rw [Function.update_of_ne hs] at hp
    exact hk s' p hp

omit [DecidableEq T] in
theorem take_pktl (s : S) (p : Pkt T U) (rest : List (Pkt T U)) :
    (Kernel.take c k s p rest).pktl = Function.update k.pktl s rest := by
  rw [take]
  dsimp only
  split
  · split <;> rfl
  · split <;> rfl
  · rfl

theorem plain_run {op : Op T U} (hk : k.Plain c) (h : op.Plain c k) :
    ((machine c).run op k).Plain c := by
  have hcln : ∀ t u, (Kernel.clnucb c k t u).Plain c := fun t u =>
    hk.update (fun p hp => Or.inl (List.mem_filter.mp hp).1) rfl
  cases op with
  | qio p =>
    refine hk.update (fun q hq => ?_) rfl
    rcases Queue.mem_enqueue.mp hq with rfl | hq
    · exact Or.inr h
    · exact Or.inl hq
  | iokil t u => exact hcln t u
  | getpkt u =>
    change (Kernel.getpkt c k u).Plain c
    rw [getpkt]
    split
    · exact hk
    split
    · exact hk
    · exact hk.update (fun q hq => Or.inl (List.mem_of_mem_eraseP hq)) (take_pktl ..)
  | iodone u => exact hk
  | iokill t u =>
    change (clnatt (Kernel.clnucb c k t u) t u).Plain c
    rw [clnatt]
    split <;> exact hcln t u

theorem fair_run (op : Op T U) (hk : k.Plain c) (u : U) : Fair c k ((machine c).run op k) u := by
  cases op with
  | qio p => exact Or.inl ⟨rfl, rfl⟩
  | iokil t v => exact Or.inl ⟨rfl, rfl⟩
  | getpkt v => exact fair_getpkt hk v u
  | iodone v => exact Or.inl ⟨rfl, rfl⟩
  | iokill t v => exact fair_clnatt (k := Kernel.clnucb c k t v) t v u

theorem plain_of_reach {k' : Kernel T U S} (hk : k.Plain c)
    (h : Reach ((machine c).Step (Op.Plain c)) k k') : k'.Plain c := by
  refine h.invariant hk fun a b ha hab => ?_
  obtain ⟨op, -, hop, rfl⟩ := hab
  exact plain_run ha hop

end Kernel

/-- **A task that is attached has the unit for itself.** In every run whose attach and detach
requests are plain: while task `t` is attached to unit `u`, does not detach and does not end, it
stays attached, and what is started at the unit is its own or breaks through to a terminal. -/
theorem exclusive_of_reach {k k' : Kernel T U S}
    (h : Reach ((machine c).Step (Op.Plain c)) .initial k)
    (h' : Reach ((machine c).Step (Op.Plain c)) k k') {u : U} {t : T} (ht : k.att u = some t) :
    ∃ l, k'.log u = l ++ k.log u ∧ Keeps c u t l (k'.att u) := by
  have hk : k.Plain c := Kernel.plain_of_reach (fun s p hp => absurd hp List.not_mem_nil) h
  clear h
  induction h' with
  | refl => exact ⟨[], rfl, ht ▸ Keeps.nil⟩
  | tail hreach hstep ih =>
    obtain ⟨l, hl, hkeep⟩ := ih
    obtain ⟨op, -, -, rfl⟩ := hstep
    rcases Kernel.fair_run op (Kernel.plain_of_reach hk hreach) u with
      ⟨hlog, hatt⟩ | ⟨e, hlog, he⟩
    · exact ⟨l, hlog.trans hl, hatt ▸ hkeep⟩
    · exact ⟨e :: l, hlog.trans (congrArg _ hl), hkeep.cons (he t)⟩

/-- A terminal, and tasks that are not privileged. -/
def terminal : Config ℕ ℕ ℕ := ⟨fun _ => 0, fun _ => true, fun _ => true, fun _ => false⟩

/-- A task queues a request, and the driver asks for a packet and processes it. -/
def request (t : ℕ) (func : Func) (subf : UInt8) : List (Op ℕ ℕ) :=
  [.qio ⟨100, t, 0, func, subf⟩, .getpkt 0, .iodone 0]

/-- Task 1 attaches. -/
def attached : Kernel ℕ ℕ ℕ := (machine terminal).runAll (request 1 .att 0) .initial

theorem admits_request {t : ℕ} {func : Func} {subf : UInt8} {k : Kernel ℕ ℕ ℕ}
    (h : Pkt.Plain terminal (⟨100, t, 0, func, subf⟩ : Pkt ℕ ℕ)) :
    (machine terminal).Admits (Op.Plain terminal) (request t func subf) k :=
  ⟨⟨trivial, h⟩, ⟨trivial, trivial⟩, ⟨trivial, trivial⟩, trivial⟩

/-- A write of task 2 waits while task 1 is attached. -/
theorem exclusive_of_reach_write :
    ∃ l, ((machine terminal).runAll (request 2 (.io 4) 0) attached).log 0 = l ++ attached.log 0 ∧
      Keeps terminal 0 1 l (((machine terminal).runAll (request 2 (.io 4) 0) attached).att 0) :=
  exclusive_of_reach (Machine.reach_runAll (admits_request fun _ _ => by decide))
    (Machine.reach_runAll (admits_request fun _ _ => by decide)) (by decide)

/-- With `TF.WBT` a write of task 2, which is not privileged, is started while task 1 is
attached. -/
theorem start_of_wbt : ∃ k : Kernel ℕ ℕ ℕ,
    Reach ((machine terminal).Step (Op.Plain terminal)) attached k ∧ attached.att 0 = some 1 ∧
      k.log 0 = [.start 2 true] ++ attached.log 0 ∧ terminal.prv 2 = false :=
  ⟨(machine terminal).runAll (request 2 (.io 4) 8) attached,
    Machine.reach_runAll (admits_request fun _ h => by simp at h), by decide,
    by decide, rfl⟩

end RSX280.Attach
