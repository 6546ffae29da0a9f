import RSX280.ChkptSpace

/-!
# What checkpointing keeps

Where a task is on its way between request and end is its `Spot`; `Tcb.Fine` says which
status bits go with which spot. `Kernel.Inv` puts this together with the lists, the memory
and the checkpoint space. Three of its parts hold only if the run meets a condition, and
`Meets` names the three: the order of the wait lists, that the memory of a task with I/O
outstanding stays, and that no task is given up while it holds checkpoint space.
-/

namespace RSX280.Chkpt

open Queue Spans Subpars

universe u v w

/-- The conditions a run may meet. -/
structure Meets where
  order : Prop
  steady : Prop
  tidy : Prop

/-- Where a task is. -/
inductive Spot where
  /-- not active -/
  | off
  /-- in the wait list of its partition -/
  | wait
  /-- in the queue of the loader -/
  | queue
  /-- being loaded, read or written -/
  | load
  /-- in memory -/
  | core
  /-- not loaded because of an error, and not aborted by it -/
  | stuck
  /-- aborted, and on no list -/
  | lost
  /-- ended, but not its memory -/
  | dead
  deriving DecidableEq

/-- A task in order at a spot. `n` is the number of its I/O requests, `sys` tells whether
its partition is system-controlled and `m` whether it has memory there. -/
def Tcb.Fine {P : Type v} (q : Meets) (b : Tcb P) (n : ℕ) (sys : Bool) (m : Prop) :
    Spot → Prop
  | .off => b.act = false ∧ b.fix = false ∧ b.cpcb = none ∧ n = 0 ∧ ¬m
  | .wait => b.act = true ∧ b.fix = false ∧ b.abo = false ∧ b.ckp = b.cpcb.isSome ∧ n = 0 ∧
    b.out = true ∧ ¬m ∧ b.ldr = false
  | .queue => b.act = true ∧ b.fix = false ∧ b.abo = false ∧ b.ckp = b.cpcb.isSome ∧ n = 0 ∧
    (b.out || b.ckp) = true ∧ (sys = true → m) ∧ b.ldr = false
  | .load => b.act = true ∧ b.fix = false ∧ b.ckp = b.cpcb.isSome ∧ n = 0 ∧
    (b.out || b.ckp) = true ∧ (sys = true → m) ∧ b.ldr = false
  | .core => (b.act || b.fix) = true ∧ b.out = false ∧ b.ckp = false ∧ b.cpcb = none ∧
    (b.act = true → b.abo = true → n ≠ 0) ∧ (b.act = false → n = 0) ∧ (sys = true → m) ∧
    b.ldr = false
  | .stuck => b.act = true ∧ b.fix = false ∧ b.abo = false ∧ b.ckp = b.cpcb.isSome ∧ n = 0 ∧
    (b.out || b.ckp) = true ∧ b.ldr = true ∧ (q.tidy → b.cpcb = none)
  | .lost => b.act = true ∧ b.abo = true ∧ n = 0 ∧ (q.tidy → b.cpcb = none) ∧
    (b.fix = true → b.out = false ∧ b.ckp = false ∧ b.cpcb = none ∧ (sys = true → m) ∧
      b.ldr = false)
  | .dead => b.act = false ∧ b.abo = true ∧ b.fix = false ∧ n = 0 ∧ b.cpcb = none

namespace Kernel

variable {T : Type u} {P : Type v} {F : Type w}

/-- The lists, with the spot of every task on them. -/
structure Lists (k : Kernel T P F) (sp : T → Spot) : Prop where
  wait : ∀ p t, t ∈ k.wait p ↔ sp t = .wait ∧ (k.tcb t).pcb = p
  queue : ∀ t, t ∈ k.ldq ↔ sp t = .queue
  load : ∀ t, k.loading = some t ↔ sp t = .load
  waitNodup : ∀ p, (k.wait p).Nodup
  queueNodup : k.ldq.Nodup

/-- The memory of the partitions. -/
structure Mem (k : Kernel T P F) : Prop where
  laid : ∀ p, (k.main p).sys = true → (k.main p).Laid
  /-- register E holds the size of a subpartition -/
  small : ∀ p t, ((k.main p).pcb t).size < 256
  home : ∀ p t, t ∈ (k.main p).sub → (k.main p).sys = true ∧ (k.tcb t).pcb = p

/-- Is the partition of the task system-controlled? -/
def sys (k : Kernel T P F) (t : T) : Bool := (k.main (k.tcb t).pcb).sys

/-- Has the task memory in a system-controlled partition? -/
def linked (k : Kernel T P F) (t : T) : Prop := t ∈ (k.main (k.tcb t).pcb).sub

/-- Is the partition of the task assigned to it? -/
def owns (k : Kernel T P F) (t : T) : Prop :=
  k.bsy (k.tcb t).pcb = true ∧ k.own (k.tcb t).pcb = some t

/-- Does the task take up a partition that is not system-controlled? -/
def Takes (k : Kernel T P F) (sp : T → Spot) (t : T) : Prop :=
  k.sys t = false ∧ sp t ≠ .off ∧ sp t ≠ .wait

/-- The checkpoint space is in order. -/
abbrev Spaced (k : Kernel T P F) : Prop :=
  Space k.file k.home k.count k.freed fun t => (k.tcb t).cpcb

/-- Everything is in order; `x` may be a task that has ended but for its memory. -/
structure Inv (q : Meets) (k : Kernel T P F) (sp : T → Spot) (x : Option T) : Prop where
  lists : k.Lists sp
  mem : k.Mem
  space : k.Spaced
  fine : ∀ t, (k.tcb t).Fine q (k.io t).length (k.sys t) (k.linked t) (sp t)
  dead : ∀ t, sp t = .dead → x = some t
  ioc : ∀ t, (k.tcb t).ioc = (k.io t).length ∧ (k.tcb t).ioc < 256
  owns : q.steady → ∀ t, k.Takes sp t → k.owns t
  steady : q.steady → ∀ t, ∀ r ∈ k.io t, r.1 = (k.region t).1 ∧ r.2 ≤ (k.region t).2
  order : q.order → ∀ p, Falling (fun t => (k.tcb t).pri) (k.wait p)
  given : q.order → ∀ p, ∀ g ∈ k.given p, ∀ n ∈ g.fit, n ≤ g.pri

variable [DecidableEq T] {q : Meets} {k k' : Kernel T P F} {sp sp' : T → Spot} {x : Option T}
  {t u : T} {p : P} {b : Tcb P} {m : Main T}

@[simp] theorem setTcb_self (k : Kernel T P F) (t : T) (b : Tcb P) : (k.setTcb t b).tcb t = b :=
  Function.update_self ..

theorem setTcb_of_ne (k : Kernel T P F) (b : Tcb P) (h : u ≠ t) :
    (k.setTcb t b).tcb u = k.tcb u :=
  Function.update_of_ne h ..

@[simp] theorem setTcb_setTcb (k : Kernel T P F) (t : T) (b b' : Tcb P) :
    (k.setTcb t b).setTcb t b' = k.setTcb t b' := by
  simp [setTcb]

/-! ## One task changes -/

omit [DecidableEq T] in
/-- An operation on one task: what has to be shown. -/
theorem Inv.change (h : k.Inv q sp x) (t : T) {x' : Option T} (hl : k'.Lists sp') (hm : k'.Mem)
    (hs : k'.Spaced)
    (hrest : ∀ u, u ≠ t → sp' u = sp u ∧ k'.tcb u = k.tcb u ∧ k'.io u = k.io u ∧
      k'.sys u = k.sys u ∧ (k'.linked u ↔ k.linked u))
    (hfine : (k'.tcb t).Fine q (k'.io t).length (k'.sys t) (k'.linked t) (sp' t))
    (hdead : ∀ u, sp' u = .dead → x' = some u)
    (hioc : (k'.tcb t).ioc = (k'.io t).length ∧ (k'.tcb t).ioc < 256)
    (howns : q.steady → ∀ u, (u ≠ t → k.owns u) → k'.Takes sp' u → k'.owns u)
    (hregion : q.steady → ∀ u, u ≠ t → k.io u ≠ [] → k'.region u = k.region u)
    (hsteady : q.steady → ∀ r ∈ k'.io t, r.1 = (k'.region t).1 ∧ r.2 ≤ (k'.region t).2)
    (horder : q.order → ∀ p, Falling (fun t => (k'.tcb t).pri) (k'.wait p))
    (hgiven : q.order → ∀ p, ∀ g ∈ k'.given p, ∀ n ∈ g.fit, n ≤ g.pri) :
    k'.Inv q sp' x' where
  lists := hl
  mem := hm
  space := hs
  fine u := by
    rcases eq_or_ne u t with rfl | hu
    · exact hfine
    · obtain ⟨h₁, h₂, h₃, h₄, h₅⟩ := hrest u hu
      rw [h₁, h₂, h₃, h₄, propext h₅]
      exact h.fine u
  dead := hdead
  ioc u := by
    rcases eq_or_ne u t with rfl | hu
    · exact hioc
    · obtain ⟨-, h₂, h₃, -⟩ := hrest u hu
      rw [h₂, h₃]
      exact h.ioc u
  owns hq u hu := by
    refine howns hq u (fun hne => h.owns hq u ?_) hu
    obtain ⟨h₁, -, -, h₄, -⟩ := hrest u hne
    rwa [Takes, h₁, h₄] at hu
  steady hq u r hr := by
    rcases eq_or_ne u t with rfl | hu
    · exact hsteady hq r hr
    · obtain ⟨-, -, h₃, -⟩ := hrest u hu
      rw [h₃] at hr
      rw [hregion hq u hu (List.ne_nil_of_mem hr)]
      exact h.steady hq u r hr
  order := horder
  given := hgiven

/-- Task `t` goes to spot `s`, and on the lists accordingly. -/
theorem Lists.move (hl : k.Lists sp) (t : T) (s : Spot)
    (hpcb : ∀ u, (k'.tcb u).pcb = (k.tcb u).pcb)
    (hw : ∀ p u, u ≠ t → (u ∈ k'.wait p ↔ u ∈ k.wait p))
    (hwt : ∀ p, t ∈ k'.wait p ↔ s = .wait ∧ (k.tcb t).pcb = p)
    (hq : ∀ u, u ≠ t → (u ∈ k'.ldq ↔ u ∈ k.ldq)) (hqt : t ∈ k'.ldq ↔ s = .queue)
    (hd : ∀ u, u ≠ t → (k'.loading = some u ↔ k.loading = some u))
    (hdt : k'.loading = some t ↔ s = .load) (hwn : ∀ p, (k'.wait p).Nodup)
    (hqn : k'.ldq.Nodup) : k'.Lists (Function.update sp t s) where
  wait p u := by
    rw [hpcb]
    rcases eq_or_ne u t with rfl | hu
    · rw [Function.update_self]
      exact hwt p
    · rw [Function.update_of_ne hu]
      exact (hw p u hu).trans (hl.wait p u)
  queue u := by
    rcases eq_or_ne u t with rfl | hu
    · rw [Function.update_self]
      exact hqt
    · rw [Function.update_of_ne hu]
      exact (hq u hu).trans (hl.queue u)
  load u := by
    rcases eq_or_ne u t with rfl | hu
    · rw [Function.update_self]
      exact hdt
    · rw [Function.update_of_ne hu]
      exact (hd u hu).trans (hl.load u)
  waitNodup := hwn
  queueNodup := hqn

omit [DecidableEq T] in
/-- A change of the memory of one task, as the others see it. -/
theorem rest_of_changed (hpcb : ∀ u, (k'.tcb u).pcb = (k.tcb u).pcb)
    (hc : ∀ p, (k.main p).Changed (k'.main p) t) (hu : u ≠ t) :
    k'.sys u = k.sys u ∧ (k'.linked u ↔ k.linked u) ∧ k'.region u = k.region u := by
  have hp := hc (k.tcb u).pcb
  refine ⟨?_, ?_, ?_⟩
  · rw [sys, sys, hpcb, hp.sys]
  · rw [linked, linked, hpcb, hp.mem u hu]
  · simp only [region, hpcb, hp.sys, hp.pcb u hu, hp.base, hp.size]

omit [DecidableEq T] in
theorem changed_setMain [DecidableEq P] (hm : (k.main p).Changed m t) (p' : P) :
    (k.main p').Changed ((k.setMain p m).main p') t := by
  dsimp only [setMain]
  rcases eq_or_ne p' p with rfl | hp
  · rwa [Function.update_self]
  · rw [Function.update_of_ne hp]
    exact Main.changed_refl ..

omit [DecidableEq T] in
/-- The subpartition of one task is changed. -/
theorem Mem.setMain [DecidableEq P] (h : k.Mem) (hc : (k.main p).Changed m t)
    (hl : m.sys = true → m.Laid) (hs : (m.pcb t).size < 256)
    (ht : t ∈ m.sub → m.sys = true ∧ (k.tcb t).pcb = p) : (k.setMain p m).Mem := by
  refine ⟨fun p' hp => ?_, fun p' u => ?_, fun p' u hu => ?_⟩
  all_goals dsimp only [Kernel.setMain] at *
  · rcases eq_or_ne p' p with rfl | hne
    · rw [Function.update_self] at hp ⊢
      exact hl hp
    · rw [Function.update_of_ne hne] at hp ⊢
      exact h.laid p' hp
  · rcases eq_or_ne p' p with rfl | hne
    · rw [Function.update_self]
      rcases eq_or_ne u t with rfl | hu
      · exact hs
      · rw [hc.pcb u hu]
        exact h.small p' u
    · rw [Function.update_of_ne hne]
      exact h.small p' u
  · rcases eq_or_ne p' p with rfl | hne
    · rw [Function.update_self] at hu ⊢
      rcases eq_or_ne u t with rfl | hne
      · exact ht hu
      · obtain ⟨h₁, h₂⟩ := h.home p' u ((hc.mem u hne).mp hu)
        exact ⟨hc.sys.trans h₁, h₂⟩
    · rw [Function.update_of_ne hne] at hu ⊢
      exact h.home p' u hu

end Kernel

end RSX280.Chkpt
