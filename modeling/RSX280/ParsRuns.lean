import RSX280.ParsEnds
import RSX280.Runs

/-!
# Runs of the partition manager

`Op` lists the operations and `machine` performs them. `Kernel.Exclusive` is what the
user-controlled partitions should be in every state; `occupant_of_reach` proves it of
every run whose steps are all `Op.Safe`, and `shared_of_kill` shows a run that is not:
the end of a task that has only waited for a partition releases it.
-/

namespace RSX280.Pars

open Links

universe u v

/-! ## Operations -/

/-- An operation, with its arguments and the answers from outside. -/
inductive Op (T : Type u) (P : Type v) where
  | trqst (t : T) (r : Request T)
  | fixtk (t : T) (r : Request T)
  | unftk (t : T) (g : List T)
  | remtk (t : T) (g : List T)
  /-- abort, or exit with reason 0 -/
  | tkill (t : T) (e : ℕ) (v : KillEnv T)
  /-- `t` queues an I/O request -/
  | qio (t : T)
  /-- one of its requests is done -/
  | setfre (t : T) (v : KillEnv T)
  /-- the loader takes a task off its queue -/
  | next
  /-- it has loaded it -/
  | ldend (v : KillEnv T)
  /-- it could not load it -/
  | lderr (e : ℕ) (v : KillEnv T)
  /-- `CHKPAR` or `TNEXT` looks at partition `p` -/
  | asntp (p : P) (g : List T)
  | altpri (t : T) (e : ℕ) (inst : Bool)
  /-- a task with control block `b` is installed -/
  | install (t : T) (b : Tcb P)

variable {T : Type u} {P : Type v}

/-- When an operation is performed: `IOKILL` leaves no more requests than there were, a
task in memory queues a request, and the control block of a task being installed is not
in use. -/
def Op.Ready : Op T P → Kernel T P → Prop
  | .tkill t _ v, k => v.ioc ≤ (k.tcb t).ioc
  | .lderr _ v, k => ∀ t, k.loading = some t → v.ioc ≤ (k.tcb t).ioc
  | .qio t, k => (k.tcb t).act = true ∧ (k.tcb t).out = false
  | .setfre t _, k => (k.tcb t).ioc ≠ 0
  | .install t b, k => k.tlist t = false ∧ b.live = false ∧ b.ioc = 0
  | _, _ => True

section Machine

variable [DecidableEq T] [DecidableEq P] [Fintype T]

/-- Perform an operation. -/
def Op.run (c : Config T P) : Op T P → Kernel T P → Kernel T P
  | .trqst t r, k => (k.trqst c t r).1
  | .fixtk t r, k => (k.fixtk c t r).1
  | .unftk t g, k => (k.unftk c t g).1
  | .remtk t g, k => (k.remtk c t g).1
  | .tkill t e v, k => (k.tkill c t e v).1
  | .qio t, k => k.setTcb t { k.tcb t with ioc := (k.tcb t).ioc + 1 }
  | .setfre t v, k => k.setfre c t v
  | .next, k => k.next
  | .ldend v, k => k.ldend c v
  | .lderr e v, k => k.lderr c e v
  | .asntp p g, k => k.asntp c p g
  | .altpri t e inst, k => k.altpri t e inst
  | .install t b, k => { k.setTcb t b with tlist := Function.update k.tlist t true }

/-- The partition manager. -/
def machine (c : Config T P) : Machine (Op T P) (Kernel T P) := ⟨Op.run c, Op.Ready⟩

/-- The steps that release no partition for a task it is not assigned to. Not among them:
* to kill a task while it waits for its partition, unless it is fixed and stays so;
* to request or to fix a task for which there is no context block, while its partition is
  busy;
* to unfix or remove a fixed task that still waits, is queued to the loader or being
  loaded, or that was killed while it waited and whose partition is busy now;
* to end `TKTN` with a reason, or another task when `TKTN` cannot be given a context block
  and its partition is busy. -/
def Op.Safe (c : Config T P) : Op T P → Kernel T P → Prop
  | .trqst t r, k | .fixtk t r, k => k.Clean c t r
  | .unftk t _, k | .remtk t _, k => k.Loose c t
  | .tkill t e v, k =>
    (k.tcb t).act = true → k.Spared c t ∧ (v.oio ||| e ≠ 0 → k.Reported c t v)
  | .setfre t v, k => (k.tcb t).abo = true → (k.tcb t).svst ≠ 0 → k.Reported c t v
  | .ldend v, k => ∀ t, k.loading = some t → (k.tcb t).abo = true → (k.tcb t).svst ≠ 0 →
      k.Reported c t v
  | .lderr e v, k => ∀ t, k.loading = some t → (k.tcb t).act = true → v.oio ||| e ≠ 0 →
      k.Reported c t v
  | _, _ => True

end Machine

/-! ## Exclusive partitions -/

/-- Is `t` in memory, or given to the loader? -/
def Kernel.Occupies [DecidableEq T] [Fintype T] (k : Kernel T P) (t : T) : Prop :=
  k.ftcb .ldr t ≠ none ∨ k.loading = some t ∨ (k.tcb t).live = true ∧ (k.tcb t).out = false

/-- A partition that is not system-controlled is busy exactly while a task that `$ASNTP`
has assigned it to has not released it through `TFREE`, and this is at most one task; any
task in such a partition, or on its way there, is that one; and no call of `TFREE` has
released a partition for another task than the one it belonged to. -/
structure Kernel.Exclusive [DecidableEq T] [Fintype T] (c : Config T P) (k : Kernel T P) :
    Prop where
  busy_iff : ∀ p, c.sys p = false → (k.bsy p = true ↔ k.held p ≠ [])
  length_le_one : ∀ p, c.sys p = false → (k.held p).length ≤ 1
  held_of_occupies : ∀ t, c.sys (k.tcb t).pcb = false → k.Occupies t →
    t ∈ k.held (k.tcb t).pcb
  eq_of_freed : ∀ t u, (t, some u) ∈ k.freed → t = u

theorem Kernel.Inv.exclusive [DecidableEq T] [Fintype T] {c : Config T P} {k : Kernel T P}
    {pl : T → Place P} (h : k.Inv c pl none none) : k.Exclusive c where
  busy_iff p hp := by
    constructor
    · intro hb
      obtain ⟨t, -, -, hheld⟩ := h.owner p hp hb
      rw [hheld]
      exact List.cons_ne_nil t []
    · intro hne
      by_contra hb
      exact hne (h.idle p hp (by simpa using hb))
  length_le_one p hp := by
    cases hb : k.bsy p with
    | false =>
      rw [h.idle p hp hb]
      exact Nat.zero_le 1
    | true =>
      obtain ⟨t, -, -, hheld⟩ := h.owner p hp hb
      rw [hheld]
      exact le_rfl
  held_of_occupies t hp ht := by
    have hfine := h.fine t nofun
    have hown : (c.sys (k.tcb t).pcb || k.owns c t) = true := by
      rcases ht with ht | ht | ht
      · refine (hfine.load (Or.inl ?_)).2.2.2
        by_contra hne
        exact ht (h.ftcb_eq_none hne)
      · exact (hfine.load (Or.inr ((h.loading t).mp ht))).2.2.2
      · exact hfine.mem ht.1 ht.2
    rw [hp, Bool.false_or] at hown
    obtain ⟨-, hb, ho⟩ := owns_eq_true.mp hown
    obtain ⟨u, hu, -, hheld⟩ := h.owner _ hp hb
    rw [hheld, Option.some.inj (ho.symm.trans hu)]
    exact List.mem_singleton_self u
  eq_of_freed := h.freed

/-! ## Every run -/

/-- The system as it is booted: no task waits or is being loaded, none has I/O
outstanding, and the tasks fixed in memory are those the busy partitions are assigned
to. -/
structure Kernel.Boot (c : Config T P) (k : Kernel T P) : Prop where
  lnk : ∀ h, k.lnk (.head h) = none
  loading : k.loading = none
  ioc : ∀ t, (k.tcb t).ioc = 0
  fixed : ∀ t, (k.tcb t).live = true → k.tlist t = true ∧
    (c.sys (k.tcb t).pcb = false → k.bsy (k.tcb t).pcb = true ∧
      k.own (k.tcb t).pcb = some t)
  busy : ∀ p, c.sys p = false → k.bsy p = true → ∃ t, k.own p = some t ∧
    (k.tcb t).pcb = p ∧ (k.tcb t).live = true ∧ k.held p = [t]
  idle : ∀ p, c.sys p = false → k.bsy p = false → k.held p = []
  freed : k.freed = []

variable [DecidableEq T] [DecidableEq P] {c : Config T P} {k k' : Kernel T P}

omit [DecidableEq P] in
theorem Kernel.Boot.inv (h : k.Boot c) : k.Inv c (fun _ => .off) none none where
  lists := by
    refine ⟨fun _ => [], ⟨h.lnk, nofun⟩, fun _ _ => ⟨nofun, nofun⟩⟩
  loading t := ⟨fun he => (nomatch h.loading.symm.trans he), nofun⟩
  owner p hp hb := by
    obtain ⟨t, ho, hpcb, -, hheld⟩ := h.busy p hp hb
    exact ⟨t, ho, hpcb, hheld⟩
  idle := h.idle
  freed t u hm := by
    rw [h.freed] at hm
    exact absurd hm List.not_mem_nil
  served _ _ _ _ _ := nofun
  fine t _ := by
    have hown : (k.tcb t).live = true → (c.sys (k.tcb t).pcb || k.owns c t) = true := by
      intro hl
      cases hs : c.sys (k.tcb t).pcb with
      | true => rfl
      | false => exact Kernel.owns_eq_true.mpr ⟨hs, (h.fixed t hl).2 hs⟩
    exact {
      wait := nofun
      load := by rintro (h | h) <;> exact nomatch h
      off := fun _ hl _ => hown hl
      mem := fun hl _ => hown hl
      ldr := fun hl _ => hown hl
      abo := fun hp => absurd rfl hp
      io := fun hc => absurd (h.ioc t) hc
      dir := fun hl => (h.fixed t hl).1
      own := fun ho => by
        obtain ⟨hs, hb, ho⟩ := Kernel.owns_eq_true.mp ho
        obtain ⟨u, hu, -, hl, -⟩ := h.busy _ hs hb
        rwa [Option.some.inj (ho.symm.trans hu)] }
  gone := nofun

omit [DecidableEq P] in
/-- A task is installed in a control block that is not in use. -/
theorem Kernel.Inv.install {pl : T → Place P} {t : T} {b : Tcb P} (h : k.Inv c pl none none)
    (ht : k.tlist t = false) (hb : b.live = false) (hioc : b.ioc = 0) :
    { k.setTcb t b with tlist := Function.update k.tlist t true }.Inv c pl none none := by
  have hfine := h.fine t nofun
  have hl : (k.tcb t).live = false := by
    by_contra hc
    exact nomatch ht.symm.trans (hfine.dir (by simpa using hc))
  have hne : ∀ p, c.sys p = false → k.bsy p = true → k.own p ≠ some t := by
    intro p hp hbsy ho
    obtain ⟨u, hu, hpcb, -⟩ := h.owner p hp hbsy
    obtain rfl : t = u := Option.some.inj (ho.symm.trans hu)
    have hown : k.owns c t = true := Kernel.owns_eq_true.mpr
      ⟨hpcb ▸ hp, hpcb ▸ hbsy, hpcb ▸ ho⟩
    exact nomatch (hfine.own_eq_false hl).symm.trans hown
  have hrest : ∀ u, u ≠ t → (k.setTcb t b).tcb u = k.tcb u := fun u hu => Kernel.setTcb_of_ne k b hu
  refine h.change t ⟨h.lists, h.loading, fun p hp hbsy => ?_, h.idle, h.freed⟩ h.served
    (fun u hu => ⟨hrest u hu, Function.update_of_ne hu .., ?_, rfl⟩) nofun ?_
  · obtain ⟨u, hu, hpcb, hheld⟩ := h.owner p hp hbsy
    have hut : u ≠ t := fun he => hne p hp hbsy (he ▸ hu)
    exact ⟨u, hu, (congrArg Tcb.pcb (hrest u hut)).trans hpcb, hheld⟩
  · simp only [Kernel.owns, hrest u hu]
    rfl
  · have hown : Kernel.owns c
        { k.setTcb t b with tlist := Function.update k.tlist t true } t = false := by
      by_contra hc
      obtain ⟨hs, hbsy, ho⟩ := Kernel.owns_eq_true.mp (by simpa using hc)
      exact hne _ hs hbsy ho
    have hg : b.Gone (pl t) := ⟨hb, (hfine.gone hl).off, hioc⟩
    rw [hown]
    dsimp only
    rw [Kernel.setTcb_self]
    exact hg.fine _ _

variable [Fintype T]

/-- A safe step keeps the books. -/
theorem Kernel.Inv.step (h : ∃ pl, k.Inv c pl none none)
    (hs : (machine c).Step (Op.Safe c) k k') : ∃ pl, k'.Inv c pl none none := by
  obtain ⟨pl, h⟩ := h
  obtain ⟨op, hr, hc, rfl⟩ := hs
  cases op with
  | trqst t r => exact h.trqst hc
  | fixtk t r => exact h.fixtk hc
  | unftk t g => exact h.unftk hc g
  | remtk t g => exact h.remtk hc g
  | tkill t e v => exact h.tkill hr (fun ha => (hc ha).1) fun ha => (hc ha).2
  | qio t =>
    refine ⟨pl, h.setTcb nofun rfl ?_⟩
    exact { h.fine t nofun with io := fun _ => hr }
  | setfre t v => exact h.setfre hr hc
  | next => exact h.next
  | ldend v => exact h.ldend hc
  | lderr e v => exact h.lderr hr hc
  | asntp p g =>
    obtain ⟨pl', h', -⟩ := (h.of_none (some p)).asntp g
    exact ⟨pl', h'⟩
  | altpri t e inst => exact ⟨pl, h.altpri e inst⟩
  | install t b => exact ⟨pl, h.install hr.1 hr.2.1 hr.2.2⟩

/-- In every state reached from the boot of the system by safe steps the partitions that
are not system-controlled are exclusive. -/
theorem occupant_of_reach (h₀ : k.Boot c) (hr : Reach ((machine c).Step (Op.Safe c)) k k') :
    k'.Exclusive c := by
  obtain ⟨pl, h⟩ := hr.invariant ⟨_, h₀.inv⟩ fun _ _ => Kernel.Inv.step
  exact h.exclusive

/-! ### Three tasks and the loader -/

/-- Tasks 0, 1 and 2 share partition `true`; the loader, task 3, has its own one. -/
def config4 : Config (Fin 4) Bool where
  sys _ := false
  ldrtcb := 3
  mcrtcb := none
  tktn := none

/-- The loader is fixed in memory. -/
def boot4 : Kernel (Fin 4) Bool where
  tcb t := { pcb := t ≠ 3, fix := t = 3, dend := 4095 }
  lnk _ := none
  tlist _ := true
  bsy p := !p
  own p := if p then none else some 3
  loading := none
  held p := if p then [] else [3]
  freed := []

theorem boot4_boot : boot4.Boot config4 where
  lnk _ := rfl
  loading := rfl
  ioc _ := rfl
  fixed := by decide
  busy p _ hb := by
    cases p with
    | false => exact ⟨3, rfl, rfl, rfl, rfl⟩
    | true => exact nomatch hb
  idle p _ hb := by
    cases p with
    | false => exact nomatch hb
    | true => rfl
  freed := rfl

/-- A request finds all it needs. -/
def found4 : Request (Fin 4) := ⟨true, true, true, []⟩

/-- A task ends without I/O. -/
def end4 : KillEnv (Fin 4) := ⟨0, 0, true, found4, []⟩

/-- Task 0 is requested and loaded, task 1 waits for it to exit and is loaded then. -/
theorem occupant_of_reach_exit :
    ((machine config4).runAll [.trqst 3 found4, .trqst 0 found4, .next, .ldend end4,
      .trqst 1 found4, .tkill 0 0 end4, .next, .ldend end4] boot4).Exclusive config4 := by
  have hclean : ∀ (k : Kernel (Fin 4) Bool) t, k.Clean config4 t found4 := fun _ _ _ _ => nofun
  have hrep : ∀ (k : Kernel (Fin 4) Bool) t v, k.Reported config4 t v := fun _ _ _ _ => nofun
  refine occupant_of_reach boot4_boot (Machine.reach_runAll ?_)
  refine ⟨⟨trivial, hclean _ _⟩, ⟨trivial, hclean _ _⟩, ⟨trivial, trivial⟩,
    ⟨trivial, fun _ _ _ _ => hrep _ _ _⟩, ⟨trivial, hclean _ _⟩, ⟨Nat.zero_le _, fun _ => ?_⟩,
    ⟨trivial, trivial⟩, ⟨trivial, fun _ _ _ _ => hrep _ _ _⟩, trivial⟩
  refine ⟨Or.inl ?_, fun _ => hrep _ _ _⟩
  decide

/-- Task 0 has the partition and task 1 waits for it. Task 1 is killed; that ends the
assignment of task 0, and the partition is assigned to task 2 as well. -/
theorem shared_of_kill : ∃ (c : Config (Fin 4) Bool) (k k' : Kernel (Fin 4) Bool), k.Boot c ∧
    Reach ((machine c).Step fun _ _ => True) k k' ∧ ¬k'.Exclusive c := by
  refine ⟨config4, boot4, (machine config4).runAll [.trqst 0 found4, .trqst 1 found4,
    .tkill 1 0 end4, .trqst 2 found4] boot4, boot4_boot, Machine.reach_runAll ?_, ?_⟩
  · exact ⟨⟨trivial, trivial⟩, ⟨trivial, trivial⟩, ⟨Nat.zero_le _, trivial⟩,
      ⟨trivial, trivial⟩, trivial⟩
  · intro h
    have hheld : ((machine config4).runAll [.trqst 0 found4, .trqst 1 found4,
        .tkill 1 0 end4, .trqst 2 found4] boot4).held true = [0, 2] := by
      decide +kernel
    have hone := h.length_le_one true rfl
    rw [hheld] at hone
    exact absurd hone (by decide)

end RSX280.Pars
