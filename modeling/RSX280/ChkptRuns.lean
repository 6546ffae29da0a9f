import RSX280.ChkptLoads
import RSX280.Runs

/-!
# Runs with checkpointing

`Op` lists the operations and `machine` performs them. Three things are proved of every run
that meets a condition, each with a run that does not meet it:

* the wait lists are in order of priority and partitions are assigned accordingly
  (`Kernel.Ordered`), unless `ALTPRI` changes the priority of a task that waits;
* memory into which I/O is outstanding stays where it is (`Kernel.Steady`), unless `EXTTSK`
  moves or shrinks it;
* the checkpoint files are in order and what is allocated in them is freed once
  (`Kernel.Saved`), unless the loader cannot read or write a task that is being aborted.
-/

namespace RSX280.Chkpt

open Queue Spans Subpars
open Pars (ea2pg)

universe u v w

/-! ## Operations -/

/-- An operation, with its arguments and the answers from outside. -/
inductive Op (T : Type u) (P : Type v) (F : Type w) where
  | trqst (t : T) (r : Request T)
  /-- abort, or exit with reason 0 -/
  | tkill (t : T) (e : ℕ) (v : KillEnv T)
  /-- `t` queues an I/O request -/
  | qio (t : T)
  /-- its request `i` is done -/
  | setfre (t : T) (i : ℕ) (v : KillEnv T) (x pool : Bool)
  /-- the loader takes a task off its queue -/
  | next
  /-- it has loaded it, read it or written it -/
  | ldend (v : KillEnv T)
  /-- it could not -/
  | lderr (e : ℕ) (v : KillEnv T)
  /-- `CHKPAR`, `RQSHF` or `TNEXT` looks at partition `p` -/
  | asntp (p : P) (v : Look T)
  | exttsk (t : T) (n : ℕ) (x pool : Bool)
  | altpri (t : T) (e : ℕ) (inst : Bool)
  /-- the checkpoint file `f` is discontinued, or not -/
  | acs (f : F) (off : Bool)

variable {T : Type u} {P : Type v} {F : Type w}

/-- Is the task in memory, and not about to leave it? -/
def Kernel.Runs (k : Kernel T P F) (t : T) : Prop :=
  (k.tcb t).act = true ∧ (k.tcb t).abo = false ∧ ((k.tcb t).out || (k.tcb t).ckp) = false

/-- When an operation is performed: `IOKILL` leaves some of the requests there were, a task
in memory queues a request or asks for memory, and a request that is done was queued. -/
def Op.Ready : Op T P F → Kernel T P F → Prop
  | .tkill t _ v, k => v.rest.Sublist (k.io t)
  | .lderr _ v, k => ∀ t, k.loading = some t → v.rest.Sublist (k.io t)
  | .qio t, k => k.Runs t
  | .exttsk t n _ _, k => k.Runs t ∧ n < 65536
  | .setfre t i _ _ _, k => i < (k.io t).length
  | _, _ => True

/-- The steps at which `T.IOC` does not wrap, and `TKTN` does not end with a reason: the
message about it would request it while it still has its memory. -/
def Op.Sane (c : Config T F) : Op T P F → Kernel T P F → Prop
  | .qio t, k => (k.tcb t).ioc < 255
  | .tkill t e v, _ => c.tktn = some t → v.oio ||| e = 0
  | .setfre t _ _ _ _, k => (k.tcb t).abo = true → c.tktn = some t → (k.tcb t).svst = 0
  | .ldend _, k => ∀ t, k.loading = some t → (k.tcb t).abo = true → c.tktn = some t →
      (k.tcb t).svst = 0
  | .lderr e v, k => ∀ t, k.loading = some t → c.tktn = some t → v.oio ||| e = 0
  | _, _ => True

/-- The steps at which the priority of a task that waits does not change. -/
def Op.KeepsPri : Op T P F → Kernel T P F → Prop
  | .altpri t e _, k => t ∈ k.wait (k.tcb t).pcb →
      (if e = 0 then (k.tcb t).dpri else e) = (k.tcb t).pri
  | _, _ => True

/-- The steps at which the loader does not give up a checkpointed task that `TKILL` will
not abort: one that is being aborted already, or belongs to the system. -/
def Op.Tidy (c : Config T F) : Op T P F → Kernel T P F → Prop
  | .lderr _ _, k => ∀ t, k.loading = some t →
      (k.tcb t).abo = true ∨ c.mcrtcb = some t ∨ c.ldrtcb = t → (k.tcb t).ckp = false
  | _, _ => True

/-- The steps at which no memory with I/O outstanding is moved or shrunk by `EXTTSK`, and
no partition that is not system-controlled is released for a task that has only waited for
it, or that there is no context block for while another task has it. -/
def Op.Still [DecidableEq T] (c : Config T F) : Op T P F → Kernel T P F → Prop
  | .exttsk t n _ _, k => (k.tcb t).ioc ≠ 0 → ∀ top, Kernel.newtop (k.tcb t) n = .ok top →
      (k.main (k.tcb t).pcb).Stays t (ea2pg top)
  | .trqst t r, k => k.Clears t r.ctx
  | .tkill t _ v, k => (t ∈ k.wait (k.tcb t).pcb → k.sys t = true) ∧ k.Reports c v
  | .setfre _ _ v _ _, k | .ldend v, k | .lderr _ v, k => k.Reports c v
  | _, _ => True

section Machine

variable [DecidableEq T] [DecidableEq P] [DecidableEq F]

/-- Perform an operation. -/
def Op.run (c : Config T F) : Op T P F → Kernel T P F → Kernel T P F
  | .trqst t r, k => (k.trqst c t r).1
  | .tkill t e v, k => (k.tkill c t e v).1
  | .qio t, k => k.qio t
  | .setfre t i v x pool, k => k.setfre c t i v x pool
  | .next, k => k.next
  | .ldend v, k => k.ldend c v
  | .lderr e v, k => k.lderr c e v
  | .asntp p v, k => k.asntp c v p
  | .exttsk t n x pool, k => (k.exttsk c t n x pool).1
  | .altpri t e inst, k => k.altpri t e inst
  | .acs f off, k => { k with off := Function.update k.off f off }

/-- The system, as far as checkpointing goes. -/
def machine (c : Config T F) : Machine (Op T P F) (Kernel T P F) := ⟨Op.run c, Op.Ready⟩

end Machine

/-! ## What should hold -/

/-- The wait lists are in order of priority, and whenever a partition was assigned, no task
that waited for it, could run and would have fitted had a higher priority than the one it
was assigned to. -/
structure Kernel.Ordered (k : Kernel T P F) : Prop where
  wait : ∀ p, Falling (fun t => (k.tcb t).pri) (k.wait p)
  given : ∀ p, ∀ g ∈ k.given p, ∀ n ∈ g.fit, n ≤ g.pri

/-- A task that has I/O outstanding has the memory it had when that was queued: the same
base, and at least the size. It is not checkpointed, and nobody else has this memory. -/
structure Kernel.Steady (k : Kernel T P F) : Prop where
  region : ∀ t, ∀ r ∈ k.io t, (k.region t).1 = r.1 ∧ r.2 ≤ (k.region t).2
  core : ∀ t, k.io t ≠ [] → (k.tcb t).out = false ∧ (k.tcb t).ckp = false ∧ t ∉ k.ldq ∧
    k.loading ≠ some t
  has : ∀ t, k.io t ≠ [] → if k.sys t = true then k.linked t else k.owns t
  apart : ∀ p, (k.main p).sys = true → ∀ t ∈ (k.main p).sub, ∀ u ∈ (k.main p).sub, t ≠ u →
    (k.main p).bases t + (k.main p).sizes t ≤ (k.main p).bases u ∨
      (k.main p).bases u + (k.main p).sizes u ≤ (k.main p).bases t

/-- A task that is swapped out, or about to be, or being read back. -/
def Kernel.Swapped (k : Kernel T P F) (t : T) : Prop :=
  (∃ p, t ∈ k.wait p) ∨ t ∈ k.ldq ∨ k.loading = some t

/-- The ranges of each checkpoint file are disjoint and inside the file. Each control block
that has been allocated has been freed once, or not yet: then it is held by one task, on its
way out of memory or back. Nothing else has been freed. -/
structure Kernel.Saved (k : Kernel T P F) : Prop where
  disjoint : ∀ f, ∀ i ∈ (k.file f).sub, ∀ j ∈ (k.file f).sub, i ≠ j →
    (k.file f).bases i + (k.file f).sizes i ≤ (k.file f).bases j ∨
      (k.file f).bases j + (k.file f).sizes j ≤ (k.file f).bases i
  within : ∀ f, (k.file f).sub.Nodup ∧
    ∀ i ∈ (k.file f).sub, (k.file f).bases i + (k.file f).sizes i ≤ (k.file f).size
  once : ∀ i < k.count, k.freed.count (some i) = 1 ∧ (∀ f, i ∉ (k.file f).sub) ∨
    k.freed.count (some i) = 0 ∧ (∃ f, i ∈ (k.file f).sub) ∧
      ∃! t, (k.tcb t).cpcb = some i ∧ k.Swapped t
  only : ∀ a ∈ k.freed, ∃ i < k.count, a = some i

variable {q : Meets} {k k' : Kernel T P F} {sp : T → Spot}

theorem Kernel.Inv.ordered (h : k.Inv q sp none) (ho : q.order) : k.Ordered :=
  ⟨h.order ho, h.given ho⟩

theorem Kernel.Inv.steadily (h : k.Inv q sp none) (hs : q.steady) : k.Steady where
  region t r hr := by
    obtain ⟨h₁, h₂⟩ := h.steady hs t r hr
    exact ⟨h₁.symm, h₂⟩
  core t ht := by
    have hsp := h.core_of_io ht
    obtain ⟨-, hout, hckp, -⟩ : Tcb.Fine q _ _ _ _ .core := hsp ▸ h.fine t
    refine ⟨hout, hckp, fun hc => ?_, fun hc => ?_⟩
    · exact nomatch hsp.symm.trans ((h.lists.queue t).mp hc)
    · exact nomatch hsp.symm.trans ((h.lists.load t).mp hc)
  has t ht := by
    have hsp := h.core_of_io ht
    obtain ⟨-, -, -, -, -, -, hm, -⟩ : Tcb.Fine q _ _ _ _ .core := hsp ▸ h.fine t
    split
    · next hsys => exact hm hsys
    · next hsys =>
      exact h.owns hs t ⟨by simpa using hsys, by rw [hsp]; exact nofun, by rw [hsp]; exact nofun⟩
  apart p hp t ht u hu hne := (h.mem.laid p hp).packed.disjoint ht hu hne

/-- A task that holds checkpoint space is swapped. -/
theorem Kernel.Inv.swapped {t : T} {i : ℕ} (h : k.Inv q sp none) (ht : q.tidy)
    (hi : (k.tcb t).cpcb = some i) : k.Swapped t := by
  have hne : (k.tcb t).cpcb ≠ none := by
    rw [hi]
    exact nofun
  have hf := h.fine t
  cases hsp : sp t <;> rw [hsp] at hf
  · exact absurd hf.2.2.1 hne
  · exact Or.inl ⟨_, (h.lists.wait _ t).mpr ⟨hsp, rfl⟩⟩
  · exact Or.inr (Or.inl ((h.lists.queue t).mpr hsp))
  · exact Or.inr (Or.inr ((h.lists.load t).mpr hsp))
  · exact absurd hf.2.2.2.1 hne
  · exact absurd (hf.2.2.2.2.2.2.2 ht) hne
  · exact absurd (hf.2.2.2.1 ht) hne
  · exact absurd hf.2.2.2.2 hne

theorem Kernel.Inv.saved (h : k.Inv q sp none) (ht : q.tidy) : k.Saved where
  disjoint f i hi j hj hne := (h.space.filed f).packed.disjoint hi hj hne
  within f := ⟨(h.space.filed f).nodup, fun i hi => ((h.space.filed f).packed.within hi).2⟩
  once i hi := by
    rcases h.space.all i hi with hfreed | ⟨t, hcp⟩
    · refine Or.inl ⟨List.count_eq_one_of_mem h.space.nodup hfreed, fun f hf => ?_⟩
      obtain ⟨-, u, hu⟩ := h.space.mem f i hf
      exact (h.space.held u i hu).2.1 hfreed
    · obtain ⟨-, hnf, f, -, hmem⟩ := h.space.held t i hcp
      refine Or.inr ⟨List.count_eq_zero.mpr hnf, ⟨f, hmem⟩, t, ⟨hcp, h.swapped ht hcp⟩, ?_⟩
      exact fun u hu => h.space.inj u t i hu.1 hcp
  only a ha := by
    cases a with
    | none => exact absurd ha h.space.null
    | some i => exact ⟨i, h.space.lt i ha, rfl⟩

/-! ## Every run -/

/-- The system as it is booted: no task is active or has I/O outstanding, those fixed in
memory have it, and the checkpoint files are empty. -/
structure Kernel.Boot (k : Kernel T P F) : Prop where
  idle : ∀ t, (k.tcb t).act = false ∧ (k.tcb t).cpcb = none ∧ (k.tcb t).ioc = 0 ∧ k.io t = []
  fixed : ∀ t, (k.tcb t).fix = true → (k.tcb t).out = false ∧ (k.tcb t).ckp = false ∧
    (k.tcb t).ldr = false ∧ if k.sys t = true then k.linked t else k.owns t
  lists : (∀ p, k.wait p = []) ∧ k.ldq = [] ∧ k.loading = none
  laid : ∀ p, (k.main p).sys = true → (k.main p).Laid
  small : ∀ p t, ((k.main p).pcb t).size < 256
  home : ∀ p, ∀ t ∈ (k.main p).sub,
    (k.main p).sys = true ∧ (k.tcb t).pcb = p ∧ (k.tcb t).fix = true
  file : ∀ f, (k.file f).sub = [] ∧ (k.file f).size < 65536
  new : k.count = 0 ∧ k.freed = [] ∧ ∀ p, k.given p = []

theorem Kernel.Boot.inv (h : k.Boot) (q : Meets) :
    k.Inv q (fun t => if (k.tcb t).fix = true then .core else .off) none where
  lists := by
    obtain ⟨hw, hq, hl⟩ := h.lists
    have hsp : ∀ t (s : Spot), s ≠ .core → s ≠ .off →
        (if (k.tcb t).fix = true then Spot.core else Spot.off) ≠ s := by
      intro t s h₁ h₂
      split
      · exact h₁.symm
      · exact h₂.symm
    refine ⟨fun p t => ?_, fun t => ?_, fun t => ?_, fun p => ?_, ?_⟩
    · rw [hw]
      exact iff_of_false List.not_mem_nil fun hc => hsp t .wait (by rintro ⟨⟩) (by rintro ⟨⟩) hc.1
    · rw [hq]
      exact iff_of_false List.not_mem_nil (hsp t _ (by rintro ⟨⟩) (by rintro ⟨⟩))
    · rw [hl]
      exact iff_of_false (by rintro ⟨⟩) (hsp t _ (by rintro ⟨⟩) (by rintro ⟨⟩))
    · rw [hw]
      exact List.nodup_nil
    · rw [hq]
      exact List.nodup_nil
  mem := ⟨h.laid, h.small, fun p t ht => ⟨(h.home p t ht).1, (h.home p t ht).2.1⟩⟩
  space := by
    obtain ⟨hcount, hfreed, -⟩ := h.new
    rw [Kernel.Spaced, hcount, hfreed]
    refine ⟨fun f => ?_, fun f i hi => ?_, fun t i ht => ?_, fun t u i ht => ?_, fun i hi => ?_,
      List.nodup_nil, List.not_mem_nil, fun i hi => absurd hi List.not_mem_nil⟩
    · obtain ⟨hsub, hlt⟩ := h.file f
      refine ⟨hlt, ?_, ?_⟩
      · rw [hsub, packed_nil]
        exact Nat.zero_le _
      · rw [hsub]
        exact List.nodup_nil
    · rw [(h.file f).1] at hi
      exact absurd hi List.not_mem_nil
    · cases (h.idle t).2.1.symm.trans ht
    · cases (h.idle t).2.1.symm.trans ht
    · exact absurd hi (Nat.not_lt_zero i)
  fine t := by
    obtain ⟨hact, hcp, -, hio⟩ := h.idle t
    split
    · next hf =>
      obtain ⟨hout, hckp, hldr, hm⟩ := h.fixed t hf
      refine ⟨by rw [hf, Bool.or_true], hout, hckp, hcp, fun ha => (by cases hact.symm.trans ha),
        fun _ => by rw [hio]; rfl, fun hs => ?_, hldr⟩
      rwa [if_pos hs] at hm
    · next hf =>
      refine ⟨hact, by simpa using hf, hcp, by rw [hio]; rfl, fun hc => ?_⟩
      exact hf (h.home _ t hc).2.2
  dead t ht := by split at ht <;> cases ht
  ioc t := by
    obtain ⟨-, -, hioc, hio⟩ := h.idle t
    rw [hioc, hio]
    exact ⟨rfl, by omega⟩
  owns _ t ht := by
    obtain ⟨hs, hoff, -⟩ := ht
    have hf : (k.tcb t).fix = true := by
      by_contra hf
      exact hoff (if_neg hf)
    have hm := (h.fixed t hf).2.2.2
    rwa [if_neg (by rw [hs]; rintro ⟨⟩)] at hm
  steady _ t r hr := by
    rw [(h.idle t).2.2.2] at hr
    exact absurd hr List.not_mem_nil
  order _ p := by
    rw [h.lists.1]
    exact List.Pairwise.nil
  given _ p g hg := by
    rw [h.new.2.2] at hg
    exact absurd hg List.not_mem_nil

variable [DecidableEq T] [DecidableEq P] [DecidableEq F] {c : Config T F}

/-- A step keeps everything in order, the three conditional parts if it meets their
conditions. -/
theorem Kernel.Inv.step (h : ∃ sp, k.Inv q sp none)
    (hs : (machine c).Step (fun op k => op.Sane c k ∧ (q.order → op.KeepsPri k) ∧
      (q.tidy → op.Tidy c k) ∧ (q.steady → op.Still c k)) k k') : ∃ sp, k'.Inv q sp none := by
  obtain ⟨sp, h⟩ := h
  obtain ⟨op, hr, ⟨hsane, hpri, htidy, hstill⟩, rfl⟩ := hs
  cases op with
  | trqst t r =>
    obtain ⟨sp', h', -⟩ : ∃ sp', (k.trqst c t r).1.Inv q sp' none ∧ True := by
      rw [Kernel.trqst]
      split
      · exact ⟨sp, h, trivial⟩
      · obtain ⟨sp', h', -⟩ := h.trqst2 (c := c) (r := r) nofun hstill
        exact ⟨sp', h', trivial⟩
    exact ⟨sp', h'⟩
  | tkill t e v =>
    exact h.tkill hr hsane (fun hst => (hstill hst).2) fun hst => (hstill hst).1
  | qio t =>
    obtain ⟨hact, habo, hin⟩ := hr
    exact h.qio hact habo hin hsane
  | setfre t i v x pool => exact h.setfre hr hsane hstill
  | next => exact h.next
  | ldend v => exact h.ldend hsane hstill
  | lderr e v => exact h.lderr hr htidy hsane hstill
  | asntp p v =>
    obtain ⟨sp', h', -⟩ := h.asntp (c := c) (v := v) p
    exact ⟨sp', h'⟩
  | exttsk t n x pool =>
    obtain ⟨⟨hact, habo, hin⟩, -⟩ := hr
    rcases h.live hact habo with ⟨-, hsp⟩ | ⟨hout, -⟩
    · exact h.exttsk hsp hstill
    · exact nomatch hin.symm.trans hout
  | altpri t e inst => exact ⟨sp, h.altpri hpri⟩
  | acs f off =>
    exact ⟨sp, ⟨h.lists.wait, h.lists.queue, h.lists.load, h.lists.waitNodup,
      h.lists.queueNodup⟩, ⟨h.mem.laid, h.mem.small, h.mem.home⟩, h.space, h.fine, h.dead, h.ioc,
      h.owns, h.steady, h.order, h.given⟩

theorem Kernel.Boot.reach {R : Op T P F → Kernel T P F → Prop} (h₀ : k.Boot) (q : Meets)
    (hR : ∀ op k, R op k → op.Sane c k ∧ (q.order → op.KeepsPri k) ∧ (q.tidy → op.Tidy c k) ∧
      (q.steady → op.Still c k))
    (hr : Reach ((machine c).Step R) k k') : ∃ sp, k'.Inv q sp none :=
  hr.invariant ⟨_, h₀.inv q⟩ fun _ _ h ⟨op, hready, hop, he⟩ =>
    Kernel.Inv.step h ⟨op, hready, hR op _ hop, he⟩

/-- In every run in which the priority of no waiting task changes the wait lists are in
order, and partitions are assigned in that order. -/
theorem ordered_of_reach (h₀ : k.Boot)
    (hr : Reach ((machine c).Step fun op k => op.Sane c k ∧ op.KeepsPri k) k k') : k'.Ordered := by
  obtain ⟨sp, h⟩ := h₀.reach ⟨True, False, False⟩ (fun _ _ h => ⟨h.1, fun _ => h.2, nofun, nofun⟩)
    hr
  exact h.ordered trivial

/-- In every run in which `EXTTSK` moves and shrinks no memory with I/O outstanding such
memory stays where it is. -/
theorem steady_of_reach (h₀ : k.Boot)
    (hr : Reach ((machine c).Step fun op k => op.Sane c k ∧ op.Still c k) k k') : k'.Steady := by
  obtain ⟨sp, h⟩ := h₀.reach ⟨False, True, False⟩ (fun _ _ h => ⟨h.1, nofun, nofun, fun _ => h.2⟩)
    hr
  exact h.steadily trivial

/-- In every run in which the loader gives up no checkpointed task that `TKILL` does not
abort the checkpoint space is in order, and freed once. -/
theorem saved_of_reach (h₀ : k.Boot)
    (hr : Reach ((machine c).Step fun op k => op.Sane c k ∧ op.Tidy c k) k k') : k'.Saved := by
  obtain ⟨sp, h⟩ := h₀.reach ⟨False, False, True⟩ (fun _ _ h => ⟨h.1, nofun, fun _ => h.2, nofun⟩)
    hr
  exact h.saved trivial

/-! ### Three tasks and the loader -/

/-- Tasks 0, 1 and 2 have priorities 5, 3 and 7; task 2 needs all nine pages of the
system-controlled partition `true`. The loader, task 3, is fixed in its own one. -/
def boot4 : Kernel (Fin 4) Bool Unit where
  tcb t := { pcb := t ≠ 3, fix := t = 3, dend := if t = 2 then 36863 else 4095
             dpri := if t = 0 then 5 else if t = 1 then 3 else 7 }
  tlist _ := true
  main p := ⟨0, 9, p, [], fun _ => ⟨0, 0, false⟩⟩
  bsy p := !p
  own p := if p then none else some 3
  wait _ := []
  ldq := []
  loading := none
  file _ := ⟨0, 100, true, [], fun _ => ⟨0, 0, false⟩⟩
  off _ := false
  home _ := none
  count := 0
  io _ := []
  freed := []
  given _ := []

def config4 : Config (Fin 4) Unit := ⟨3, none, none, [()]⟩

theorem boot4_boot : boot4.Boot where
  idle _ := ⟨rfl, rfl, rfl, rfl⟩
  fixed t ht := by
    obtain rfl : t = 3 := of_decide_eq_true ht
    refine ⟨rfl, rfl, rfl, ?_⟩
    rw [if_neg (by rintro ⟨⟩)]
    exact ⟨rfl, rfl⟩
  lists := ⟨fun _ => rfl, rfl, rfl⟩
  laid _ _ := ⟨(by decide : 0 + 9 < 65536), Nat.zero_le 9, List.nodup_nil⟩
  small _ _ := (by decide : 0 < 256)
  home _ _ ht := absurd ht List.not_mem_nil
  file _ := ⟨rfl, (by decide : 100 < 65536)⟩
  new := ⟨rfl, rfl, fun _ => rfl⟩

/-- Nobody is debugged, stopped or checkpointed to make space. -/
def look4 : Look (Fin 4) := ⟨fun _ => false, fun _ => false, fun _ => []⟩

/-- A request finds all it needs. -/
def found4 : Request (Fin 4) := ⟨true, true, true, look4⟩

/-- A task ends without I/O. -/
def end4 : KillEnv (Fin 4) := ⟨0, [], true, found4, look4⟩

/-- Task 2 has all memory while tasks 0 and 1 wait. -/
def wait4 : List (Op (Fin 4) Bool Unit) :=
  [.trqst 3 found4, .trqst 2 found4, .next, .ldend end4, .trqst 0 found4, .trqst 1 found4]

/-- Tasks 0 and 1 have a page each, and task 0 is to be checkpointed because it has asked
for nine. -/
def swap4 : List (Op (Fin 4) Bool Unit) :=
  [.trqst 3 found4, .trqst 0 found4, .next, .ldend end4, .trqst 1 found4, .next, .ldend end4,
    .exttsk 0 2048 false true, .next]

theorem admits_wait4 : (machine config4).Admits (fun op k => op.Sane config4 k ∧ op.KeepsPri k)
    wait4 boot4 := by
  refine ⟨⟨trivial, trivial, trivial⟩, ⟨trivial, trivial, trivial⟩, ⟨trivial, trivial, trivial⟩,
    ⟨trivial, ?_, trivial⟩, ⟨trivial, trivial, trivial⟩, ⟨trivial, trivial, trivial⟩, trivial⟩
  exact fun _ _ _ => by rintro ⟨⟩

/-- Task 2 exits and the partition goes to task 0, which has the higher priority. -/
theorem ordered_of_reach_exit :
    ((machine config4).runAll (wait4 ++ [.altpri 2 9 false, .tkill 2 0 end4]) boot4).Ordered := by
  refine ordered_of_reach boot4_boot (Machine.reach_runAll (Machine.admits_append admits_wait4 ?_))
  refine ⟨⟨trivial, trivial, fun hw => ?_⟩, ⟨List.nil_sublist _, (by rintro ⟨⟩), trivial⟩, trivial⟩
  exact absurd hw (by decide)

/-- Task 1 waits behind task 0, gets priority 9, and waits behind it still. When task 2
exits the partition is assigned to task 0. -/
theorem unordered_of_altpri : ∃ (c : Config (Fin 4) Unit) (k k' : Kernel (Fin 4) Bool Unit),
    k.Boot ∧ Reach ((machine c).Step fun op k => op.Sane c k) k k' ∧ ¬k'.Ordered := by
  refine ⟨config4, boot4, (machine config4).runAll (wait4 ++ [.altpri 1 9 false,
    .tkill 2 0 end4]) boot4, boot4_boot, Machine.reach_runAll ?_, fun h => ?_⟩
  · refine ⟨⟨trivial, trivial⟩, ⟨trivial, trivial⟩, ⟨trivial, trivial⟩, ⟨trivial, ?_⟩,
      ⟨trivial, trivial⟩, ⟨trivial, trivial⟩, ⟨trivial, trivial⟩, ⟨List.nil_sublist _, (by rintro ⟨⟩)⟩,
      trivial⟩
    exact fun _ _ _ => by rintro ⟨⟩
  · have hgiven : ((machine config4).runAll (wait4 ++ [.altpri 1 9 false,
        .tkill 2 0 end4]) boot4).given true = [⟨7, [7]⟩, ⟨5, [5, 9]⟩, ⟨9, [9]⟩] := by
      decide
    exact absurd (h.given true ⟨5, [5, 9]⟩ (by rw [hgiven]; decide) 9 (by decide)) (by decide)

/-- Task 0 is checkpointed, waits for the memory of task 1, and is read back. -/
theorem saved_of_reach_swap : ((machine config4).runAll (swap4 ++ [.ldend end4,
    .tkill 1 0 end4, .next, .ldend end4]) boot4).Saved := by
  refine saved_of_reach boot4_boot (Machine.reach_runAll (Machine.admits_append ?_ ?_))
  · refine ⟨⟨trivial, trivial, trivial⟩, ⟨trivial, trivial, trivial⟩, ⟨trivial, trivial, trivial⟩,
      ⟨trivial, ?_, trivial⟩, ⟨trivial, trivial, trivial⟩, ⟨trivial, trivial, trivial⟩,
      ⟨trivial, ?_, trivial⟩, ⟨⟨?_, by decide⟩, trivial, trivial⟩, ⟨trivial, trivial, trivial⟩,
      trivial⟩
    · exact fun _ _ _ => by rintro ⟨⟩
    · exact fun _ _ _ => by rintro ⟨⟩
    · exact ⟨by decide, by decide, by decide⟩
  · refine ⟨⟨trivial, ?_, trivial⟩, ⟨List.nil_sublist _, (by rintro ⟨⟩), trivial⟩,
      ⟨trivial, trivial, trivial⟩, ⟨trivial, ?_, trivial⟩, trivial⟩
    · exact fun _ _ _ => by rintro ⟨⟩
    · exact fun _ _ _ => by rintro ⟨⟩

/-- Task 0 is aborted while it is being written to the checkpoint file, which is left to the
loader. The loader cannot write it and aborts it again, to no effect. -/
theorem unsaved_of_lderr : ∃ (c : Config (Fin 4) Unit) (k k' : Kernel (Fin 4) Bool Unit),
    k.Boot ∧ Reach ((machine c).Step fun op k => op.Sane c k) k k' ∧ ¬k'.Saved := by
  refine ⟨config4, boot4, (machine config4).runAll (swap4 ++ [.tkill 0 1 end4, .lderr 1 end4])
    boot4, boot4_boot, Machine.reach_runAll ?_, fun h => ?_⟩
  · refine ⟨⟨trivial, trivial⟩, ⟨trivial, trivial⟩, ⟨trivial, trivial⟩, ⟨trivial, ?_⟩,
      ⟨trivial, trivial⟩, ⟨trivial, trivial⟩, ⟨trivial, ?_⟩, ⟨⟨?_, by decide⟩, trivial⟩,
      ⟨trivial, trivial⟩, ⟨List.nil_sublist _, (by rintro ⟨⟩)⟩, ⟨fun _ _ => List.nil_sublist _, ?_⟩,
      trivial⟩
    · exact fun _ _ _ => by rintro ⟨⟩
    · exact fun _ _ _ => by rintro ⟨⟩
    · exact ⟨by decide, by decide, by decide⟩
    · exact fun _ _ => by rintro ⟨⟩
  · obtain ⟨k, hk⟩ : ∃ k, k = (machine config4).runAll (swap4 ++ [.tkill 0 1 end4,
      .lderr 1 end4]) boot4 := ⟨_, rfl⟩
    have hfreed : k.count = 1 ∧ k.freed = [] ∧ k.ldq = [] ∧ k.loading = none ∧
        ∀ p, k.wait p = [] := by
      rw [hk]
      decide
    obtain ⟨hcount, hfreed, hldq, hload, hwait⟩ := hfreed
    rw [← hk] at h
    rcases h.once 0 (by rw [hcount]; decide) with ⟨h₁, -⟩ | ⟨-, -, t, ⟨-, hs⟩, -⟩
    · rw [hfreed] at h₁
      cases h₁
    · rcases hs with ⟨p, hp⟩ | hs | hs
      · rw [hwait] at hp
        exact absurd hp List.not_mem_nil
      · rw [hldq] at hs
        exact absurd hs List.not_mem_nil
      · cases hload.symm.trans hs

/-- Task 0 grows where it is while its request is outstanding. -/
theorem steady_of_reach_grow : ((machine config4).runAll ([.trqst 3 found4, .trqst 0 found4,
    .next, .ldend end4, .qio 0] ++ [.exttsk 0 256 false true]) boot4).Steady := by
  refine steady_of_reach boot4_boot (Machine.reach_runAll (Machine.admits_append ?_ ?_))
  · refine ⟨⟨trivial, trivial, Or.inl rfl⟩, ⟨trivial, trivial, Or.inl rfl⟩,
      ⟨trivial, trivial, trivial⟩, ⟨trivial, ?_, (by rintro _ ⟨⟩)⟩, ⟨?_, ?_, trivial⟩, trivial⟩
    · exact fun _ _ _ => by rintro ⟨⟩
    · exact ⟨by decide, by decide, by decide⟩
    · change ((_ : ℕ) < 255)
      decide
  · refine ⟨⟨⟨⟨by decide, by decide, by decide⟩, by decide⟩, trivial,
      fun _ top htop => ?_⟩, trivial⟩
    obtain ⟨k, hk⟩ : ∃ k, k = (machine config4).runAll [.trqst 3 found4, .trqst 0 found4,
      .next, .ldend end4, .qio 0] boot4 := ⟨_, rfl⟩
    have hnew : Kernel.newtop (k.tcb 0) 256 = .ok 8191 ∧
        (k.main (k.tcb 0).pcb).sizes 0 ≤ ea2pg 8191 ∧
        (k.main (k.tcb 0).pcb).unlpcb 0 = some ([], []) ∧
        ea2pg 8191 ≤ (k.main (k.tcb 0).pcb).space 0 [] := by
      rw [hk]
      decide
    obtain ⟨hnew, hsize, hunl, hspace⟩ := hnew
    rw [← hk] at htop ⊢
    obtain rfl : 8191 = top := Except.ok.inj (hnew.symm.trans htop)
    refine ⟨hsize, fun l₁ l₂ hl => Or.inl ?_⟩
    obtain ⟨-, rfl⟩ := Prod.mk.inj (Option.some.inj (hunl.symm.trans hl))
    exact hspace

/-- Task 1 has the page behind task 0. When task 0 asks for a second page while its request
is outstanding it is moved, and the request still has the old base. -/
theorem moved_of_exttsk : ∃ (c : Config (Fin 4) Unit) (k k' : Kernel (Fin 4) Bool Unit),
    k.Boot ∧ Reach ((machine c).Step fun op k => op.Sane c k) k k' ∧ ¬k'.Steady := by
  refine ⟨config4, boot4, (machine config4).runAll [.trqst 3 found4, .trqst 0 found4, .next,
    .ldend end4, .trqst 1 found4, .next, .ldend end4, .qio 0, .exttsk 0 256 false true] boot4,
    boot4_boot, Machine.reach_runAll ?_, fun h => ?_⟩
  · refine ⟨⟨trivial, trivial⟩, ⟨trivial, trivial⟩, ⟨trivial, trivial⟩, ⟨trivial, ?_⟩,
      ⟨trivial, trivial⟩, ⟨trivial, trivial⟩, ⟨trivial, ?_⟩, ⟨?_, ?_⟩, ⟨⟨?_, by decide⟩, trivial⟩,
      trivial⟩
    · exact fun _ _ _ => nofun
    · exact fun _ _ _ => nofun
    · exact ⟨by decide, by decide, by decide⟩
    · change ((_ : ℕ) < 255)
      decide
    · exact ⟨by decide, by decide, by decide⟩
  · obtain ⟨k, hk⟩ : ∃ k, k = (machine config4).runAll [.trqst 3 found4, .trqst 0 found4,
      .next, .ldend end4, .trqst 1 found4, .next, .ldend end4, .qio 0,
      .exttsk 0 256 false true] boot4 := ⟨_, rfl⟩
    have hmoved : k.io 0 = [(0, 1)] ∧ k.region 0 = (2, 2) := by
      rw [hk]
      decide
    rw [← hk] at h
    have hbase := (h.region 0 (0, 1) (by rw [hmoved.1]; decide)).1
    rw [hmoved.2] at hbase
    exact absurd hbase (by decide)

end RSX280.Chkpt
