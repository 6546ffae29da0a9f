import RSX280.Connect

/-!
# What the directives do with OCBs

`Does` says which OCBs a routine gets from the pool and gives back, and which it puts into lists and takes out of them.
There is one lemma for each routine of `Request`, and `call_flow` for a directive as a whole.
-/

namespace RSX280.Connect

open Request Tokens

universe u

variable {T : Type u}

/-! ### Blocks -/

/-- The OCBs that the packet has. -/
def ocbsIn : Packet T → List (Ocb T)
  | .command _ l _ => l
  | .data .. => []

@[simp] theorem ocbs_nil : Conns.ocbs ([] : List (Blk T)) = [] := rfl

@[simp] theorem ocbs_cons_ocb (o : Ocb T) (l : List (Blk T)) : Conns.ocbs (.ocb o :: l) = o :: Conns.ocbs l := rfl

theorem ocbs_cons_other {b : Blk T} (h : b.isOcb = false) (l : List (Blk T)) : Conns.ocbs (b :: l) = Conns.ocbs l := by
  cases b with
  | ocb o => simp [Blk.isOcb] at h
  | cmd | pcb | ctx | packet => rfl

theorem mem_ocbs {o : Ocb T} {l : List (Blk T)} : o ∈ Conns.ocbs l ↔ Blk.ocb o ∈ l := by
  induction l with
  | nil => simp
  | cons b l ih =>
    cases b with
    | ocb p => simp [ih]
    | cmd | pcb | ctx | packet => exact ih.trans (by simp)

/-! ### Books -/

/-- The OCBs in the lists of a task. -/
def place (b : Request.Task T) : Multiset (Ocb T) := (b.ocbl : Multiset (Ocb T)) + (b.rcvl.flatMap ocbsIn : List (Ocb T))

variable [Fintype T]

/-- The OCBs that have been taken from the pool, and those in the lists of the tasks. -/
def books (k : Kern T) : Books (Ocb T) := ⟨(Conns.ocbs k.held : List (Ocb T)), total fun x => place (k.tcb x)⟩

/-- A task that is not active has no OCBs. -/
def Quiet (k : Kern T) : Prop := ∀ x, (k.tcb x).act = false → place (k.tcb x) = 0

/-- A task that is no CLI gets no commands. -/
def Plain (k : Kern T) : Prop := ∀ x, (k.tcb x).cli = false → ∀ p ∈ (k.tcb x).rcvl, ocbsIn p = []

/-- What a routine does with OCBs: it gets some from the pool and gives some back, and puts some into lists and takes some
out of them. Tasks may be started. -/
structure Does (k k' : Kern T) (got back put took : Multiset (Ocb T)) : Prop where
  pool : (books k').pool + back = (books k).pool + got
  placed : (books k').placed + took = (books k).placed + put
  ctcb : k'.ctcb = k.ctcb
  cli : ∀ x, (k'.tcb x).cli = (k.tcb x).cli
  act : ∀ x, (k.tcb x).act = true → (k'.tcb x).act = true
  idle : ∀ x, (k'.tcb x).act = false → place (k'.tcb x) ≤ place (k.tcb x)
  plain : Plain k → Plain k'

variable {k k' k'' : Kern T} {r : Req T} {m : Room} {t : T} {o : Ocb T}

namespace Does

variable {g g' b b' p p' q q' : Multiset (Ocb T)}

theorem refl (k : Kern T) : Does k k 0 0 0 0 where
  pool := rfl
  placed := rfl
  ctcb := rfl
  cli _ := rfl
  act _ h := h
  idle _ _ := le_rfl
  plain h := h

theorem trans (h : Does k k' g b p q) (h' : Does k' k'' g' b' p' q') :
    Does k k'' (g + g') (b + b') (p + p') (q + q') where
  pool := by
    calc (books k'').pool + (b + b') = ((books k'').pool + b') + b := by abel
      _ = ((books k').pool + b) + g' := by rw [h'.pool]; abel
      _ = (books k).pool + (g + g') := by rw [h.pool]; abel
  placed := by
    calc (books k'').placed + (q + q') = ((books k'').placed + q') + q := by abel
      _ = ((books k').placed + q) + p' := by rw [h'.placed]; abel
      _ = (books k).placed + (p + p') := by rw [h.placed]; abel
  ctcb := h'.ctcb.trans h.ctcb
  cli x := (h'.cli x).trans (h.cli x)
  act x hx := h'.act x (h.act x hx)
  idle x hx := by
    have before : (k'.tcb x).act = false := by
      by_contra ha
      have := h'.act x (by simpa using ha)
      simp [hx] at this
    exact (h'.idle x hx).trans (h.idle x before)
  plain hp := h'.plain (h.plain hp)

/-- Nothing is done with OCBs before or after. -/
theorem after (h : Does k k' 0 0 0 0) (h' : Does k' k'' g b p q) : Does k k'' g b p q := by
  simpa using h.trans h'

theorem before (h : Does k k' g b p q) (h' : Does k' k'' 0 0 0 0) : Does k k'' g b p q := by
  simpa using h.trans h'

theorem quiet (h : Does k k' g b p q) (hk : Quiet k) : Quiet k' := by
  intro x hx
  have before : (k.tcb x).act = false := by
    by_contra ha
    have := h.act x (by simpa using ha)
    simp [hx] at this
  have le := h.idle x hx
  rw [hk x before] at le
  exact Multiset.le_zero.mp le

end Does

/-- The blocks of the pool change, but not the OCBs. -/
theorem does_held (ht : k'.tcb = k.tcb) (hc : k'.ctcb = k.ctcb) (hh : Conns.ocbs k'.held = Conns.ocbs k.held) :
    Does k k' 0 0 0 0 where
  pool := by simp [books, hh]
  placed := by simp [books, ht]
  ctcb := hc
  cli _ := by rw [ht]
  act _ h := by rwa [ht]
  idle _ _ := by rw [ht]
  plain h := by
    intro x
    rw [ht]
    exact h x

theorem does_take {c : Blk T} (h : c.isOcb = false) : Does k (k.take c) 0 0 0 0 := does_held rfl rfl (ocbs_cons_other h _)

variable [DecidableEq T]

omit [Fintype T] in
theorem ocbs_erase_other {b : Blk T} (h : b.isOcb = false) (l : List (Blk T)) :
    Conns.ocbs (l.erase b) = Conns.ocbs l := by
  induction l with
  | nil => rfl
  | cons c l ih =>
    by_cases hc : c = b
    · subst hc
      simp [ocbs_cons_other h]
    · rw [List.erase_cons_tail (by simpa using hc)]
      cases c with
      | ocb p => simp [ih]
      | cmd | pcb | ctx | packet => exact ih

omit [Fintype T] in
theorem ocbs_erase_ocb (o : Ocb T) (l : List (Blk T)) : Conns.ocbs (l.erase (.ocb o)) = (Conns.ocbs l).erase o := by
  induction l with
  | nil => rfl
  | cons c l ih =>
    by_cases hc : c = .ocb o
    · subst hc
      simp
    · rw [List.erase_cons_tail (by simpa using hc)]
      cases c with
      | ocb p =>
        have hp : p ≠ o := by
          intro e
          exact hc (e ▸ rfl)
        rw [ocbs_cons_ocb, ocbs_cons_ocb, ih, List.erase_cons_tail (by simpa using hp)]
      | cmd | pcb | ctx | packet => exact ih

theorem does_free {c : Blk T} (h : c.isOcb = false) : Does k (k.free c) 0 0 0 0 :=
  does_held rfl rfl (ocbs_erase_other h _)

/-- The OCBs of one task change. -/
theorem does_setTask {c : Request.Task T} {p q : Multiset (Ocb T)} (hc : c.cli = (k.tcb t).cli)
    (ha : (k.tcb t).act = true → c.act = true) (hp : place c + q = place (k.tcb t) + p)
    (hi : c.act = false → place c ≤ place (k.tcb t))
    (hl : c.cli = false → (∀ x ∈ (k.tcb t).rcvl, ocbsIn x = []) → ∀ x ∈ c.rcvl, ocbsIn x = []) :
    Does k (k.setTask t c) 0 0 p q where
  pool := rfl
  placed := by
    have moved := total_update (f := fun x => place (k.tcb x)) (g := fun x => place ((k.setTask t c).tcb x)) t (by
      intro x hx
      simp [Kern.setTask, hx])
    simp only [Kern.setTask, Function.update_self] at moved
    apply add_right_cancel (b := place (k.tcb t))
    calc (books (k.setTask t c)).placed + q + place (k.tcb t)
        = ((books (k.setTask t c)).placed + place (k.tcb t)) + q := by abel
      _ = (books k).placed + (place c + q) := by
        rw [books, books, Kern.setTask]
        simp only
        rw [moved, add_assoc]
      _ = (books k).placed + p + place (k.tcb t) := by rw [hp]; abel
  ctcb := rfl
  cli x := by
    by_cases hx : x = t
    · subst hx
      simp [Kern.setTask, hc]
    · simp [Kern.setTask, hx]
  act x hx := by
    by_cases he : x = t
    · subst he
      simp [Kern.setTask, ha hx]
    · simpa [Kern.setTask, he] using hx
  idle x hx := by
    by_cases he : x = t
    · subst he
      simp only [Kern.setTask, Function.update_self] at hx ⊢
      exact hi hx
    · simp [Kern.setTask, he]
  plain hk x hx := by
    by_cases he : x = t
    · subst he
      simp only [Kern.setTask, Function.update_self] at hx ⊢
      exact hl hx (hk x (hc ▸ hx))
    · simp only [Kern.setTask, Function.update_of_ne he] at hx ⊢
      exact hk x hx

/-- The lists of the task stay. -/
theorem does_setTask_same {c : Request.Task T} (hc : c.cli = (k.tcb t).cli) (ha : (k.tcb t).act = true → c.act = true)
    (ho : c.ocbl = (k.tcb t).ocbl) (hr : c.rcvl = (k.tcb t).rcvl) : Does k (k.setTask t c) 0 0 0 0 := by
  have same : place c = place (k.tcb t) := by rw [place, place, ho, hr]
  apply does_setTask hc ha (by rw [same])
  · intro _
    rw [same]
  · intro _ h
    rw [hr]
    exact h

/-! ### Packets -/

/-- A packet with OCBs goes to the receive list of a CLI, or one without them to any. -/
theorem does_send {x : Packet T} (active : (k.tcb t).act = true) (hc : (k.tcb t).cli = false → ocbsIn x = []) :
    ∃ k', (k.take (.packet x)).send t x = (k', none) ∧
      Does k k' 0 0 (ocbsIn x : List (Ocb T)) 0 ∧ (k'.tcb t).act = true := by
  let b := k.tcb t
  let k' := (k.take (.packet x)).setTask t { b with rcvl := Queue.enqueue Packet.pri x b.rcvl }
  refine ⟨k', ?_, ?_, ?_⟩
  · exact if_pos active
  · apply Does.after (does_take (c := .packet x) rfl)
    apply does_setTask
    · rfl
    · exact id
    · have split := List.takeWhile_append_dropWhile (p := fun a : Packet T => decide (x.pri ≤ a.pri)) (l := b.rcvl)
      have all : b.rcvl.flatMap ocbsIn = (b.rcvl.takeWhile fun a => decide (x.pri ≤ a.pri)).flatMap ocbsIn ++
          (b.rcvl.dropWhile fun a => decide (x.pri ≤ a.pri)).flatMap ocbsIn := by
        rw [← List.flatMap_append, split]
      simp only [place, Kern.take, Queue.enqueue, List.flatMap_append, List.flatMap_cons, ← Multiset.coe_add]
      rw [show (k.tcb t).rcvl = b.rcvl from rfl, all, ← Multiset.coe_add]
      abel
    · intro h
      exact absurd active (by simpa using h)
    · intro hn old y hy
      rcases Queue.mem_enqueue.mp hy with rfl | hy
      · exact hc hn
      · exact old y hy
  · simp [k', Kern.setTask, b, active]

theorem does_frecmd (k : Kern T) : Does k k.frecmd 0 0 0 0 := by
  unfold Kern.frecmd
  cases k.cmdptr with
  | none => exact Does.refl k
  | some l => exact does_free rfl

omit [Fintype T] in
@[simp] theorem frecmd_tcb (k : Kern T) : k.frecmd.tcb = k.tcb := by
  unfold Kern.frecmd
  cases k.cmdptr <;> rfl

omit [DecidableEq T] in
/-- The length of a command line, its buffer and the pool decide whether there is one. -/
theorem does_getcmd (k : Kern T) (r : Req T) (m : Room) : Does k (k.getcmd r m).1 0 0 0 0 := by
  have cleared : Does k { k with cmdptr := none } 0 0 0 0 := does_held rfl rfl rfl
  unfold Kern.getcmd
  split_ifs
  · exact cleared
  · exact cleared
  · exact cleared
  · exact cleared
  · exact cleared
  · exact does_held rfl rfl rfl

omit [Fintype T] [DecidableEq T] in
theorem getcmd_tcb (k : Kern T) (r : Req T) (m : Room) : (k.getcmd r m).1.tcb = k.tcb := by
  unfold Kern.getcmd
  split_ifs <;> rfl

/-! ### Starting a task -/

/-- A task that has no OCBs. -/
theorem does_clear {c : Request.Task T} (hc : c.cli = (k.tcb t).cli) (ha : (k.tcb t).act = true → c.act = true)
    (ho : c.ocbl = []) (hr : c.rcvl = []) : Does k (k.setTask t c) 0 0 0 (place (k.tcb t)) := by
  have none : place c = 0 := by simp [place, ho, hr]
  apply does_setTask hc ha
  · rw [none]
    abel
  · intro _
    simp [none]
  · intro _ _
    simp [hr]

/-- The TCB has no lists, and the pool has its OCBs. -/
structure Cleared (k k' : Kern T) (t : T) (c : Request.Task T) : Prop where
  tcb : k'.tcb = Function.update k.tcb t c
  ctcb : k'.ctcb = k.ctcb
  held : Conns.ocbs k'.held = Conns.ocbs k.held
  cli : c.cli = (k.tcb t).cli
  ocbl : c.ocbl = []
  rcvl : c.rcvl = []

theorem Cleared.does {c : Request.Task T} (h : Cleared k k' t c) (ha : (k.tcb t).act = false) :
    Does k k' 0 0 0 (place (k.tcb t)) := by
  have set : Does k (k.setTask t c) 0 0 0 (place (k.tcb t)) := by
    apply does_clear h.cli _ h.ocbl h.rcvl
    simp [ha]
  exact set.before (does_held h.tcb h.ctcb h.held)

omit [Fintype T] in
/-- `TRQST` of a task that is not active clears its lists, whether it can be started or not. -/
theorem trq1_cleared (ha : (k.tcb t).act = false) :
    ∃ c, Cleared k (k.trq1 r m t).1 t c ∧ ((k.trq1 r m t).2 = none → c.act = true) := by
  by_cases hs : k.Starts r m t
  · obtain ⟨u, started⟩ := Kern.trq1_of_starts (by simp [ha]) hs
    rw [started]
    refine ⟨Kern.fresh (k.tcb t) r u, ⟨rfl, rfl, ?_, rfl, rfl, rfl⟩, fun _ => rfl⟩
    simp only [Kern.grown]
    split_ifs <;> rfl
  · unfold Kern.trq1
    cases hu : r.ucb with
    | none => exact ⟨_, ⟨rfl, rfl, rfl, rfl, rfl, rfl⟩, by simp⟩
    | some u =>
      -- no case in which the task is started, and what has been taken is given back
      simp only [Kern.Starts, ha, hu, Option.isSome_some, true_and, not_or, not_and, Bool.false_eq_true, if_false] at hs
      refine ⟨Kern.reset (k.tcb t) r u, ?_, ?_⟩
      · by_cases hz : m.size <;> by_cases hy : (k.tcb t).sys <;> by_cases hp : m.pcb <;> by_cases hx : m.ctx
        all_goals constructor <;> simp_all [Kern.setTask, Kern.reset, Kern.take, Kern.free]
      · by_cases hz : m.size <;> by_cases hy : (k.tcb t).sys <;> by_cases hp : m.pcb <;> by_cases hx : m.ctx
        all_goals simp_all

/-- Starting a task loses the OCBs that it has when it is not active. -/
theorem does_trqst (k : Kern T) (r : Req T) (m : Room) (t : T) :
    ∃ lost, Does k (k.trqst r m t).1 0 0 0 lost ∧ (Quiet k → lost = 0) ∧
      ((k.trqst r m t).2 = none → ((k.trqst r m t).1.tcb t).act = true) := by
  cases ha : (k.tcb t).act with
  | false =>
    obtain ⟨c, cleared, started⟩ := trq1_cleared (r := r) (m := m) ha
    have branch : k.trqst r m t = k.trq1 r m t := by simp [Kern.trqst, ha]
    rw [branch]
    refine ⟨place (k.tcb t), cleared.does ha, ?_, ?_⟩
    · intro quiet
      exact quiet t ha
    · intro h
      rw [cleared.tcb, Function.update_self, started h]
  | true =>
    refine ⟨0, ?_⟩
    by_cases hc : (k.tcb t).cli ∨ (k.tcb t).acp
    · have branch : k.trqst r m t = (k, none) := by simp [Kern.trqst, ha, hc]
      rw [branch]
      exact ⟨Does.refl k, fun _ => rfl, fun _ => ha⟩
    · have branch : k.trqst r m t = (k, some .trun) := by simp [Kern.trqst, ha, hc]
      rw [branch]
      exact ⟨Does.refl k, fun _ => rfl, by simp⟩

end RSX280.Connect
