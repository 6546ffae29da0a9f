import Mathlib.Data.List.Perm.Basic
import RSX280.SchedLists

/-!
# Declaring AST routines (`ast.mac`, `ASTDCL`)

The control blocks `T.SAST` and the event blocks `T.ASTL` of one task with their
addresses in the pool, as the routines walk and unlink them. The stack is part of the
model: `ASTDCL` keeps the routine address on it, and a return takes what lies on top.
-/

namespace RSX280.Astdcl

open Sched

/-- An AST control block. -/
structure Control where
  /-- where it lies in the pool -/
  loc : ℕ
  /-- `A.TYP` -/
  typ : ℕ
  /-- `A.ADDR` -/
  addr : ℕ
  deriving DecidableEq, Repr

/-- An AST event block. -/
structure Event where
  loc : ℕ
  /-- `A.SIZ`: size of the data area -/
  siz : ℕ
  typ : ℕ
  addr : ℕ
  deriving DecidableEq, Repr

/-- What the routines see of a task. -/
structure Task where
  /-- `T.SAST` -/
  sast : List Control
  /-- `T.ASTL` -/
  astl : List Event
  /-- `TA.PRV` -/
  prv : Bool
  /-- `TS.ABX` -/
  abx : Bool
  deriving DecidableEq, Repr

/-- `ACBSZ` -/
def ACBSZ : ℕ := 6

/-- `AST.IO` -/
def AST.IO : ℕ := 1
/-- `AST.UC` -/
def AST.UC : ℕ := 2
/-- `AST.CK` -/
def AST.CK : ℕ := 4
/-- `AST.AB` -/
def AST.AB : ℕ := 6

/-- What is given back to the pool for a block: its address and size. -/
def Control.extent (b : Control) : ℕ × ℕ := (b.loc, ACBSZ)

@[inherit_doc Control.extent]
def Event.extent (b : Event) : ℕ × ℕ := (b.loc, ACBSZ + b.siz)

/-! ## The routines -/

/-- `chktyp`: a type that needs no control block. -/
def chktyp (a : ℕ) : Bool := a = AST.IO || a = AST.UC || a = AST.CK

/-- `FNDAST`: the blocks before the one of type `c`, that block, and those behind it. -/
def fndast (c : ℕ) : List Control → Option (List Control × Control × List Control)
  | [] => none
  | b :: l =>
    if b.typ = c then some ([], b, l) else (fndast c l).map fun r => (b :: r.1, r.2)

/-- The loop `adcl4`: the events that stay, and what is freed. It takes the low byte of
a link for the whole of it. -/
def adcl4 (c : ℕ) : List Event → List Event × List (ℕ × ℕ)
  | [] => ([], [])
  | b :: l =>
    if b.loc % 256 = 0 then (b :: l, [])
    else if b.typ = c then ((adcl4 c l).1, b.extent :: (adcl4 c l).2)
    else (b :: (adcl4 c l).1, (adcl4 c l).2)

/-- How a call ends: the task, what has been freed, the error in A if the carry is set,
where it returns to, and the stack then. -/
structure Exit where
  task : Task
  freed : List (ℕ × ℕ)
  a : Option Err
  pc : ℕ
  stack : List ℕ
  deriving DecidableEq

/-- `ret` -/
def ret (s : List ℕ) (t : Task) (freed : List (ℕ × ℕ)) (a : Option Err) : Exit :=
  ⟨t, freed, a, s.headD 0, s.tail⟩

/-- `ASTDCL` of routine `de` for type `c`, with what `$ALLOC` would give and the stack
at entry. -/
def astdcl (t : Task) (c de : ℕ) (room : Except Err ℕ) (stack : List ℕ) : Exit :=
  if chktyp c then ret stack t [] (some .inv)
  else
    let pushed := de :: stack
    match fndast c t.sast with
    | some (l, b, r) =>
      -- the refusal returns with the routine address still on the stack
      if c = AST.AB ∧ !t.prv ∧ t.abx then ret pushed t [] (some .badop)
      else if pushed.headD 0 = 0 then
        ret pushed.tail { t with sast := l ++ r, astl := (adcl4 c t.astl).1 }
          (b.extent :: (adcl4 c t.astl).2) none
      else
        ret pushed.tail { t with sast := l ++ { b with addr := pushed.headD 0 } :: r } [] none
    | none =>
      if pushed.headD 0 = 0 then ret pushed.tail t [] none
      else
        match room with
        | .error e => ret pushed.tail t [] (some e)
        | .ok hl =>
          ret pushed.tail { t with sast := t.sast ++ [⟨hl, c, pushed.headD 0⟩] } [] none

/-- `QAST` of an event of type `a` with `siz` bytes of data: a type with bit 7 or
without control block comes with its routine, others take that of their control block. -/
def qast (t : Task) (a de siz : ℕ) (room : Except Err ℕ) : Task × Option Err :=
  let link (addr : ℕ) : Task × Option Err :=
    if addr = 0 then (t, none)
    else
      match room with
      | .error e => (t, some e)
      | .ok hl => ({ t with astl := t.astl ++ [⟨hl, siz, a, addr⟩] }, none)
  if a.testBit 7 || chktyp a then link de
  else
    match fndast a t.sast with
    | none => (t, none)
    | some (_, b, _) => link b.addr

/-! ## What is declared -/

namespace Task

/-- The routine declared for type `c`. -/
def declared (t : Task) (c : ℕ) : Option ℕ :=
  (t.sast.find? fun b => b.typ = c).map Control.addr

/-- Control blocks have different types. -/
def Single (t : Task) : Prop := (t.sast.map Control.typ).Nodup

instance (t : Task) : Decidable t.Single := by unfold Single; infer_instance

/-- An event has a type that needs no control block, or one declared. -/
def Covered (t : Task) : Prop :=
  ∀ b ∈ t.astl, b.typ.testBit 7 ∨ chktyp b.typ ∨ (t.declared b.typ).isSome

/-- The blocks a task holds. -/
def extents (t : Task) : List (ℕ × ℕ) := t.sast.map Control.extent ++ t.astl.map Event.extent

end Task

/-- What is declared for `c` after `de` has been: a routine, or nothing for 0. -/
def entry (de : ℕ) : Option ℕ := if de = 0 then none else some de

variable {t : Task} {c de : ℕ}

theorem fndast_none {l : List Control} : fndast c l = none ↔ ∀ b ∈ l, b.typ ≠ c := by
  induction l with
  | nil => simp [fndast]
  | cons b l ih =>
    rw [fndast]
    split
    · simp [*]
    · simp [*]

theorem fndast_some {l p q : List Control} {b : Control} (h : fndast c l = some (p, b, q)) :
    l = p ++ b :: q ∧ b.typ = c ∧ ∀ x ∈ p, x.typ ≠ c := by
  induction l generalizing p with
  | nil => simp [fndast] at h
  | cons x l ih =>
    rw [fndast] at h
    split at h
    · rename_i hx
      simp only [Option.some.injEq, Prod.mk.injEq] at h
      obtain ⟨rfl, rfl, rfl⟩ := h
      exact ⟨rfl, hx, by simp⟩
    · rename_i hx
      obtain ⟨r, hr, he⟩ := Option.map_eq_some_iff.mp h
      obtain ⟨p', b', q'⟩ := r
      simp only [Prod.mk.injEq] at he
      obtain ⟨rfl, rfl, rfl⟩ := he
      obtain ⟨rfl, hb, hp⟩ := ih hr
      refine ⟨rfl, hb, ?_⟩
      simpa [hx] using hp

/-- The events the scan comes to. -/
def seen (l : List Event) : List Event := l.takeWhile fun b => b.loc % 256 ≠ 0

/-- The events it does not come to. -/
def unseen (l : List Event) : List Event := l.dropWhile fun b => b.loc % 256 ≠ 0

theorem seen_append (l : List Event) : seen l ++ unseen l = l := List.takeWhile_append_dropWhile

theorem adcl4_eq (l : List Event) :
    adcl4 c l = ((seen l).filter (fun b => b.typ ≠ c) ++ unseen l,
      ((seen l).filter fun b => b.typ = c).map Event.extent) := by
  induction l with
  | nil => simp [adcl4, seen, unseen]
  | cons b l ih =>
    rw [adcl4, ih]
    by_cases h : b.loc % 256 = 0
    · simp [seen, unseen, h]
    · by_cases hc : b.typ = c
      · simp [seen, unseen, h, hc]
      · simp [seen, unseen, h, hc]

/-- The scan takes off the events of the type exactly when it comes to all of them. -/
theorem adcl4_filter_iff (l : List Event) :
    (adcl4 c l).1 = l.filter (fun b => b.typ ≠ c) ↔ ∀ b ∈ unseen l, b.typ ≠ c := by
  have e : l.filter (fun b => b.typ ≠ c) =
      (seen l).filter (fun b => b.typ ≠ c) ++ (unseen l).filter fun b => b.typ ≠ c := by
    rw [← List.filter_append, seen_append]
  rw [adcl4_eq, e, List.append_cancel_left_eq, eq_comm, List.filter_eq_self]
  simp

/-- What the scan takes off is what it frees. -/
theorem adcl4_perm (l : List Event) :
    (l.map Event.extent).Perm ((adcl4 c l).1.map Event.extent ++ (adcl4 c l).2) := by
  have hp : (seen l).Perm ((seen l).filter (fun b => b.typ ≠ c) ++
      (seen l).filter fun b => b.typ = c) := by
    refine ((List.filter_append_perm (fun b => decide (b.typ = c)) _).symm.trans
      List.perm_append_comm).trans (.of_eq ?_)
    simp
  have he : l.map Event.extent = (seen l).map Event.extent ++ (unseen l).map Event.extent := by
    rw [← List.map_append, seen_append]
  have hm := (hp.map Event.extent).append_right ((unseen l).map Event.extent)
  rw [List.map_append, List.append_assoc] at hm
  rw [he, adcl4_eq, List.map_append, List.append_assoc]
  exact hm.trans (List.perm_append_comm.append_left _)

/-! ## A call -/

/-- A call does what is asked: it comes back to `pc` with the stack as it was, an error
changes nothing, success leaves `de` declared for `c` and all else as it was. A type no
longer declared has no events, the others keep theirs in order; and of the blocks held
before, with the one allocated, each is held still or has been freed, once. -/
structure Meets (t : Task) (c de : ℕ) (room : Except Err ℕ) (pc : ℕ) (s : List ℕ) (e : Exit) :
    Prop where
  balanced : e.pc = pc ∧ e.stack = s
  failed : e.a ≠ none → e.task = t
  declares : e.a = none → e.task.declared = Function.update t.declared c (entry de)
  events : e.task.astl =
    if e.a = none ∧ de = 0 then t.astl.filter (fun b => b.typ ≠ c) else t.astl
  flags : e.task.prv = t.prv ∧ e.task.abx = t.abx
  freed : ∃ new : List (ℕ × ℕ), (∀ b ∈ new, room = .ok b.1 ∧ b.2 = ACBSZ) ∧ new.length ≤ 1 ∧
    (t.extents ++ new).Perm (e.task.extents ++ e.freed)

/-- When a call does what is asked. A task without privilege that is being aborted may not
touch its abort routine; and no event of a type to be taken off lies behind a block at a
multiple of 256, or is queued for a type not declared. -/
def Clean (t : Task) (c de : ℕ) : Prop :=
  chktyp c ∨
    ((t.declared c).isSome → ¬(c = AST.AB ∧ !t.prv ∧ t.abx)) ∧
    (de = 0 → ∀ b ∈ if (t.declared c).isSome then unseen t.astl else t.astl, b.typ ≠ c)

instance : Decidable (Clean t c de) := by unfold Clean; infer_instance

namespace Task

theorem declared_of_none (h : fndast c t.sast = none) : t.declared c = none := by
  rw [declared, List.find?_eq_none.mpr]
  · rfl
  · simpa using fndast_none.mp h

theorem declared_of_append {l r : List Control} {b : Control} (h : t.sast = l ++ b :: r)
    (hb : b.typ = c) (hl : ∀ x ∈ l, x.typ ≠ c) : t.declared c = some b.addr := by
  have hn : l.find? (fun x => decide (x.typ = c)) = none := by
    rw [List.find?_eq_none]
    simpa using hl
  rw [declared, h, List.find?_append, hn]
  simp [hb]

/-- A block put in for one of the same type, or taken out, changes nothing for others. -/
theorem declared_of_ne {l r m m' : List Control} {x : ℕ} (hm : ∀ b ∈ m, b.typ = c)
    (hm' : ∀ b ∈ m', b.typ = c) (hx : x ≠ c) (u : Task) (ht : t.sast = l ++ m ++ r)
    (hu : u.sast = l ++ m' ++ r) : u.declared x = t.declared x := by
  have none_of {n : List Control} (hn : ∀ b ∈ n, b.typ = c) :
      n.find? (fun b => decide (b.typ = x)) = none := by
    rw [List.find?_eq_none]
    intro b hb
    simp only [decide_eq_true_eq, hn b hb]
    exact hx.symm
  simp only [declared, ht, hu, List.find?_append, none_of hm, none_of hm']

end Task

/-- The ways a call ends. -/
inductive Ends (t : Task) (c de pc : ℕ) (s : List ℕ) : Except Err ℕ → Exit → Prop where
  | special {room : Except Err ℕ} (hk : chktyp c) : Ends t c de pc s room ⟨t, [], some .inv, pc, s⟩
  | undeclared {room : Except Err ℕ} (hk : ¬chktyp c) (hn : fndast c t.sast = none) (hd : de = 0) :
    Ends t c de pc s room ⟨t, [], none, pc, s⟩
  | full {e : Err} (hk : ¬chktyp c) (hn : fndast c t.sast = none) (hd : de ≠ 0) :
    Ends t c de pc s (.error e) ⟨t, [], some e, pc, s⟩
  | new {hl : ℕ} (hk : ¬chktyp c) (hn : fndast c t.sast = none) (hd : de ≠ 0) :
    Ends t c de pc s (.ok hl) ⟨{ t with sast := t.sast ++ [⟨hl, c, de⟩] }, [], none, pc, s⟩
  /-- the routine address is still there, and is where the return goes -/
  | refused {room : Except Err ℕ} {l r : List Control} {b : Control} (hk : ¬chktyp c) (hf : fndast c t.sast = some (l, b, r))
    (hx : c = AST.AB ∧ !t.prv ∧ t.abx) : Ends t c de pc s room ⟨t, [], some .badop, de, pc :: s⟩
  | removed {room : Except Err ℕ} {l r : List Control} {b : Control} (hk : ¬chktyp c) (hf : fndast c t.sast = some (l, b, r))
    (hx : ¬(c = AST.AB ∧ !t.prv ∧ t.abx)) (hd : de = 0) :
    Ends t c de pc s room
      ⟨{ t with sast := l ++ r, astl := (adcl4 c t.astl).1 }, b.extent :: (adcl4 c t.astl).2,
        none, pc, s⟩
  | redeclared {room : Except Err ℕ} {l r : List Control} {b : Control} (hk : ¬chktyp c) (hf : fndast c t.sast = some (l, b, r))
    (hx : ¬(c = AST.AB ∧ !t.prv ∧ t.abx)) (hd : de ≠ 0) :
    Ends t c de pc s room
      ⟨{ t with sast := l ++ { b with addr := de } :: r }, [], none, pc, s⟩

section Calls

variable {room : Except Err ℕ} {pc : ℕ} {s : List ℕ} {l r : List Control} {b : Control}

/-- A call that changes nothing and says so. -/
theorem meets_same {a : Option Err} (ha : a = none → t.declared c = entry de)
    (he : a = none → de = 0 → ∀ b ∈ t.astl, b.typ ≠ c) :
    Meets t c de room pc s ⟨t, [], a, pc, s⟩ where
  balanced := ⟨rfl, rfl⟩
  failed _ := rfl
  declares h := by rw [← ha h, Function.update_eq_self]
  events := by
    split
    · rename_i h
      exact (List.filter_eq_self.mpr fun b hb => by simpa using he h.1 h.2 b hb).symm
    · rfl
  flags := ⟨rfl, rfl⟩
  freed := ⟨[], by simp, by simp, by simp⟩

theorem declared_update (l m m' r : List Control) {u : Task} {v : Option ℕ}
    (hm : ∀ b ∈ m, b.typ = c) (hm' : ∀ b ∈ m', b.typ = c) (ht : t.sast = l ++ m ++ r)
    (hu : u.sast = l ++ m' ++ r) (hv : u.declared c = v) :
    u.declared = Function.update t.declared c v := by
  funext x
  by_cases hx : x = c
  · rw [hx, hv, Function.update_self]
  · rw [Function.update_of_ne hx, Task.declared_of_ne hm hm' hx u ht hu]

/-- A new routine goes into the block the type has. -/
theorem meets_redeclared (ht : t.sast = l ++ b :: r) (hb : b.typ = c) (hl : ∀ x ∈ l, x.typ ≠ c)
    (hd : de ≠ 0) :
    Meets t c de room pc s
      ⟨{ t with sast := l ++ { b with addr := de } :: r }, [], none, pc, s⟩ where
  balanced := ⟨rfl, rfl⟩
  failed h := absurd rfl h
  declares _ := by
    refine declared_update l [b] [{ b with addr := de }] r (by simpa using hb)
      (by simpa using hb) (by simpa using ht) (by simp) ?_
    rw [entry, if_neg hd]
    exact Task.declared_of_append (t := { t with sast := l ++ { b with addr := de } :: r }) rfl hb hl
  events := by simp [hd]
  flags := ⟨rfl, rfl⟩
  freed := ⟨[], by simp, by simp, by simp [Task.extents, ht, Control.extent]⟩

/-- A block for a type that has none. -/
theorem meets_new {hl : ℕ} (hn : fndast c t.sast = none) (hd : de ≠ 0) :
    Meets t c de (.ok hl) pc s ⟨{ t with sast := t.sast ++ [⟨hl, c, de⟩] }, [], none, pc, s⟩ where
  balanced := ⟨rfl, rfl⟩
  failed h := absurd rfl h
  declares _ := by
    refine declared_update t.sast [] [⟨hl, c, de⟩] [] (by simp)
      (by simp) (by simp) (by simp) ?_
    rw [entry, if_neg hd]
    exact Task.declared_of_append (t := { t with sast := t.sast ++ [⟨hl, c, de⟩] }) rfl rfl
      (fndast_none.mp hn)
  events := by simp [hd]
  flags := ⟨rfl, rfl⟩
  freed := by
    refine ⟨[(hl, ACBSZ)], by simp, by simp, ?_⟩
    simp only [Task.extents, List.map_append, List.map_cons, List.map_nil, List.append_nil,
      List.append_assoc, Control.extent]
    exact List.perm_append_comm.append_left _

/-- No block behind the one of a type is of that type. -/
theorem typ_ne_of_behind (h : t.Single) (ht : t.sast = l ++ b :: r) (hb : b.typ = c) :
    ∀ x ∈ r, x.typ ≠ c := by
  rw [Task.Single, ht, List.map_append, List.map_cons] at h
  have hn := (List.nodup_cons.mp (List.nodup_append.mp h).2.1).1
  intro x hx hc
  exact hn (by rw [hb, ← hc]; exact List.mem_map_of_mem hx)

/-- With its block off, a type is not declared any more. -/
theorem declared_removed (h : t.Single) (ht : t.sast = l ++ b :: r) (hb : b.typ = c)
    (hl : ∀ x ∈ l, x.typ ≠ c) (u : Task) (hu : u.sast = l ++ r) :
    u.declared = Function.update t.declared c (entry 0) := by
  have hr := typ_ne_of_behind h ht hb
  refine declared_update l [b] [] r (by simpa using hb) (by simp)
    (by simpa using ht) (by simpa using hu) ?_
  rw [entry, if_pos rfl, Task.declared, List.find?_eq_none.mpr, Option.map_none]
  intro x hx
  rw [hu] at hx
  rcases List.mem_append.mp hx with hx | hx
  · simpa using hl x hx
  · simpa using hr x hx

/-- The block of a type and what the scan comes to are taken off. -/
theorem meets_removed_iff (h : t.Single) (ht : t.sast = l ++ b :: r) (hb : b.typ = c)
    (hl : ∀ x ∈ l, x.typ ≠ c) :
    Meets t c 0 room pc s
      ⟨{ t with sast := l ++ r, astl := (adcl4 c t.astl).1 }, b.extent :: (adcl4 c t.astl).2,
        none, pc, s⟩ ↔ ∀ b ∈ unseen t.astl, b.typ ≠ c := by
  constructor
  · intro hm
    have he := hm.events
    simp only [and_self, if_true] at he
    exact adcl4_filter_iff t.astl |>.mp he
  · intro hu
    refine ⟨⟨rfl, rfl⟩, fun h => absurd rfl h, fun _ => declared_removed h ht hb hl _ rfl, ?_,
      ⟨rfl, rfl⟩, [], by simp, by simp, ?_⟩
    · simp only [and_self, if_true]
      exact adcl4_filter_iff t.astl |>.mpr hu
    · simp only [Task.extents, ht, List.map_append, List.map_cons, List.append_nil,
        List.append_assoc, List.cons_append]
      refine .append_left _ ?_
      exact ((adcl4_perm t.astl).append_left _ |>.cons _).trans
        (by rw [← List.append_assoc, ← List.append_assoc]; exact List.perm_middle.symm)

theorem ends (t : Task) (c de : ℕ) (room : Except Err ℕ) (pc : ℕ) (s : List ℕ) :
    Ends t c de pc s room (astdcl t c de room (pc :: s)) := by
  rw [astdcl]
  by_cases hk : chktyp c
  · rw [if_pos hk]
    exact .special hk
  rw [if_neg hk]
  -- what is pushed is what is popped
  have top : (de :: pc :: s).headD 0 = de := rfl
  rcases hf : fndast c t.sast with _ | ⟨l, b, r⟩
  · by_cases hd : de = 0
    · dsimp only
      rw [top, if_pos hd]
      exact .undeclared hk hf hd
    · dsimp only
      rw [top, if_neg hd]
      cases room with
      | error e => exact .full hk hf hd
      | ok hl => exact .new hk hf hd
  · by_cases hx : c = AST.AB ∧ !t.prv ∧ t.abx
    · dsimp only
      rw [if_pos hx]
      exact .refused hk hf hx
    · by_cases hd : de = 0
      · dsimp only
        rw [if_neg hx, top, if_pos hd]
        exact .removed hk hf hx hd
      · dsimp only
        rw [if_neg hx, top, if_neg hd]
        exact .redeclared hk hf hx hd

theorem clean_none (hk : ¬chktyp c) (hn : fndast c t.sast = none) :
    Clean t c de ↔ (de = 0 → ∀ b ∈ t.astl, b.typ ≠ c) := by
  simp [Clean, hk, Task.declared_of_none hn]

theorem clean_some (hk : ¬chktyp c) (hf : fndast c t.sast = some (l, b, r)) :
    Clean t c de ↔ ¬(c = AST.AB ∧ !t.prv ∧ t.abx) ∧
      (de = 0 → ∀ b ∈ unseen t.astl, b.typ ≠ c) := by
  obtain ⟨ht, hb, hl⟩ := fndast_some hf
  simp [Clean, hk, Task.declared_of_append ht hb hl]

/-- A call does what is asked exactly when it is clean. -/
theorem meets_iff (h : t.Single) :
    Meets t c de room pc s (astdcl t c de room (pc :: s)) ↔ Clean t c de := by
  have he := ends t c de room pc s
  generalize astdcl t c de room (pc :: s) = e at he ⊢
  cases he with
  | special hk => exact iff_of_true (meets_same (by simp) (by simp)) (.inl hk)
  | undeclared hk hn hd =>
    rw [clean_none hk hn]
    constructor
    · intro hm _ b hb
      have he := hm.events
      rw [if_pos ⟨rfl, hd⟩] at he
      simpa using List.filter_eq_self.mp he.symm b hb
    · intro hq
      exact meets_same (fun _ => by rw [Task.declared_of_none hn, entry, if_pos hd])
        (fun _ _ => hq hd)
  | full hk hn hd =>
    rw [clean_none hk hn]
    exact iff_of_true (meets_same (fun h => by cases h) (fun h => by cases h))
      fun h => absurd h hd
  | new hk hn hd =>
    rw [clean_none hk hn]
    exact iff_of_true (meets_new hn hd) fun h => absurd h hd
  | refused hk hf hx =>
    rw [clean_some hk hf]
    refine iff_of_false (fun hm => ?_) fun h => h.1 hx
    have := congrArg List.length hm.balanced.2
    simp at this
  | removed hk hf hx hd =>
    obtain ⟨ht, hb, hl⟩ := fndast_some hf
    rw [clean_some hk hf, hd, meets_removed_iff h ht hb hl]
    simp only [forall_const, iff_and_self]
    exact fun _ => hx
  | redeclared hk hf hx hd =>
    obtain ⟨ht, hb, hl⟩ := fndast_some hf
    rw [clean_some hk hf]
    exact iff_of_true (meets_redeclared ht hb hl hd) ⟨hx, fun h => absurd h hd⟩

/-- A call leaves one block for each type. -/
theorem single_astdcl (h : t.Single) : (astdcl t c de room (pc :: s)).task.Single := by
  have he := ends t c de room pc s
  generalize astdcl t c de room (pc :: s) = e at he ⊢
  cases he with
  | special | undeclared | full | refused => exact h
  | new hk hn hd =>
    rw [Task.Single, List.map_append, List.map_cons, List.map_nil]
    refine List.Nodup.append h (List.nodup_singleton c) ?_
    rw [List.disjoint_singleton, List.mem_map]
    rintro ⟨b, hb, hc⟩
    exact fndast_none.mp hn b hb hc
  | removed hk hf hx hd =>
    obtain ⟨ht, hb, hl⟩ := fndast_some hf
    rw [Task.Single, ht] at h
    exact h.sublist ((List.sublist_append_right [_] _).append_left _ |>.map _)
  | redeclared hk hf hx hd =>
    obtain ⟨ht, hb, hl⟩ := fndast_some hf
    rw [Task.Single, ht, List.map_append, List.map_cons] at h
    rw [Task.Single, List.map_append, List.map_cons]
    exact h

/-- What a call leaves declared, whatever else it does. -/
theorem declared_astdcl (h : t.Single) :
    (astdcl t c de room (pc :: s)).task.declared =
      if (astdcl t c de room (pc :: s)).a = none then Function.update t.declared c (entry de)
      else t.declared := by
  have he := ends t c de room pc s
  generalize astdcl t c de room (pc :: s) = e at he ⊢
  cases he with
  | special | full | refused => rfl
  | undeclared hk hn hd =>
    rw [if_pos rfl, entry, if_pos hd, ← Task.declared_of_none hn, Function.update_eq_self]
  | new hk hn hd => exact (meets_new (s := s) hn hd).declares rfl
  | removed hk hf hx hd =>
    obtain ⟨ht, hb, hl⟩ := fndast_some hf
    rw [hd]
    exact declared_removed h ht hb hl _ rfl
  | redeclared hk hf hx hd =>
    obtain ⟨ht, hb, hl⟩ := fndast_some hf
    have hm : Meets t c de room pc s _ := meets_redeclared ht hb hl hd
    exact hm.declares rfl

end Calls

/-! ## Runs -/

/-- What happens to the queues of a task: a call, an event, the delivery of the first
event, a change of its flags. -/
inductive Op where
  | astdcl (c de : ℕ) (room : Except Err ℕ) (pc : ℕ) (s : List ℕ)
  | qast (a de siz : ℕ) (room : Except Err ℕ)
  | deliver
  | flags (prv abx : Bool)

def Op.run : Op → Task → Task
  | .astdcl c de room pc s, t => (Astdcl.astdcl t c de room (pc :: s)).task
  | .qast a de siz room, t => (Astdcl.qast t a de siz room).1
  | .deliver, t => { t with astl := t.astl.tail }
  | .flags prv abx, t => { t with prv, abx }

def run : List Op → Task → Task
  | [], t => t
  | o :: l, t => run l (o.run t)

/-- What the calls of a run that succeed declare, over what was declared before. -/
def history : List Op → Task → (ℕ → Option ℕ) → ℕ → Option ℕ
  | [], _, d => d
  | .astdcl c de room pc s :: l, t, d =>
    history l (Op.run (.astdcl c de room pc s) t)
      (if (astdcl t c de room (pc :: s)).a = none then Function.update d c (entry de) else d)
  | o :: l, t, d => history l (o.run t) d

theorem qast_sast (t : Task) (a de siz : ℕ) (room : Except Err ℕ) :
    (qast t a de siz room).1.sast = t.sast := by
  rw [qast]
  cases room with
  | error e => grind
  | ok hl => grind

theorem Task.declared_congr {u : Task} (h : u.sast = t.sast) : u.declared = t.declared := by
  funext x
  rw [Task.declared, Task.declared, h]

/-- One step leaves one block for each type. -/
theorem Task.Single.step (h : t.Single) (o : Op) : (o.run t).Single := by
  cases o with
  | astdcl c de room pc s => exact single_astdcl h
  | qast a de siz room =>
    rw [Task.Single, Op.run, qast_sast]
    exact h
  | deliver | flags => exact h

theorem Task.Single.run (h : t.Single) (l : List Op) : (run l t).Single := by
  induction l generalizing t with
  | nil => exact h
  | cons o l ih => exact ih (h.step o)

/-- The blocks of a run hold what its calls have declared. -/
theorem declared_run (h : t.Single) (l : List Op) :
    (run l t).declared = history l t t.declared := by
  induction l generalizing t with
  | nil => rfl
  | cons o l ih =>
    rw [run, ih (h.step o)]
    cases o with
    | astdcl c de room pc s => rw [history, Op.run, declared_astdcl h]
    | qast a de siz room =>
      rw [history, Op.run, Task.declared_congr (qast_sast t a de siz room)]
      exact fun _ _ _ _ _ h => by cases h
    | deliver | flags => rfl

/-- An event is queued for a type that needs no control block, or has one. -/
theorem Task.Covered.qast (h : t.Covered) (a de siz : ℕ) (room : Except Err ℕ) :
    (Astdcl.qast t a de siz room).1.Covered := by
  -- the block linked last is the only one to be looked at
  have link (ha : a.testBit 7 ∨ chktyp a ∨ (t.declared a).isSome) (hl addr : ℕ) :
      Task.Covered { t with astl := t.astl ++ [⟨hl, siz, a, addr⟩] } := by
    intro b hb
    rcases List.mem_append.mp hb with hb | hb
    · exact h b hb
    · rw [List.mem_singleton.mp hb]
      exact ha
  rw [Astdcl.qast]
  split
  · rename_i ha
    have ha : a.testBit 7 ∨ chktyp a ∨ (t.declared a).isSome := by
      rcases Bool.or_eq_true _ _ |>.mp ha with ha | ha
      · exact .inl ha
      · exact .inr (.inl ha)
    cases room with
    | error e => grind
    | ok hl => grind
  · rcases hf : fndast a t.sast with _ | ⟨l, b, r⟩
    · exact h
    · obtain ⟨ht, hb, hl⟩ := fndast_some hf
      have ha : (t.declared a).isSome := by rw [Task.declared_of_append ht hb hl]; rfl
      cases room with
      | error e => grind
      | ok hl => grind

/-- A call that does what is asked takes the events off with their type. -/
theorem Task.Covered.astdcl {room : Except Err ℕ} {pc : ℕ} {s : List ℕ} {e : Exit}
    (h : t.Covered) (hm : Meets t c de room pc s e) : e.task.Covered := by
  by_cases ha : e.a = none
  · intro b hb
    rw [hm.events] at hb
    rw [hm.declares ha]
    by_cases hd : de = 0
    · rw [if_pos ⟨ha, hd⟩] at hb
      obtain ⟨hb, hc⟩ := List.mem_filter.mp hb
      rw [Function.update_of_ne (by simpa using hc)]
      exact h b hb
    · rw [if_neg fun h => hd h.2] at hb
      by_cases hc : b.typ = c
      · rw [hc, Function.update_self, entry, if_neg hd]
        simp
      · rw [Function.update_of_ne hc]
        exact h b hb
  · rw [hm.failed ha]
    exact h

theorem Task.Covered.step (hs : t.Single) (h : t.Covered) (o : Op)
    (ho : ∀ c de room pc s, o = .astdcl c de room pc s → Clean t c de) : (o.run t).Covered := by
  cases o with
  | astdcl c de room pc s => exact h.astdcl ((meets_iff hs).mpr (ho c de room pc s rfl))
  | qast a de siz room => exact h.qast a de siz room
  | deliver => exact fun b hb => h b (List.mem_of_mem_tail hb)
  | flags => exact h

/-- As long as the calls are clean, no event waits for a type not declared: of what makes
a call clean, this part is about types with bit 7 only. -/
theorem Task.Covered.run (hs : t.Single) (h : t.Covered) (l : List Op)
    (hl : ∀ p c de room pc s q, l = p ++ .astdcl c de room pc s :: q → Clean (run p t) c de) :
    (Astdcl.run l t).Covered := by
  induction l generalizing t with
  | nil => exact h
  | cons o l ih =>
    refine ih (hs.step o) (h.step hs o fun c de room pc s ho => ?_) fun p c de room pc s q e => ?_
    · exact hl [] c de room pc s l (by rw [ho]; rfl)
    · exact hl (o :: p) c de room pc s q (by rw [e]; rfl)

/-- In a run, each type has one block at most, which holds the routine its last call has
declared, none if that was 0; and the calls do what is asked exactly when each is clean
where it is made. -/
theorem declares_exactly (h : t.Single) (l : List Op) :
    (run l t).Single ∧ (run l t).declared = history l t t.declared ∧
    ((∀ p c de room pc s q, l = p ++ .astdcl c de room pc s :: q →
        Meets (run p t) c de room pc s (astdcl (run p t) c de room (pc :: s))) ↔
      ∀ p c de room pc s q, l = p ++ .astdcl c de room pc s :: q → Clean (run p t) c de) := by
  refine ⟨h.run l, declared_run h l, ?_⟩
  constructor
  · intro hm p c de room pc s q hl
    exact (meets_iff (h.run p)).mp (hm p c de room pc s q hl)
  · intro hc p c de room pc s q hl
    exact (meets_iff (h.run p)).mpr (hc p c de room pc s q hl)

/-- A routine for received data and one for aborts, and an event of each of two types. -/
def two : Task :=
  { sast := [⟨0x5000, 3, 0x200⟩, ⟨0x5008, 6, 0x300⟩]
    astl := [⟨0x5100, 4, 3, 0x200⟩, ⟨0x5110, 0, 5, 0x280⟩], prv := false, abx := true }

theorem declares_exactly_two :
    (run [.astdcl 3 0x400 (.error .nomem) 0x1234 []] two).declared =
      history [.astdcl 3 0x400 (.error .nomem) 0x1234 []] two two.declared :=
  (declares_exactly (t := two) (by decide) [.astdcl 3 0x400 (.error .nomem) 0x1234 []]).2.1

/-- An event at a multiple of 256 stays with its type no longer declared, and a refused
declaration returns to the routine it was given. -/
theorem declared_wrongly :
    two.Single ∧
    (astdcl two 3 0 (.error .nomem) [0x1234]).task.declared 3 = none ∧
    (astdcl two 3 0 (.error .nomem) [0x1234]).task.astl = two.astl ∧
    (astdcl two 6 0x310 (.error .nomem) [0x1234]).pc = 0x310 ∧
    ¬∀ (t : Task) (c de : ℕ) (room : Except Err ℕ) (pc : ℕ) (s : List ℕ), t.Single →
      Meets t c de room pc s (astdcl t c de room (pc :: s)) := by
  refine ⟨by decide, by decide, by decide, by decide, fun h => ?_⟩
  have hs : two.Single := by decide
  have hc := (meets_iff hs).mp (h two 3 0 (.error .nomem) 0x1234 [] hs)
  revert hc
  decide

/-! ## The kernel's task -/

/-- `A.TYP` of the types of `ast.inc`. -/
def code : AstType → ℕ
  | .io => 1
  | .uc => 2
  | .rd => 3
  | .ck => 4
  | .st => 5
  | .ab => 6
  | .cl => 7
  | .db => 8

theorem code_inj {a b : AstType} : code a = code b ↔ a = b := by
  cases a <;> cases b <;> simp [code]

theorem chktyp_code (a : AstType) : chktyp (code a) = a.unspecified := by
  cases a <;> rfl

theorem code_eq_ab {a : AstType} : code a = AST.AB ↔ a = .ab := by
  cases a <;> simp [code, AST.AB]

/-- A control block of a task, without its address. -/
def SameControl (x : Acb) (y : Control) : Prop := code x.typ = y.typ ∧ x.addr = y.addr

/-- An event block of a task, without its address. -/
def SameEvent (x : AstBlock) (y : Event) : Prop :=
  code x.typ + (if x.special then 128 else 0) = y.typ ∧ x.addr = y.addr ∧ x.dat.length = y.siz

/-- The queues of a task control block. -/
structure Shows {T : Type*} (b : Tcb T) (t : Task) : Prop where
  sast : List.Forall₂ SameControl b.sast t.sast
  astl : List.Forall₂ SameEvent b.astl t.astl
  prv : b.attr.prv = t.prv
  abx : b.st.abx = t.abx

theorem SameEvent.typ_iff {x : AstBlock} {y : Event} (h : SameEvent x y) (a : AstType) :
    y.typ = code a ↔ x.typ = a ∧ !x.special := by
  obtain ⟨h, -⟩ := h
  rw [← h]
  cases x.special with
  | false => simp [code_inj]
  | true =>
    have : code a < 128 := by cases a <;> decide
    simp only [if_true]
    refine iff_of_false (by omega) (by simp)

/-- The search finds the same block. -/
theorem fndast_same {l : List Acb} {m : List Control} (h : List.Forall₂ SameControl l m)
    (a : AstType) :
    (fndast (code a) m = none ∧ ∀ x ∈ l, x.typ ≠ a) ∨
    ∃ l₁ x l₂ m₁ y m₂, l = l₁ ++ x :: l₂ ∧ fndast (code a) m = some (m₁, y, m₂) ∧
      List.Forall₂ SameControl l₁ m₁ ∧ SameControl x y ∧ List.Forall₂ SameControl l₂ m₂ ∧
      x.typ = a ∧ ∀ z ∈ l₁, z.typ ≠ a := by
  induction h with
  | nil => exact .inl ⟨rfl, by simp⟩
  | @cons x y l m hxy hlm ih =>
    rw [fndast]
    by_cases hx : x.typ = a
    · rw [if_pos (by rw [← hxy.1, hx])]
      exact .inr ⟨[], x, l, [], y, m, rfl, rfl, .nil, hxy, hlm, hx, by simp⟩
    · rw [if_neg (by rw [← hxy.1, code_inj]; exact hx)]
      rcases ih with ⟨hn, hl⟩ | ⟨l₁, z, l₂, m₁, w, m₂, rfl, hf, h₁, hzw, h₂, hz, hl⟩
      · exact .inl ⟨by rw [hn]; rfl, by simpa [hx] using hl⟩
      · exact .inr ⟨x :: l₁, z, l₂, y :: m₁, w, m₂, rfl, by rw [hf]; rfl, .cons hxy h₁, hzw, h₂,
          hz, by simpa [hx] using hl⟩

theorem typ_ne_of_same {l : List Acb} {m : List Control} (h : List.Forall₂ SameControl l m)
    {a : AstType} (hm : ∀ y ∈ m, y.typ ≠ code a) : ∀ x ∈ l, x.typ ≠ a := by
  induction h with
  | nil => simp
  | cons hxy _ ih =>
    obtain ⟨hy, hm⟩ := List.forall_mem_cons.mp hm
    refine List.forall_mem_cons.mpr ⟨fun hx => hy ?_, ih hm⟩
    rw [← hxy.1, hx]

/-- The scan leaves the same events. -/
theorem adcl4_same {l : List AstBlock} {m : List Event} (h : List.Forall₂ SameEvent l m)
    (a : AstType) :
    List.Forall₂ SameEvent
      ((l.take (seen m).length).filter (fun c => !(c.typ = a && !c.special)) ++
        l.drop (seen m).length) (adcl4 (code a) m).1 := by
  induction h with
  | nil => exact .nil
  | @cons x y l m hxy hlm ih =>
    rw [adcl4]
    by_cases h0 : y.loc % 256 = 0
    · have hs : seen (y :: m) = [] := by simp [seen, h0]
      rw [hs, if_pos h0]
      exact .cons hxy hlm
    · have hs : seen (y :: m) = y :: seen m := by simp [seen, h0]
      rw [hs, if_neg h0, List.length_cons, List.take_succ_cons, List.drop_succ_cons,
        List.filter_cons]
      by_cases hx : y.typ = code a
      · obtain ⟨ht, hsp⟩ := hxy.typ_iff a |>.mp hx
        rw [if_pos hx, if_neg (by simp [ht, hsp])]
        exact ih
      · have hk : (!(decide (x.typ = a) && !x.special)) = true := by
          rw [Bool.not_eq_true', Bool.eq_false_iff]
          intro h
          rw [Bool.and_eq_true, decide_eq_true_eq] at h
          exact hx (hxy.typ_iff a |>.mpr h)
        rw [if_neg hx, if_pos hk]
        exact .cons hxy ih

/-- The kernel's `ASTDCL` is this one, seen without addresses: the events its scan comes to
are those before the first block at a multiple of 256. -/
theorem shows_astdcl {T : Type*} [DecidableEq T] (k : Kernel T) (x : T) (h : t.Single)
    (hb : Shows (k.tcb x) t) (a : AstType) (de : ℕ) (room : Except Err ℕ) (pc : ℕ)
    (s : List ℕ) :
    Shows ((k.astdcl x a de (seen t.astl).length room.isOk).1.tcb x)
      (astdcl t (code a) de room (pc :: s)).task := by
  have he := ends t (code a) de room pc s
  generalize astdcl t (code a) de room (pc :: s) = e at he ⊢
  have hk : a.unspecified = chktyp (code a) := (chktyp_code a).symm
  have hab : (a = .ab ∧ !(k.tcb x).attr.prv ∧ (k.tcb x).st.abx) ↔
      (code a = AST.AB ∧ !t.prv ∧ t.abx) := by rw [code_eq_ab, hb.prv, hb.abx]
  by_cases hs : chktyp (code a)
  · cases he with
    | special => rw [Kernel.astdcl, if_pos (hk.trans hs)]; exact hb
    | undeclared hk' | full hk' | new hk' | refused hk' | removed hk' | redeclared hk' =>
      exact absurd hs hk'
  have hs' : ¬a.unspecified := by rwa [hk]
  rw [Kernel.astdcl, if_neg hs']
  rcases fndast_same hb.sast a with
    ⟨hn, hl⟩ | ⟨l₁, z, l₂, m₁, w, m₂, hl, hf, h₁, hzw, h₂, hz, hz₁⟩
  · have hq : (k.tcb x).fndast a = none := by simpa [Tcb.fndast] using hl
    rw [hq]
    cases he with
    | special hk' => exact absurd hk' hs
    | undeclared _ _ hd => simpa [hd] using hb
    | full _ _ hd => simpa [hd, Except.isOk, Except.toBool] using hb
    | new _ _ hd =>
      simp only [if_neg hd, Except.isOk, Except.toBool, Bool.not_true, Bool.false_eq_true, if_false,
        Kernel.setTcb_self]
      exact ⟨List.rel_append hb.sast (.cons ⟨rfl, rfl⟩ .nil), hb.astl, hb.prv, hb.abx⟩
    | refused _ hf | removed _ hf | redeclared _ hf => simp [hn] at hf
  · have hq : (k.tcb x).fndast a = some z := by
      rw [Tcb.fndast, hl, List.find?_append, List.find?_eq_none.mpr (by simpa using hz₁)]
      simp [hz]
    rw [hq]
    cases he with
    | special hk' => exact absurd hk' hs
    | undeclared _ hn | full _ hn | new _ hn => simp [hn] at hf
    | refused _ hf' hx => simpa [hab.mpr hx] using hb
    | removed _ hf' hx hd =>
      rw [hf] at hf'
      cases hf'
      rw [if_neg (hab.not.mpr hx), if_pos hd, Kernel.setTcb_self]
      refine ⟨?_, adcl4_same hb.astl a, hb.prv, hb.abx⟩
      have he : (k.tcb x).sast.eraseP (fun c => decide (c.typ = a)) = l₁ ++ l₂ := by
        rw [hl, List.eraseP_append_right _ (by simpa using hz₁), List.eraseP_cons_of_pos (by simp [hz])]
      simp only [he]
      exact List.rel_append h₁ h₂
    | redeclared _ hf' hx hd =>
      rw [hf] at hf'
      cases hf'
      rw [if_neg (hab.not.mpr hx), if_neg hd, Kernel.setTcb_self]
      refine ⟨?_, hb.astl, hb.prv, hb.abx⟩
      obtain ⟨ht, hw, -⟩ := fndast_some hf
      have keep {l : List Acb} (hl : ∀ c ∈ l, c.typ ≠ a) :
          l.map (fun c => if c.typ = a then { c with addr := de } else c) = l :=
        (List.map_congr_left fun c hc => if_neg (hl c hc)).trans (List.map_id' l)
      have hz₂ := typ_ne_of_same h₂ (typ_ne_of_behind h ht hw)
      simp only [hl, List.map_append, List.map_cons, if_pos hz, keep hz₁, keep hz₂]
      exact List.rel_append h₁ (.cons ⟨hzw.1, rfl⟩ h₂)

end RSX280.Astdcl
