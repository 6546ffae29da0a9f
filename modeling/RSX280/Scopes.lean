import Mathlib.Data.Nat.Notation
import Mathlib.Data.Option.Basic
import Mathlib.Logic.Function.Basic

/-!
# A stack of scopes

A program opens frames and, within a frame, blocks. Some names denote one variable that is visible
everywhere; any other name denotes a variable of the current frame, and it is created in the
innermost block. The blocks and frames are numbered, and something may be kept with each block.
-/

namespace RSX280.Scopes

universe u v w

variable {N : Type u} {V : Type v} {D : Type w}

/-- A block: its number, what is kept with it, and the variables created in it. -/
structure Block (N : Type u) (V : Type v) (D : Type w) where
  level : ℕ
  data : D
  vars : N → Option V

/-- A frame: the variables created outside of its blocks, and the open blocks, the innermost
first. -/
structure Frame (N : Type u) (V : Type v) (D : Type w) where
  level : ℕ
  vars : N → Option V
  blocks : List (Block N V D)

/-- The variables visible everywhere, the current frame, and the frames around it. -/
structure Stack (N : Type u) (V : Type v) (D : Type w) where
  globals : N → Option V
  cur : Frame N V D
  outer : List (Frame N V D)

/-! ### Frames -/

namespace Frame

/-- What a name denotes in a frame. -/
def find (F : Frame N V D) (n : N) : Option V :=
  (F.blocks.findSome? fun b => b.vars n).or (F.vars n)

/-- The block with a number. -/
def block (F : Frame N V D) (e : ℕ) : Option (Block N V D) := F.blocks.find? fun b => b.level = e

/-- Open a block. -/
def push (F : Frame N V D) (l : ℕ) (d : D) : Frame N V D :=
  { F with blocks := ⟨l, d, fun _ => none⟩ :: F.blocks }

/-- Close the blocks from a number on. -/
def pop (F : Frame N V D) (e : ℕ) : Frame N V D :=
  { F with blocks := F.blocks.dropWhile fun b => e ≤ b.level }

@[simp] theorem find_push (F : Frame N V D) (l : ℕ) (d : D) (n : N) :
    (F.push l d).find n = F.find n := rfl

variable [DecidableEq N]

/-- A new variable in the innermost block. -/
def create (F : Frame N V D) (n : N) (v : V) : Frame N V D :=
  match F.blocks with
  | [] => { F with vars := Function.update F.vars n (some v) }
  | b :: bs => { F with blocks := { b with vars := Function.update b.vars n (some v) } :: bs }

/-- Give the variable a name denotes another value, in the blocks where it is. -/
def assignIn (n : N) (v : V) : List (Block N V D) → List (Block N V D)
  | [] => []
  | b :: bs =>
    if (b.vars n).isSome then { b with vars := Function.update b.vars n (some v) } :: bs
    else b :: assignIn n v bs

/-- Give the variable a name denotes another value. -/
def assign (F : Frame N V D) (n : N) (v : V) : Frame N V D :=
  if (F.blocks.findSome? fun b => b.vars n).isSome then
    { F with blocks := assignIn n v F.blocks }
  else { F with vars := Function.update F.vars n (some v) }

variable {F : Frame N V D} {n m : N} {v w : V}

@[simp] theorem level_create : (F.create n v).level = F.level := by
  unfold create
  split <;> rfl

@[simp] theorem level_assign : (F.assign n v).level = F.level := by
  unfold assign
  split <;> rfl

/-- A new variable is what its name denotes, and no other name denotes something else. -/
theorem find_create (h : F.find n = none) :
    (F.create n v).find m = if m = n then some v else F.find m := by
  obtain ⟨l, vars, blocks⟩ := F
  cases blocks with
  | nil =>
    by_cases hm : m = n
    · subst hm
      simp [create, find]
    · simp [create, find, hm]
  | cons b bs =>
    by_cases hm : m = n
    · subst hm
      simp [create, find]
    · simp [create, find, List.findSome?_cons, hm]

theorem findSome_assignIn (h : (bs : List (Block N V D)).findSome? (fun b => b.vars n) ≠ none) :
    (assignIn n v bs).findSome? (fun b => b.vars m) =
      if m = n then some v else bs.findSome? fun b => b.vars m := by
  induction bs with
  | nil => exact absurd rfl h
  | cons b bs ih =>
    rw [assignIn]
    by_cases hb : (b.vars n).isSome
    · rw [if_pos hb]
      by_cases hm : m = n
      · subst hm
        simp
      · simp [List.findSome?_cons, hm]
    · rw [if_neg hb]
      rw [Bool.not_eq_true, Option.isSome_eq_false_iff, Option.isNone_iff_eq_none] at hb
      rw [List.findSome?_cons, hb] at h
      rw [List.findSome?_cons, List.findSome?_cons, ih h]
      by_cases hm : m = n
      · subst hm
        simp [hb]
      · simp [hm]

/-- Another value is what the name denotes, and no other name denotes something else. -/
theorem find_assign : (F.assign n v).find m = if m = n then some v else F.find m := by
  unfold assign
  by_cases hb : (F.blocks.findSome? fun b => b.vars n).isSome
  · rw [if_pos hb, find, find, findSome_assignIn (Option.isSome_iff_ne_none.mp hb)]
    by_cases hm : m = n <;> simp [hm]
  · rw [if_neg hb]
    rw [Bool.not_eq_true, Option.isSome_eq_false_iff, Option.isNone_iff_eq_none] at hb
    by_cases hm : m = n
    · subst hm
      simp [find, hb]
    · simp [find, hm]

theorem assign_create_self (h : F.find n = none) : (F.create n v).assign n w = F.create n w := by
  obtain ⟨l, vars, blocks⟩ := F
  cases blocks with
  | nil => simp [create, assign]
  | cons b bs => simp [create, assign, assignIn]

theorem assign_create (hm : m ≠ n) : (F.create m w).assign n v = (F.assign n v).create m w := by
  obtain ⟨l, vars, blocks⟩ := F
  cases blocks with
  | nil => simp [create, assign, Function.update_comm hm]
  | cons b bs =>
    by_cases hb : (b.vars n).isSome
    · obtain ⟨x, hx⟩ := Option.isSome_iff_exists.mp hb
      simp [create, assign, assignIn, hm.symm, hx, Function.update_comm hm]
    · rw [Bool.not_eq_true, Option.isSome_eq_false_iff, Option.isNone_iff_eq_none] at hb
      simp only [create, assign, assignIn, List.findSome?_cons, Function.update_of_ne hm.symm, hb]
      split <;> simp

theorem assign_push (l : ℕ) (d : D) :
    (F.push l d).assign n v = (F.assign n v).push l d := by
  unfold assign push
  by_cases hb : (F.blocks.findSome? fun b => b.vars n).isSome
  · simp [assignIn, hb]
  · simp [hb]

end Frame

/-! ### Stacks -/

namespace Stack

/-- What a name denotes; `g` are the names visible everywhere. -/
def find (g : N → Bool) (s : Stack N V D) (n : N) : Option V :=
  if g n then s.globals n else s.cur.find n

/-- Open a block. -/
def push (s : Stack N V D) (l : ℕ) (d : D) : Stack N V D := { s with cur := s.cur.push l d }

/-- Close the blocks from a number on. -/
def pop (s : Stack N V D) (e : ℕ) : Stack N V D := { s with cur := s.cur.pop e }

/-- Open a frame. -/
def openFrame (s : Stack N V D) (l : ℕ) : Stack N V D :=
  { s with cur := ⟨l, fun _ => none, []⟩, outer := s.cur :: s.outer }

/-- Close the frame with a number, if it is the current one. -/
def closeFrame (s : Stack N V D) (l : ℕ) : Stack N V D :=
  match s.outer with
  | [] => s
  | f :: fs => if s.cur.level = l then { s with cur := f, outer := fs } else s

variable [DecidableEq N]

/-- Give the variable a name denotes another value. -/
def assign (g : N → Bool) (s : Stack N V D) (n : N) (v : V) : Stack N V D :=
  if g n then { s with globals := Function.update s.globals n (some v) }
  else { s with cur := s.cur.assign n v }

/-- A new variable: for everyone, or in the innermost block. -/
def create (g : N → Bool) (s : Stack N V D) (n : N) (v : V) : Stack N V D :=
  if g n then { s with globals := Function.update s.globals n (some v) }
  else { s with cur := s.cur.create n v }

/-- Create a variable unless there is one. -/
def enter (g : N → Bool) (s : Stack N V D) (n : N) (v : V) : Stack N V D :=
  if (s.find g n).isSome then s else s.create g n v

variable {g : N → Bool} {s : Stack N V D} {n m : N} {v w : V}

theorem find_create (h : s.find g n = none) :
    (s.create g n v).find g m = if m = n then some v else s.find g m := by
  by_cases hn : g n <;> by_cases hm : g m
  · simp [create, find, hn, hm, Function.update_apply]
  · have : m ≠ n := fun heq => hm (heq ▸ hn)
    simp [create, find, hn, hm, this]
  · have : m ≠ n := fun heq => hn (heq ▸ hm)
    simp [create, find, hn, hm, this]
  · simp only [find, hn, create, hm, Bool.false_eq_true, if_false] at h ⊢
    exact Frame.find_create h

theorem find_assign : (s.assign g n v).find g m = if m = n then some v else s.find g m := by
  by_cases hn : g n <;> by_cases hm : g m
  · simp [assign, find, hn, hm, Function.update_apply]
  · have : m ≠ n := fun heq => hm (heq ▸ hn)
    simp [assign, find, hn, hm, this]
  · have : m ≠ n := fun heq => hn (heq ▸ hm)
    simp [assign, find, hn, hm, this]
  · simp only [find, hn, assign, hm, Bool.false_eq_true, if_false]
    exact Frame.find_assign

theorem assign_create_self (h : s.find g n = none) :
    (s.create g n v).assign g n w = s.create g n w := by
  by_cases hn : g n
  · simp [create, assign, hn]
  · simp only [find, hn, Bool.false_eq_true, if_false] at h
    simp [create, assign, hn, Frame.assign_create_self h]

theorem assign_create (hm : m ≠ n) :
    (s.create g m w).assign g n v = (s.assign g n v).create g m w := by
  by_cases hn : g n <;> by_cases hg : g m
  · simp [create, assign, hn, hg, Function.update_comm hm]
  · simp [create, assign, hn, hg]
  · simp [create, assign, hn, hg]
  · simp [create, assign, hn, hg, Frame.assign_create hm]

/-- A variable that there is may be given its value before or after another one is created. -/
theorem assign_enter (h : s.find g n ≠ none) :
    (s.enter g m w).assign g n v = (s.assign g n v).enter g m w := by
  unfold enter
  by_cases hm : m = n
  · subst hm
    rw [if_pos (Option.isSome_iff_ne_none.mpr h), if_pos (by rw [find_assign, if_pos rfl]; rfl)]
  · rw [find_assign, if_neg hm]
    split
    · rfl
    · exact assign_create hm

theorem assign_push (l : ℕ) (d : D) :
    (s.push l d).assign g n v = (s.assign g n v).push l d := by
  by_cases hn : g n
  · simp [assign, push, hn]
  · simp [assign, push, hn, Frame.assign_push]

/-- A variable for everyone may be given its value before or after a frame is opened. -/
theorem assign_openFrame (h : g n) (l : ℕ) :
    (s.openFrame l).assign g n v = (s.assign g n v).openFrame l := by
  simp [assign, openFrame, h]

theorem find_enter : (s.enter g n v).find g m =
    if m = n then (s.find g m).or (some v) else s.find g m := by
  unfold enter
  split
  · rename_i h
    obtain ⟨x, hx⟩ := Option.isSome_iff_exists.mp h
    by_cases hm : m = n
    · subst hm
      simp [hx]
    · rw [if_neg hm]
  · rename_i h
    rw [Bool.not_eq_true, Option.isSome_eq_false_iff, Option.isNone_iff_eq_none] at h
    rw [find_create h]
    by_cases hm : m = n
    · subst hm
      simp [h]
    · simp [hm]

end Stack

end RSX280.Scopes
