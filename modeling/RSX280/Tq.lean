import RSX280.Fifo

/-!
# The queues of a terminal (`drivers/z280rc/devtt.mac`)

A queue has the place `TQ.IP` for the next character, the place `TQ.OP` of the oldest one, the mask `TQ.MSK` and the
characters at `TQ.BUF`. The places are bytes, and the mask is one less than a power of two.

The queue is first in, first out, with room for as many characters as the mask says. `qsize` subtracts the places the
wrong way round, and is right for few states (`calls_right_iff`).
-/

namespace RSX280.Tq

open Fifo

/-- A queue. -/
structure Queue where
  IP : ℕ
  OP : ℕ
  MSK : ℕ
  BUF : ℕ → ℕ

/-- `qput`: the new queue, or the carry for a full one. -/
def qput (c : ℕ) (q : Queue) : Option Queue :=
  let a := (q.IP + 1) % 256 &&& q.MSK
  if a = q.OP then none else some { q with IP := a, BUF := Function.update q.BUF q.IP c }

/-- `qget`: the character and the new queue, or the carry for an empty one. -/
def qget (q : Queue) : Option (ℕ × Queue) :=
  if q.OP = q.IP then none else some (q.BUF q.OP, { q with OP := (q.OP + 1) % 256 &&& q.MSK })

/-- `qpeek`. -/
def qpeek (q : Queue) : Option ℕ := if q.OP = q.IP then none else some (q.BUF q.OP)

/-- `qinit`. -/
def qinit (q : Queue) : Queue := { q with IP := 0, OP := 0 }

/-- `qsize`. The difference is returned without a carry, and also when it is not zero. -/
def qsize (q : Queue) : ℕ :=
  let a := (q.OP + 256 - q.IP) % 256
  if q.IP ≤ q.OP then a else if a ≠ 0 then a else (a + q.MSK + 1) % 256

/-- `qempty`, the flag Z. -/
def qempty (q : Queue) : Bool := (q.IP + 256 - q.OP) % 256 = 0

/-- `qfull`, the flag Z. -/
def qfull (q : Queue) : Bool := (((q.IP + 1) % 256 &&& q.MSK) + 256 - q.OP) % 256 = 0

/-! ### Calls -/

/-- The calls of the routines. -/
inductive Call
  | put (c : ℕ)
  | get
  | peek
  | init
  | size
  | empty
  | full
  deriving DecidableEq

/-- What a call returns. `none` is the carry. -/
inductive Answer
  | char (c : Option ℕ)
  | flag (z : Bool)
  | count (n : ℕ)
  deriving DecidableEq

/-- A call of a routine. -/
def Call.run : Call → Queue → Answer × Queue
  | .put c, q =>
    match qput c q with
    | none => (.char none, q)
    | some q' => (.char (some c), q')
  | .get, q =>
    match qget q with
    | none => (.char none, q)
    | some (c, q') => (.char (some c), q')
  | .peek, q => (.char (qpeek q), q)
  | .init, q => (.flag true, qinit q)
  | .size, q => (.count (qsize q), q)
  | .empty, q => (.flag (qempty q), q)
  | .full, q => (.flag (qfull q), q)

/-- What the call does to a queue of at most `N` characters that is first in, first out. -/
def Call.spec (N : ℕ) : Call → List ℕ → Answer × List ℕ
  | .put c, l => if l.length = N then (.char none, l) else (.char (some c), l ++ [c])
  | .get, [] => (.char none, [])
  | .get, c :: l => (.char (some c), l)
  | .peek, l => (.char l.head?, l)
  | .init, _ => (.flag true, [])
  | .size, l => (.count l.length, l)
  | .empty, l => (.flag (l = []), l)
  | .full, l => (.flag (l.length = N), l)

/-- The queue after some calls. -/
def after (calls : List Call) (q : Queue) : Queue := calls.foldl (fun q call => (call.run q).2) q

/-- What the calls return. -/
def answers : List Call → Queue → List Answer
  | [], _ => []
  | call :: calls, q => (call.run q).1 :: answers calls (call.run q).2

/-- What they should return. -/
def wanted (N : ℕ) : List Call → List ℕ → List Answer
  | [], _ => []
  | call :: calls, l => (call.spec N l).1 :: wanted N calls (call.spec N l).2

theorem after_cons (call : Call) (calls : List Call) (q : Queue) :
    after (call :: calls) q = after calls (call.run q).2 := rfl

/-! ### One call -/

/-- The mask is one less than a power of two, and the characters are `l`. -/
structure Is (k : ℕ) (q : Queue) (l : List ℕ) : Prop where
  byte : k ≤ 8
  mask : q.MSK = 2 ^ k - 1
  holds : Holds (2 ^ k) q.BUF q.OP q.IP l

variable {k : ℕ} {q : Queue} {l : List ℕ} {calls : List Call}

namespace Is

theorem size_le (h : Is k q l) : 2 ^ k ≤ 256 := Nat.pow_le_pow_right (by decide) h.byte

theorem size_eq (h : Is k q l) : q.MSK + 1 = 2 ^ k := by
  have := Nat.two_pow_pos k
  rw [h.mask]
  omega

theorem size_dvd (h : Is k q l) : 2 ^ k ∣ 256 := Nat.pow_dvd_pow 2 h.byte

/-- The place behind a place. -/
theorem succ_and (h : Is k q l) (i : ℕ) : (i + 1) % 256 &&& q.MSK = (i + 1) % 2 ^ k := by
  rw [h.mask, Nat.and_two_pow_sub_one_eq_mod, Nat.mod_mod_of_dvd _ h.size_dvd]

theorem qput_eq (h : Is k q l) (c : ℕ) :
    qput c q = if l.length = q.MSK then none
      else some { q with IP := (q.IP + 1) % 2 ^ k, BUF := Function.update q.BUF q.IP c } := by
  have full : (q.IP + 1) % 2 ^ k = q.OP ↔ l.length = q.MSK := by
    rw [h.holds.succ_eq_iff, ← h.size_eq, Nat.add_right_cancel_iff]
  simp only [qput, h.succ_and, full]

theorem put (h : Is k q l) (c : ℕ) (room : l.length ≠ q.MSK) :
    Is k { q with IP := (q.IP + 1) % 2 ^ k, BUF := Function.update q.BUF q.IP c } (l ++ [c]) where
  byte := h.byte
  mask := h.mask
  holds := h.holds.push c (by
    have := h.holds.room
    have := h.size_eq
    omega)

theorem get {c : ℕ} (h : Is k q (c :: l)) : Is k { q with OP := (q.OP + 1) % 2 ^ k } l where
  byte := h.byte
  mask := h.mask
  holds := h.holds.pop

theorem init (h : Is k q l) : Is k (qinit q) [] where
  byte := h.byte
  mask := h.mask
  holds := holds_nil _ (Nat.two_pow_pos k)

theorem qpeek_eq (h : Is k q l) : qpeek q = l.head? := by
  cases l with
  | nil => exact if_pos (h.holds.out_eq_iff.mpr rfl)
  | cons c l =>
    have some : q.OP ≠ q.IP := fun same => List.cons_ne_nil c l (h.holds.out_eq_iff.mp same)
    rw [qpeek, if_neg some, h.holds.head, List.head?_cons]

theorem qempty_eq (h : Is k q l) : qempty q = decide (l = []) := by
  have out := h.holds.out_lt
  have next := h.holds.in_lt
  have le := h.size_le
  have same : (q.IP + 256 - q.OP) % 256 = 0 ↔ q.OP = q.IP := by omega
  exact decide_eq_decide.mpr (same.trans h.holds.out_eq_iff)

theorem qfull_eq (h : Is k q l) : qfull q = decide (l.length = q.MSK) := by
  have out := h.holds.out_lt
  have next := Nat.mod_lt (q.IP + 1) (Nat.two_pow_pos k)
  have le := h.size_le
  have full : l.length = q.MSK ↔ (q.IP + 1) % 2 ^ k = q.OP := by
    rw [h.holds.succ_eq_iff, ← h.size_eq, Nat.add_right_cancel_iff]
  have same : ((q.IP + 1) % 2 ^ k + 256 - q.OP) % 256 = 0 ↔ (q.IP + 1) % 2 ^ k = q.OP := by omega
  rw [qfull, h.succ_and]
  exact decide_eq_decide.mpr (same.trans full.symm)

end Is

/-- The places for which `qsize` returns the number of characters: of an empty queue, or they are half the size
apart, where that is 128 when the queue does not go over the end. -/
def Half (q : Queue) : Prop := q.OP = q.IP ∨ 2 * (q.OP - q.IP) = q.MSK + 1 ∨ q.IP - q.OP = 128

theorem Is.qsize_iff (h : Is k q l) : qsize q = l.length ↔ Half q := by
  have out := h.holds.out_lt
  have next := h.holds.in_lt
  have le := h.size_le
  have size := h.size_eq
  rw [h.holds.length_eq, ← size, qsize, Half]
  rw [← size] at out next le
  split_ifs <;> omega

/-- Every call but `qsize` does what it should. -/
theorem Is.call (h : Is k q l) (call : Call) :
    ((call.run q).1 = (call.spec q.MSK l).1 ↔ (call = .size → Half q)) ∧
      Is k (call.run q).2 (call.spec q.MSK l).2 ∧ (call.run q).2.MSK = q.MSK := by
  cases call with
  | put c =>
    rw [Call.run, h.qput_eq, Call.spec]
    by_cases full : l.length = q.MSK
    · rw [if_pos full, if_pos full]
      exact ⟨iff_of_true rfl nofun, h, rfl⟩
    · rw [if_neg full, if_neg full]
      exact ⟨iff_of_true rfl nofun, h.put c full, rfl⟩
  | get =>
    rw [Call.run, qget]
    cases l with
    | nil =>
      rw [if_pos (h.holds.out_eq_iff.mpr rfl)]
      exact ⟨iff_of_true rfl nofun, h, rfl⟩
    | cons c l =>
      rw [if_neg fun same => List.cons_ne_nil c l (h.holds.out_eq_iff.mp same), h.succ_and, h.holds.head]
      exact ⟨iff_of_true rfl nofun, h.get, rfl⟩
  | peek => exact ⟨iff_of_true (congrArg Answer.char h.qpeek_eq) nofun, h, rfl⟩
  | init => exact ⟨iff_of_true rfl nofun, h.init, rfl⟩
  | size =>
    refine ⟨?_, h, rfl⟩
    rw [← h.qsize_iff]
    exact ⟨fun same _ => Answer.count.inj same, fun half => congrArg Answer.count (half rfl)⟩
  | empty => exact ⟨iff_of_true (congrArg Answer.flag h.qempty_eq) nofun, h, rfl⟩
  | full => exact ⟨iff_of_true (congrArg Answer.flag h.qfull_eq) nofun, h, rfl⟩

/-! ### All calls -/

theorem Is.answers_iff (h : Is k q l) : answers calls q = wanted q.MSK calls l ↔
    ∀ pre post, calls = pre ++ .size :: post → Half (after pre q) := by
  induction calls generalizing q l with
  | nil => exact iff_of_true rfl fun pre post e => absurd e (by cases pre <;> nofun)
  | cons call calls ih =>
    obtain ⟨answer, next, mask⟩ := h.call call
    have rest := ih next
    rw [mask] at rest
    rw [answers, wanted, List.cons.injEq, answer, rest]
    constructor
    · rintro ⟨first, rest⟩ pre post e
      cases pre with
      | nil => exact first (List.cons.inj e).1
      | cons c pre =>
        obtain ⟨rfl, tail⟩ := List.cons.inj e
        exact rest pre post tail
    · intro all
      refine ⟨fun e => all [] calls (e ▸ rfl), fun pre post e => ?_⟩
      exact all (call :: pre) post (congrArg (call :: ·) e)

/-- From `qinit` on, whatever was in the queue, all calls of a sequence return what they should if and only if each
`qsize` among them is for a queue whose places are `Half`. -/
theorem calls_right_iff (hk : k ≤ 8) (hm : q.MSK = 2 ^ k - 1) :
    answers calls (qinit q) = wanted (2 ^ k - 1) calls [] ↔
      ∀ pre post, calls = pre ++ .size :: post → Half (after pre (qinit q)) := by
  have h : Is k (qinit q) [] := ⟨hk, hm, holds_nil _ (Nat.two_pow_pos k)⟩
  rw [← h.answers_iff]
  exact hm ▸ Iff.rfl

theorem calls_right_four : answers [.put 65, .put 66, .full, .get, .get] (qinit ⟨7, 9, 3, fun _ => 0⟩)
    = wanted (2 ^ 2 - 1) [.put 65, .put 66, .full, .get, .get] [] := by
  apply (calls_right_iff (by decide) (by decide)).mpr
  intro pre post e
  have size : Call.size ∈ pre ++ .size :: post := List.mem_append_cons_self
  rw [← e] at size
  exact absurd size (by decide)

/-- One character in a queue for three: `qsize` returns 255. -/
theorem qsize_one : answers [.put 65, .size] (qinit ⟨0, 0, 3, fun _ => 0⟩) ≠ wanted 3 [.put 65, .size] [] := by
  simp [answers, wanted, Call.run, Call.spec, qput, qsize, qinit]

end RSX280.Tq
