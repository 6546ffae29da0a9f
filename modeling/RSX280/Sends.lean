import RSX280.TaskRuns

/-!
# Packets that cannot be sent

`SEND` links the packet to the receive list before it looks for the receiver in the active lists. Its
callers free the packet when it returns with carry.
-/

namespace RSX280.Sched

universe u

variable {T : Type u} [DecidableEq T] [Fintype T]

namespace Kernel

/-! ### The callers -/

/-- `SEND` has returned with carry; NZ only tells that the receiver was not waiting. -/
def failed (r : Kernel T × Ret) : Bool := r.2 = .err .tnf

/-- What a caller leaves: the kernel, and the packet that it has freed, if any. -/
structure Sent (T : Type u) where
  k : Kernel T
  freed : Option (Item T)

/-- `USEND1`, behind the copy of the data. -/
def usend1 (k : Kernel T) (t : T) (i : Item T) (mem : Bool) : Sent T :=
  let r := k.send t i mem
  ⟨r.1, if failed r then some i else none⟩

/-- `$QIO` of an ACP request by task `g`, from `qio1` on. The outstanding I/O count was counted up
before. -/
def qio1 (k : Kernel T) (g t : T) (i : Item T) (mem : Bool) : Sent T :=
  let r := k.send t i mem
  if failed r then
    ⟨r.1.setTcb g { r.1.tcb g with ioc := ((r.1.tcb g).ioc + 255) % 256 }, some i⟩
  else ⟨r.1, none⟩

/-- `$QMCR`, from `qmc1` on: the command line is sent to the CLI. -/
def qmc1 (k : Kernel T) (t : T) (i : Item T) (mem mem' : Bool) : Sent T :=
  let r := k.send t i mem
  if failed r then ⟨r.1, some i⟩ else ⟨r.1.qast t .cl 0 [] mem', none⟩

/-! ### What they rely on -/

/-- The packet is on the receive list of a task. -/
def Received (k : Kernel T) (i : Item T) : Prop := ∃ u, i ∈ (k.tcb u).rcvl

/-- An error leaves the packet on no list, and the lists and states of the tasks as they were. -/
def Clean (k : Kernel T) (t : T) (i : Item T) (mem : Bool) : Prop :=
  failed (k.send t i mem) = true → ¬(k.send t i mem).1.Received i ∧
    (k.send t i mem).1.actl = k.actl ∧ ∀ u, ((k.send t i mem).1.tcb u).st = (k.tcb u).st ∧
      ((k.send t i mem).1.tcb u).st1 = (k.tcb u).st1

/-- No packet is freed that is on a list. -/
def Sent.Safe (s : Sent T) : Prop := ∀ i, s.freed = some i → ¬s.k.Received i

variable {k : Kernel T} {t g : T} {i : Item T} {mem mem' : Bool}

omit [DecidableEq T] [Fintype T] in
theorem datain_ret (b : Tcb T) : b.datain.ret ≠ .err .tnf := by
  unfold Tcb.datain
  split
  · split
    · rintro ⟨⟩
    · rintro ⟨⟩
  · split
    · rintro ⟨⟩
    · dsimp only
      split
      · rintro ⟨⟩
      · rintro ⟨⟩

/-- `SEND` fails just when the receiver is not active, and the packet is linked then. -/
theorem failed_iff : failed (k.send t i mem) = true ↔ (k.fntcb t).isNone = true := by
  have hf : (k.enqueue t i).fntcb t = k.fntcb t := rfl
  unfold failed send
  rw [decide_eq_true_iff]
  dsimp only
  rw [hf]
  cases k.fntcb t with
  | none => exact iff_of_true rfl rfl
  | some iy =>
    dsimp only
    split
    · exact iff_of_false (datain_ret _) Bool.false_ne_true
    · exact iff_of_false (datain_ret _) Bool.false_ne_true

theorem send_of_none (h : k.fntcb t = none) : k.send t i mem = (k.enqueue t i, .err .tnf) := by
  have hf : (k.enqueue t i).fntcb t = none := h
  unfold send
  dsimp only
  rw [hf]

omit [Fintype T] in
theorem received_enqueue : (k.enqueue t i).Received i := by
  refine ⟨t, ?_⟩
  unfold enqueue
  rw [setTcb_self]
  exact Queue.mem_enqueue.mpr (Or.inl rfl)

/-- An error of `SEND` is clean, and its callers are safe, just when the receiver is active. -/
theorem send_clean_iff (k : Kernel T) (g t : T) (i : Item T) (mem mem' : Bool) :
    (k.Clean t i mem ↔ (k.fntcb t).isSome = true) ∧
      ((k.usend1 t i mem).Safe ↔ (k.fntcb t).isSome = true) ∧
        ((k.qio1 g t i mem).Safe ↔ (k.fntcb t).isSome = true) ∧
          ((k.qmc1 t i mem mem').Safe ↔ (k.fntcb t).isSome = true) := by
  cases hf : k.fntcb t with
  | none =>
    have hsend : k.send t i mem = (k.enqueue t i, .err .tnf) := send_of_none hf
    have hfail : failed (k.send t i mem) = true := by rw [hsend]; rfl
    have hl : (k.enqueue t i).Received i := received_enqueue
    refine ⟨iff_of_false (fun h => ?_) Bool.false_ne_true, iff_of_false (fun h => ?_) Bool.false_ne_true,
      iff_of_false (fun h => ?_) Bool.false_ne_true, iff_of_false (fun h => ?_) Bool.false_ne_true⟩
    · refine (h hfail).1 ?_
      rw [hsend]
      exact hl
    · unfold usend1 at h
      dsimp only at h
      rw [if_pos hfail, hsend] at h
      exact h i rfl hl
    · unfold qio1 at h
      dsimp only at h
      rw [if_pos hfail, hsend] at h
      refine h i rfl ?_
      obtain ⟨u, hu⟩ := hl
      refine ⟨u, ?_⟩
      dsimp only
      by_cases hug : u = g
      · subst hug
        rw [setTcb_self]
        exact hu
      · rw [setTcb_of_ne hug]
        exact hu
    · unfold qmc1 at h
      dsimp only at h
      rw [if_pos hfail, hsend] at h
      exact h i rfl hl
  | some iy =>
    have hfail : ¬failed (k.send t i mem) = true := fun h => by
      rw [failed_iff, hf] at h
      exact Bool.noConfusion h
    refine ⟨iff_of_true (fun h => absurd h hfail) rfl, iff_of_true ?_ rfl, iff_of_true ?_ rfl,
      iff_of_true ?_ rfl⟩
    · unfold usend1
      dsimp only
      rw [if_neg hfail]
      rintro _ ⟨⟩
    · unfold qio1
      dsimp only
      rw [if_neg hfail]
      rintro _ ⟨⟩
    · unfold qmc1
      dsimp only
      rw [if_neg hfail]
      rintro _ ⟨⟩

/-- Task 1 sends a packet to task 0, which runs. -/
theorem send_clean_iff_started : ((runAll start2 boot2).usend1 0 (.packet 1000 100) true).Safe :=
  (send_clean_iff _ 1 0 _ true true).2.1.mpr (by decide)

/-- Task 0 is not active before it is requested. -/
theorem sent_to_inactive : (boot2.usend1 0 (.packet 1000 100) true).freed = some (.packet 1000 100) ∧
    ((boot2.usend1 0 (.packet 1000 100) true).k.tcb 0).rcvl = [.packet 1000 100] := by
  decide

end Kernel

end RSX280.Sched
