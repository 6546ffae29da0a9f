import RSX280.Memory
import Mathlib.Data.Nat.Bitwise

/-!
# Which task is checkpointed (`pars.mac`)

`CKPTST` decides whether a task in memory may be checkpointed for a contender, and `MKSPC` looks for
adjacent tasks that may. The tasks are looked at in memory, as the code does.
-/

namespace RSX280.Ckptst

/-! ### `CKPTST` -/

def T.ATTR : ℕ := 6
def T.ST : ℕ := 7
def T.PRI : ℕ := 10
def T.SPRI : ℕ := 11
def T.CTX : ℕ := 45
def TX.XDT : ℕ := 81

def TA.FIX : ℕ := 3
def TA.CKD : ℕ := 7
def T2.ABO : ℕ := 7

/-- `T2.STP`, `T2.SEF` and `T2.WTD`. -/
def stops : UInt8 := 0x0B

/-- The byte at offset `d` from `a`. -/
def byte (m : Mem) (a d : ℕ) : UInt8 := m ((a + d) % 65536)

/-- The word at offset `d` from `a`. -/
def word (m : Mem) (a d : ℕ) : ℕ := m.rd16 ((a + d) % 65536)

/-- `EXTS`: a byte with its sign. -/
def signed (x : UInt8) : ℤ := if x.toNat < 128 then x.toNat else x.toNat - 256

/-- The effective priority of the task at `bc`. -/
def effective (m : Mem) (bc : ℕ) : ℤ := signed (byte m bc T.SPRI) + (byte m bc T.PRI).toNat

/-- `CKPTST`: may the task at `bc` be checkpointed for the one at `ix`? The word for the debugger is taken
from behind `T.CTX` itself, and `HL`, which is zero then, points to the byte that is tested next. -/
def ckptst (m : Mem) (bc ix : ℕ) : Bool :=
  if (byte m bc T.ATTR).toNat.testBit TA.FIX then false
  else if (byte m bc T.ATTR).toNat.testBit TA.CKD then false
  else if (byte m bc (T.ST + 1)).toNat.testBit T2.ABO then false
  else
    let hl := word m bc (T.CTX + TX.XDT)
    if hl ≠ 0 then false
    else if m hl &&& stops ≠ 0 then true
    else if effective m bc < 0 then true
    else (effective m bc).toNat % 256 < (byte m ix T.PRI).toNat

/-! ### What it is for -/

/-- The task is fixed, not checkpointable, or being aborted. -/
def Kept (m : Mem) (bc : ℕ) : Prop :=
  (byte m bc T.ATTR).toNat.testBit TA.FIX = true ∨ (byte m bc T.ATTR).toNat.testBit TA.CKD = true ∨
    (byte m bc (T.ST + 1)).toNat.testBit T2.ABO = true

/-- A debugger is connected: the context block has a pointer to it. -/
def Debugged (m : Mem) (bc : ℕ) : Prop := word m bc T.CTX ≠ 0 ∧ word m (word m bc T.CTX) TX.XDT ≠ 0

/-- The task is stopped, stopped for a flag or waiting for data. -/
def Stopped (m : Mem) (bc : ℕ) : Prop := byte m bc (T.ST + 1) &&& stops ≠ 0

/-- The effective priority is lower than that of the contender. -/
def Lower (m : Mem) (bc ix : ℕ) : Prop := effective m bc < (byte m ix T.PRI).toNat

/-- The task may be checkpointed for the contender. -/
def Victim (m : Mem) (bc ix : ℕ) : Prop :=
  ¬Kept m bc ∧ ¬Debugged m bc ∧ (Stopped m bc ∨ Lower m bc ix)

instance (m : Mem) (bc : ℕ) : Decidable (Kept m bc) :=
  inferInstanceAs (Decidable (_ ∨ _ ∨ _))

instance (m : Mem) (bc : ℕ) : Decidable (Debugged m bc) := inferInstanceAs (Decidable (_ ∧ _))

instance (m : Mem) (bc : ℕ) : Decidable (Stopped m bc) := inferInstanceAs (Decidable (_ ≠ _))

instance (m : Mem) (bc ix : ℕ) : Decidable (Lower m bc ix) := inferInstanceAs (Decidable (_ < _))

instance (m : Mem) (bc ix : ℕ) : Decidable (Victim m bc ix) := inferInstanceAs (Decidable (_ ∧ _ ∧ _))

variable {m : Mem} {bc ix : ℕ}

/-! ### Where they agree -/

/-- The word that is looked at for the debugger, behind the control block. -/
def stray (m : Mem) (bc : ℕ) : ℕ := word m bc (T.CTX + TX.XDT)

/-- The effective priority does not fit in a byte, and what is left of it is lower. -/
def Wraps (m : Mem) (bc ix : ℕ) : Prop :=
  256 ≤ effective m bc ∧ effective m bc - 256 < (byte m ix T.PRI).toNat

theorem effective_lt (m : Mem) (bc : ℕ) : effective m bc < 383 := by
  have h₁ := (byte m bc T.SPRI).toNat_lt
  have h₂ := (byte m bc T.PRI).toNat_lt
  unfold effective signed
  split
  · omega
  · omega

/-- The comparison with a byte. -/
theorem lower_iff : effective m bc < 0 ∨ (effective m bc).toNat % 256 < (byte m ix T.PRI).toNat ↔
    Lower m bc ix ∨ Wraps m bc ix := by
  have h := effective_lt m bc
  have hp := (byte m ix T.PRI).toNat_lt
  unfold Lower Wraps
  omega

/-- What the code tests. -/
theorem ckptst_iff : ckptst m bc ix = true ↔ ¬Kept m bc ∧ stray m bc = 0 ∧
    (m 0 &&& stops ≠ 0 ∨ Lower m bc ix ∨ Wraps m bc ix) := by
  rw [← lower_iff]
  unfold ckptst Kept stray
  by_cases h₁ : (byte m bc T.ATTR).toNat.testBit TA.FIX = true
  · rw [if_pos h₁]
    exact iff_of_false Bool.false_ne_true fun h => h.1 (Or.inl h₁)
  rw [if_neg h₁]
  by_cases h₂ : (byte m bc T.ATTR).toNat.testBit TA.CKD = true
  · rw [if_pos h₂]
    exact iff_of_false Bool.false_ne_true fun h => h.1 (Or.inr (Or.inl h₂))
  rw [if_neg h₂]
  by_cases h₃ : (byte m bc (T.ST + 1)).toNat.testBit T2.ABO = true
  · rw [if_pos h₃]
    exact iff_of_false Bool.false_ne_true fun h => h.1 (Or.inr (Or.inr h₃))
  rw [if_neg h₃]
  dsimp only
  by_cases h₄ : word m bc (T.CTX + TX.XDT) = 0
  · rw [if_neg (not_not.mpr h₄), h₄]
    have hk : ¬((byte m bc T.ATTR).toNat.testBit TA.FIX = true ∨
        (byte m bc T.ATTR).toNat.testBit TA.CKD = true ∨
          (byte m bc (T.ST + 1)).toNat.testBit T2.ABO = true) := by
      rintro (h | h | h)
      · exact h₁ h
      · exact h₂ h
      · exact h₃ h
    by_cases h₅ : m 0 &&& stops ≠ 0
    · rw [if_pos h₅]
      exact iff_of_true rfl ⟨hk, rfl, Or.inl h₅⟩
    · rw [if_neg h₅]
      by_cases h₆ : effective m bc < 0
      · rw [if_pos h₆]
        exact iff_of_true rfl ⟨hk, rfl, Or.inr (Or.inl h₆)⟩
      · rw [if_neg h₆, decide_eq_true_iff]
        exact ⟨fun h => ⟨hk, rfl, Or.inr (Or.inr h)⟩, fun h => (h.2.2.resolve_left h₅).resolve_left h₆⟩
  · rw [if_pos h₄]
    exact iff_of_false Bool.false_ne_true fun h => h₄ h.2.1

/-- The condition under which the code decides as it should. -/
def Agrees (m : Mem) (bc ix : ℕ) : Prop :=
  Kept m bc ∨
    (stray m bc ≠ 0 ∧ (Debugged m bc ∨ ¬Stopped m bc ∧ ¬Lower m bc ix)) ∨
    (stray m bc = 0 ∧ m 0 &&& stops ≠ 0 ∧ ¬Debugged m bc ∧ (Stopped m bc ∨ Lower m bc ix)) ∨
    (stray m bc = 0 ∧ m 0 &&& stops = 0 ∧ (Debugged m bc ∧ ¬Lower m bc ix ∧ ¬Wraps m bc ix ∨
      ¬Debugged m bc ∧ (Lower m bc ix ∨ (Stopped m bc ↔ Wraps m bc ix))))

theorem ckptst_agrees_iff : (ckptst m bc ix = true ↔ Victim m bc ix) ↔ Agrees m bc ix := by
  rw [ckptst_iff]
  unfold Victim Agrees
  by_cases h₁ : Kept m bc
  · simp only [h₁, not_true_eq_false, false_and, true_or]
  by_cases h₂ : stray m bc = 0
  · by_cases h₃ : m 0 &&& stops = 0
    · simp only [h₁, h₂, h₃, not_false_eq_true, true_and, ne_eq, not_true_eq_false, false_and, false_or]
      tauto
    · simp only [h₁, h₂, h₃, not_false_eq_true, true_and, ne_eq, not_true_eq_false, false_and, false_or,
        true_or, or_false]
      tauto
  · simp only [h₁, h₂, not_false_eq_true, true_and, ne_eq, false_and, and_false, false_or, or_false]
    tauto

/-! ### `MKSPC` -/

/-- A subpartition with the task that owns it. -/
structure Pcb where
  base : ℕ
  size : ℕ
  tcb : ℕ

/-- The loop of `MKSPC` over the subpartitions. `span` are those behind `FIRST` that were looked at, `de`
is the base of the span, and `last` is the end of the partition. It returns the tasks of the first span
that is long enough. -/
def mk1 (m : Mem) (ix size last : ℕ) : List Pcb → ℕ → List Pcb → Option (List ℕ)
  | _, _, [] => none
  | span, de, p :: l =>
    if ckptst m p.tcb ix then
      let next := (l.head?.map Pcb.base).getD last
      if (next + 65536 - de) % 65536 < size then mk1 m ix size last (span ++ [p]) de l
      else some ((span ++ [p]).map Pcb.tcb)
    else mk1 m ix size last [] ((p.base + p.size) % 65536) l

/-- `MKSPC`: the tasks that are checkpointed to make space of `size` pages for the one at `ix`, in a
partition from `base` on with `len` pages. -/
def mkspc (m : Mem) (ix size base len : ℕ) (l : List Pcb) : Option (List ℕ) :=
  mk1 m ix size ((base + len) % 65536) [] base l

theorem mk1_accepts {size last de : ℕ} {span l : List Pcb} {ts : List ℕ}
    (hspan : ∀ p ∈ span, ckptst m p.tcb ix = true) (h : mk1 m ix size last span de l = some ts) :
    ∀ t ∈ ts, ckptst m t ix = true := by
  induction l generalizing span de with
  | nil => cases h
  | cons p l ih =>
    rw [mk1] at h
    by_cases hp : ckptst m p.tcb ix = true
    · rw [if_pos hp] at h
      have hspan' : ∀ q ∈ span ++ [p], ckptst m q.tcb ix = true := by
        intro q hq
        rcases List.mem_append.mp hq with hq | hq
        · exact hspan q hq
        · rw [List.mem_singleton.mp hq]
          exact hp
      dsimp only at h
      split at h
      · exact ih hspan' h
      · obtain rfl := Option.some.inj h
        intro t ht
        obtain ⟨q, hq, rfl⟩ := List.mem_map.mp ht
        exact hspan' q hq
    · rw [if_neg hp] at h
      exact ih (List.forall_mem_nil _) h

/-- `CKPTST` accepts the right tasks exactly where the stray reads happen to agree, and `MKSPC` checkpoints
none that it rejects. -/
theorem victims_chosen (m : Mem) (ix : ℕ) :
    (∀ bc, (ckptst m bc ix = true ↔ Victim m bc ix) ↔ Agrees m bc ix) ∧
      ∀ size base len l ts, mkspc m ix size base len l = some ts → ∀ t ∈ ts, ckptst m t ix = true :=
  ⟨fun _ => ckptst_agrees_iff, fun _ _ _ _ _ h => mk1_accepts (List.forall_mem_nil _) h⟩

/-- A task at 4096, with the given word behind its control block, and another one at 8192. -/
def resident (st1 w : UInt8) : Mem := fun a =>
  if a = 4096 + 8 then st1 else if a = 4096 + 126 then w else if a = 8192 + 10 then 50 else 0

theorem victims_chosen_lower : Victim (resident 0 0) 4096 8192 :=
  (((victims_chosen (resident 0 0) 8192).1 4096).mpr (Or.inr (Or.inr (Or.inr
    ⟨by decide, by decide, Or.inr ⟨by decide, Or.inl (by decide)⟩⟩)))).mp (by decide)

/-- A stopped task without a debugger is not accepted when there happens to be something behind its
control block. -/
theorem stopped_rejected : Victim (resident 1 7) 4096 8192 ∧ ckptst (resident 1 7) 4096 8192 = false := by
  decide

end RSX280.Ckptst
