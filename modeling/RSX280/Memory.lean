import Mathlib.Logic.Function.Basic
import Mathlib.Logic.Relation
import Mathlib.Tactic.Common

/-!
# Sixteen-bit byte memory and runs of a transition system

The two things every layer above shares:

* `Mem` — a byte memory with a 16-bit address space and its little-endian word
  access `rd16` / `wr16`. Address arithmetic wraps at `65536`, as the address
  registers of the machine do; the framing lemmas are stated for accesses that
  stay clear of the wrap.
* `Reach` — the states a step relation reaches from an initial one, with the
  invariant rule `Reach.invariant`.
-/

namespace RSX280

universe u

/-! ## Words and bytes -/

/-- Byte memory with 16-bit addresses. -/
abbrev Mem : Type := ℕ → UInt8

namespace Mem

/-- Read the little-endian word at `a`. -/
def rd16 (m : Mem) (a : ℕ) : ℕ := (m a).toNat + 256 * (m ((a + 1) % 65536)).toNat

/-- Store one byte. -/
def wr8 (m : Mem) (a : ℕ) (v : UInt8) : Mem := Function.update m a v

/-- Store the word `v` at `a`, low byte first. -/
def wr16 (m : Mem) (a v : ℕ) : Mem :=
  (m.wr8 a (UInt8.ofNat v)).wr8 ((a + 1) % 65536) (UInt8.ofNat (v / 256))

/-- Store the bytes of `l` from `a` on. -/
def wrBytes (m : Mem) (a : ℕ) : List UInt8 → Mem
  | [] => m
  | v :: l => wrBytes (m.wr8 a v) ((a + 1) % 65536) l

theorem rd16_lt (m : Mem) (a : ℕ) : m.rd16 a < 65536 := by
  have h₁ := (m a).toNat_lt
  have h₂ := (m ((a + 1) % 65536)).toNat_lt
  simp only [rd16]
  omega

@[simp] theorem wr8_self (m : Mem) (a : ℕ) (v : UInt8) : m.wr8 a v a = v :=
  Function.update_self ..

@[simp] theorem wr8_ne (m : Mem) {a b : ℕ} (v : UInt8) (h : b ≠ a) : m.wr8 a v b = m b :=
  Function.update_of_ne h ..

/-- A word store leaves every other byte alone. -/
theorem wr16_apply_ne (m : Mem) {a b : ℕ} (v : ℕ) (h₁ : b ≠ a) (h₂ : b ≠ (a + 1) % 65536) :
    m.wr16 a v b = m b := by
  rw [wr16, wr8_ne _ _ h₂, wr8_ne _ _ h₁]

/-- A word read sees only its two bytes. -/
theorem rd16_congr {m m' : Mem} {a : ℕ} (h₁ : m' a = m a)
    (h₂ : m' ((a + 1) % 65536) = m ((a + 1) % 65536)) : m'.rd16 a = m.rd16 a := by
  rw [rd16, rd16, h₁, h₂]

/-- Reading back the word just stored. -/
theorem rd16_wr16_self (m : Mem) {a v : ℕ} (hv : v < 65536) :
    (m.wr16 a v).rd16 a = v := by
  have hne : a ≠ (a + 1) % 65536 := by omega
  rw [rd16, wr16, wr8_self, wr8_ne _ _ hne, wr8_self]
  simp only [UInt8.toNat_ofNat']
  omega

/-- A store to a word two or more bytes away is not seen. -/
theorem rd16_wr16_ne (m : Mem) {a b : ℕ} (v : ℕ) (ha : a + 1 < 65536) (hb : b + 1 < 65536)
    (h : a + 1 < b ∨ b + 1 < a) : (m.wr16 a v).rd16 b = m.rd16 b := by
  apply rd16_congr
  · exact m.wr16_apply_ne v (by omega) (by omega)
  · exact m.wr16_apply_ne v (by omega) (by omega)

end Mem

/-! ## Runs -/

section Reach

variable {σ : Type u} {step : σ → σ → Prop}

/-- The states reached from `s` by any number of steps. -/
abbrev Reach (step : σ → σ → Prop) (s t : σ) : Prop := Relation.ReflTransGen step s t

/-- **Invariant rule**: what holds initially and is kept by every step holds in
every state reached. -/
theorem Reach.invariant {P : σ → Prop} {s t : σ} (hr : Reach step s t) (h₀ : P s)
    (hstep : ∀ a b, P a → step a b → P b) : P t := by
  induction hr with
  | refl => exact h₀
  | tail _ hab ih => exact hstep _ _ ih hab

end Reach

end RSX280
