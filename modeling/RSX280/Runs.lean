import RSX280.Memory

/-!
# Runs of a machine

A `Machine` performs operations one after another. `Machine.Step P` is the step relation
of its runs all whose operations meet `P` in the state they are performed in; together
with `Reach` it states what holds in every run of that kind. A concrete run is a list of
operations.
-/

namespace RSX280

universe u v

/-- A system that performs operations: what one does, and when it may be performed. -/
structure Machine (ο : Type u) (σ : Type v) where
  run : ο → σ → σ
  Ready : ο → σ → Prop

namespace Machine

variable {ο : Type u} {σ : Type v} (m : Machine ο σ)

/-- One step, by an operation that meets `P`. -/
def Step (P : ο → σ → Prop) (s s' : σ) : Prop := ∃ op, m.Ready op s ∧ P op s ∧ s' = m.run op s

/-- Perform a list of operations. -/
def runAll : List ο → σ → σ
  | [], s => s
  | op :: l, s => runAll l (m.run op s)

/-- Each operation of the list is performed when it may be, and meets `P`. -/
def Admits (P : ο → σ → Prop) : List ο → σ → Prop
  | [], _ => True
  | op :: l, s => (m.Ready op s ∧ P op s) ∧ Admits P l (m.run op s)

variable {m}

theorem reach_runAll {P : ο → σ → Prop} {l : List ο} {s : σ} (h : m.Admits P l s) :
    Reach (m.Step P) s (m.runAll l s) := by
  induction l generalizing s with
  | nil => exact Relation.ReflTransGen.refl
  | cons op l ih => exact Relation.ReflTransGen.head ⟨op, h.1.1, h.1.2, rfl⟩ (ih h.2)

theorem admits_append {P : ο → σ → Prop} {l l' : List ο} {s : σ} (h : m.Admits P l s)
    (h' : m.Admits P l' (m.runAll l s)) : m.Admits P (l ++ l') s := by
  induction l generalizing s with
  | nil => exact h'
  | cons op l ih => exact ⟨h.1, ih h.2 h'⟩

end Machine

end RSX280
