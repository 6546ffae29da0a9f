import Mathlib.Tactic.IntervalCases
import Mathlib.Tactic.Ring
import RSX280.ClkqRuns

/-!
# Intervals of the clock queue

What `TMULT` makes of a magnitude and a unit. The carry of a doubling is lost in `MUL328`, and a number
of ticks leaves in A what was there.
-/

namespace RSX280.Clkq

open Sched

universe u

variable {x a i n u : ℕ}

/-! ### `MUL328` -/

/-- After `i` turns of the loop: the rest of the multiplier, which is in the high bits, and the product
of what has been shifted out. -/
structure Partial (x a i : ℕ) (s : ℕ × ℕ) : Prop where
  dvd : 2 ^ i ∣ s.1
  lt : s.1 < 256
  eq : x * s.1 + 256 * s.2 = 2 ^ i * (x * a)

theorem Partial.m1 {s : ℕ × ℕ} (h : Partial x a i s) (hi : i < 8) (hx : x * a < 2 ^ 32) :
    Partial x a (i + 1) (m1 x s) := by
  obtain ⟨⟨d, hd⟩, hlt, heq⟩ := h
  have hpow : 2 ^ (i + 1) ≤ 256 := Nat.pow_le_pow_right (n := 2) (by decide) hi
  have hbound : 2 ^ (i + 1) * (x * a) ≤ 256 * (x * a) := Nat.mul_le_mul_right _ hpow
  have htwice : 2 ^ (i + 1) * (x * a) = 2 * (2 ^ i * (x * a)) := by ring
  have hp : s.2 * 2 % 2 ^ 32 = s.2 * 2 := Nat.mod_eq_of_lt (by omega)
  unfold Clkq.m1
  rw [hp]
  dsimp only
  split
  · refine ⟨⟨d, ?_⟩, by dsimp only; omega, ?_⟩
    · rw [hd, pow_succ]
      ring
    · dsimp only
      rw [htwice, ← heq]
      ring
  · obtain ⟨e, he⟩ : ∃ e, s.1 = e + 128 := ⟨s.1 - 128, by omega⟩
    have hsum : x * (2 * e) + 256 * (s.2 * 2 + x) = 2 ^ (i + 1) * (x * a) := by
      rw [htwice, ← heq, he]
      ring
    have hnc : s.2 * 2 + x < 2 ^ 32 := by omega
    rw [Nat.div_eq_of_lt hnc, Nat.mod_eq_of_lt hnc, show s.1 * 2 - 256 + 0 = 2 * e by omega]
    refine ⟨?_, by dsimp only; omega, hsum⟩
    -- the bit that is shifted out is a multiple of the power, too
    have h256 : 2 ^ (i + 1) ∣ 256 := pow_dvd_pow 2 hi
    have hs : 2 ^ (i + 1) ∣ s.1 * 2 := ⟨d, by rw [hd, pow_succ]; ring⟩
    have := (Nat.dvd_sub hs h256)
    rw [he, show (e + 128) * 2 - 256 = 2 * e by omega] at this
    exact this

variable {ticsec : ℕ}

variable {T : Type u} [DecidableEq T] {c : Clock T} {t : T} {efn ast usr grp rn ru : ℕ}

/-- The event flag of a mark-time request is cleared. -/
def Clock.clear (c : Clock T) (t : T) (efn : ℕ) : Clock T :=
  if efn = 0 then c else { c with k := (c.k.clrflg t efn).1 }

/-- Two tasks are started, and task 0 runs. -/
def started : Clock (Fin 2) := clock.runAll (start2.map .sys) clock2

end RSX280.Clkq
