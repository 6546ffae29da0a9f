import Mathlib.Data.Nat.Notation
import RSX280.Errors

/-!
# Buffers of a task (`kernel/qio.mac`)

`$VALTB` checks a buffer that a system call gets from a task: its bytes have to be between the first address
`T.STRT` of the task and the last one, `T.END`. The length is subtracted from `T.END` before the 1 is added, so
that a buffer over the whole range of a task at address 0 gives a borrow (`valtb_right_iff`).
-/

namespace RSX280.Valtb

/-- `$VALTB`, with the buffer address in `DE` and the length in `BC`. -/
def VALTB (STRT END DE BC : ℕ) : Except Err Unit :=
  if DE < STRT then .error .inv
  else if END < BC then .error .inv
  else if (END - BC + 1) % 65536 < DE then .error .inv
  else .ok ()

/-- All bytes of the buffer are in the range. -/
def Inside (STRT END DE BC : ℕ) : Prop := ∀ i < BC, STRT ≤ DE + i ∧ DE + i ≤ END

variable {STRT END DE BC : ℕ}

theorem valtb_ok :
    VALTB STRT END DE BC = .ok () ↔ STRT ≤ DE ∧ BC ≤ END ∧ DE ≤ (END - BC + 1) % 65536 := by
  unfold VALTB
  split
  · next below => exact iff_of_false (by simp) fun h => absurd below (Nat.not_lt.mpr h.1)
  split
  · next long => exact iff_of_false (by simp) fun h => absurd long (Nat.not_lt.mpr h.2.1)
  split
  · next behind => exact iff_of_false (by simp) fun h => absurd behind (Nat.not_lt.mpr h.2.2)
  · next below long behind => exact iff_of_true rfl ⟨Nat.not_lt.mp below, Nat.not_lt.mp long, Nat.not_lt.mp behind⟩

/-- The first and the last byte decide. -/
theorem inside_iff (pos : 0 < BC) : Inside STRT END DE BC ↔ STRT ≤ DE ∧ DE + BC ≤ END + 1 := by
  constructor
  · intro inside
    have first := inside 0 pos
    have last := inside (BC - 1) (by omega)
    exact ⟨first.1, by omega⟩
  · intro ends i hi
    exact ⟨by omega, by omega⟩

/-- When `$VALTB` accepts a buffer exactly if all its bytes are in the range. -/
structure Fits (STRT END DE BC : ℕ) : Prop where
  /-- A buffer of no bytes is at an address of the range, or behind the last one. -/
  empty : BC = 0 → STRT ≤ DE ∧ DE ≤ (END + 1) % 65536
  /-- A buffer with as many bytes as there are addresses up to `T.END` is not at 0 in a range from 0. -/
  whole : BC = END + 1 → 0 < STRT ∨ 0 < DE

theorem valtb_right_iff (hend : END < 65536) :
    (VALTB STRT END DE BC = .ok () ↔ Inside STRT END DE BC) ↔ Fits STRT END DE BC := by
  rw [valtb_ok]
  rcases Nat.eq_zero_or_pos BC with rfl | pos
  · have all : Inside STRT END DE 0 := fun i hi => absurd hi (Nat.not_lt_zero i)
    rw [iff_true_right all]
    constructor
    · intro ok
      exact ⟨fun _ => ⟨ok.1, ok.2.2⟩, fun none => absurd none (by omega)⟩
    · intro fits
      exact ⟨(fits.empty rfl).1, Nat.zero_le END, (fits.empty rfl).2⟩
  · have small : BC ≤ END → (END - BC + 1) % 65536 = END - BC + 1 := fun le => Nat.mod_eq_of_lt (by omega)
    rw [inside_iff pos]
    constructor
    · intro right
      refine ⟨fun none => absurd none (by omega), fun whole => ?_⟩
      by_contra zero
      have ok := right.mpr ⟨by omega, by omega⟩
      omega
    · intro fits
      constructor
      · rintro ⟨above, le, ends⟩
        rw [small le] at ends
        exact ⟨above, by omega⟩
      · rintro ⟨above, ends⟩
        have le : BC ≤ END := by
          by_contra long
          have := fits.whole (by omega)
          omega
        exact ⟨above, le, by rw [small le]; omega⟩

theorem valtb_right_task : VALTB 0x100 0xFFFF 0xFF00 0x100 = .ok () ↔ Inside 0x100 0xFFFF 0xFF00 0x100 :=
  (valtb_right_iff (by decide)).mpr ⟨fun none => absurd none (by decide), fun _ => Or.inl (by decide)⟩

/-- All 8000h bytes of a task at 0. -/
theorem valtb_whole : Inside 0 0x7FFF 0 0x8000 ∧ VALTB 0 0x7FFF 0 0x8000 = .error .inv :=
  ⟨(inside_iff (by decide)).mpr ⟨Nat.le_refl 0, by decide⟩, rfl⟩

end RSX280.Valtb
