import RSX280.Mkdisk

/-!
# The bitmaps of a new volume

The loop sets the first bits of a bitmap, and leaves a byte when its eight bits are there. It stores
the byte that was not completed also when there is none: at the end of a block that byte is the one
behind the work buffer.
-/

namespace RSX280.Mkdisk

open Sector

/-- The byte with the first `m` bits set. -/
def ones (m : ℕ) : ℕ := 256 - 2 ^ (8 - m)

/-- The `q`-th byte of a bitmap with the first `n` bits set. -/
def bitByte (n q : ℕ) : ℕ := if q < n / 8 then 255 else if q = n / 8 then ones (n % 8) else 0

theorem ones_or : ∀ m < 8, ones m ||| 128 / 2 ^ m = ones (m + 1) := by decide

theorem mask_half : ∀ m < 8, (128 / 2 ^ m) / 2 = 0 ↔ m = 7 := by decide

theorem mask_next : ∀ m < 7, (128 / 2 ^ m) / 2 = 128 / 2 ^ (m + 1) := by decide

theorem mask_ne : ∀ m < 8, 128 / 2 ^ m ≠ 0 := by decide

theorem ones_bit : ∀ m < 8, ∀ p < 8, (ones m).testBit (7 - p) = decide (p < m) := by decide

theorem full_bit : ∀ p < 8, Nat.testBit 255 (7 - p) = true := by decide

theorem bitByte_bit (n t : ℕ) : (bitByte n (t / 8)).testBit (7 - t % 8) = decide (t < n) := by
  have ht : t % 8 < 8 := Nat.mod_lt _ (by decide)
  have hn : n % 8 < 8 := Nat.mod_lt _ (by decide)
  rw [bitByte]
  split
  · rw [full_bit _ ht]
    exact (decide_eq_true (by omega)).symm
  · split
    · rw [ones_bit _ hn _ ht]
      exact decide_eq_decide.mpr (by omega)
    · rw [Nat.zero_testBit]
      exact (decide_eq_false (by omega)).symm

/-! ### The loop -/

/-- Bytes `j` to `j' - 1` are full. -/
def filled (b : Buf) (j j' : ℕ) : Buf := fun k => if j ≤ k ∧ k < j' then 255 else b k

theorem filled_write (b : Buf) (j j' : ℕ) (h : j < j') :
    filled (b.write j [255]) (j + 1) j' = filled b j j' := by
  funext k
  rw [filled, filled]
  by_cases first : k = j
  · subst first
    rw [if_neg (by omega), if_pos ⟨Nat.le_refl _, h⟩]
    exact write_in (k := 0) (by decide)
  · have out : k < j ∨ j + [255].length ≤ k := by
      rw [List.length_singleton]
      omega
    rw [write_out out]
    by_cases inside : j + 1 ≤ k ∧ k < j'
    · rw [if_pos inside, if_pos (by omega)]
    · rw [if_neg inside, if_neg (by omega)]

theorem filled_self (b : Buf) (j : ℕ) : filled b j j = b :=
  funext fun _ => if_neg (by omega)

/-- One step of the loop, within a byte or at its end. -/
theorem mark_step (n : ℕ) {j m : ℕ} (b : Buf) (hj : j < 512) (hm : m < 8) :
    mark (n + 1) j (ones m) (128 / 2 ^ m) b
      = if m = 7 then mark n (j + 1) (ones 0) (128 / 2 ^ 0) (b.write j [255])
        else mark n j (ones (m + 1)) (128 / 2 ^ (m + 1)) b := by
  rw [mark, if_pos hj]
  dsimp only
  rw [ones_or m hm]
  by_cases last : m = 7
  · subst last
    have room : j + [255].length ≤ 512 := hj
    rw [if_pos ((mask_half 7 hm).mpr rfl), if_pos rfl]
    change (put b j [255] >>= fun b => mark n (j + 1) 0 128 b) = _
    rw [put_some room]
    rfl
  · rw [if_neg fun half => last ((mask_half m hm).mp half), if_neg last,
      mask_next m (Nat.lt_of_le_of_ne (Nat.le_of_lt_succ hm) last)]

/-- The bits fit, and the last byte is not stored. -/
theorem mark_fits (n : ℕ) {j m : ℕ} (b : Buf) (hm : m < 8) (h : 8 * j + m + n < 4096) :
    mark n j (ones m) (128 / 2 ^ m) b = some (filled b j (j + (m + n) / 8), 0, j + (m + n) / 8,
      ones ((m + n) % 8), 128 / 2 ^ ((m + n) % 8)) := by
  induction n generalizing j m b with
  | zero =>
    rw [Nat.add_zero, Nat.div_eq_of_lt hm, Nat.mod_eq_of_lt hm, Nat.add_zero, filled_self]
    rfl
  | succ n ih =>
    rw [mark_step n b (by omega) hm]
    by_cases last : m = 7
    · have byte : j + 1 + (0 + n) / 8 = j + (m + (n + 1)) / 8 := by omega
      have bits : (0 + n) % 8 = (m + (n + 1)) % 8 := by omega
      rw [if_pos last, ih _ (by decide) (by omega), byte, bits, filled_write _ _ _ (by omega)]
    · have same : m + 1 + n = m + (n + 1) := by omega
      rw [if_neg last, ih _ (by omega) (by omega), same]

/-- The bits reach the end of the block. -/
theorem mark_over (n : ℕ) {j m : ℕ} (b : Buf) (hm : m < 8) (hj : 8 * j + m ≤ 4096)
    (h : 4096 ≤ 8 * j + m + n) :
    ∃ b' n', mark n j (ones m) (128 / 2 ^ m) b = some (b', n', 512, ones 0, 128 / 2 ^ 0) := by
  induction n generalizing j m b with
  | zero =>
    obtain ⟨rfl, rfl⟩ : j = 512 ∧ m = 0 := by omega
    exact ⟨b, 0, rfl⟩
  | succ n ih =>
    by_cases atEnd : j < 512
    · rw [mark_step n b atEnd hm]
      by_cases last : m = 7
      · rw [if_pos last]
        exact ih _ (by decide) (by omega) (by omega)
      · rw [if_neg last]
        exact ih _ (by omega) (by omega) (by omega)
    · obtain ⟨rfl, rfl⟩ : j = 512 ∧ m = 0 := by omega
      exact ⟨b, n + 1, rfl⟩

theorem markBlock_fits (n : ℕ) {j : ℕ} (b : Buf) (h : 8 * j + n < 4096) :
    markBlock n j b = some ((filled b j (j + n / 8)).write (j + n / 8) [ones (n % 8)], 0) := by
  have bits : n % 8 < 8 := Nat.mod_lt _ (by decide)
  have room : j + n / 8 + [ones (n % 8)].length ≤ 512 := by
    rw [List.length_singleton]
    omega
  have run := mark_fits n b (show 0 < 8 by decide) h
  rw [Nat.zero_add] at run
  rw [markBlock]
  change (mark n j (ones 0) (128 / 2 ^ 0) b >>= _) = _
  rw [run]
  simp only [Option.bind_eq_bind, Option.bind_some, if_pos (mask_ne _ bits), put_some room]

theorem markBlock_over (n : ℕ) {j : ℕ} (b : Buf) (hj : j ≤ 512) (h : 4096 ≤ 8 * j + n) :
    markBlock n j b = none := by
  obtain ⟨b', n', run⟩ := mark_over n b (show 0 < 8 by decide) (by omega) h
  rw [markBlock]
  change (mark n j (ones 0) (128 / 2 ^ 0) b >>= _) = _
  rw [run]
  rfl

/-! ### A bitmap -/

/-- The first block of a bitmap. -/
def firstBlock (head : Buf) (n : ℕ) : Buf := fun k => if k < 16 then head k else bitByte n (k - 16)

theorem firstBlock_eq {head : Buf} {n : ℕ} (hh : ∀ k, 16 ≤ k → head k = 0) :
    (filled head 16 (16 + n / 8)).write (16 + n / 8) [ones (n % 8)] = firstBlock head n := by
  funext k
  rw [firstBlock]
  by_cases last : k = 16 + n / 8
  · subst last
    rw [if_neg (by omega), bitByte, if_neg (by omega), if_pos (by omega)]
    exact write_in (k := 0) Nat.zero_lt_one
  · have out : k < 16 + n / 8 ∨ 16 + n / 8 + [ones (n % 8)].length ≤ k := by
      rw [List.length_singleton]
      omega
    rw [write_out out, filled]
    by_cases inside : 16 ≤ k ∧ k < 16 + n / 8
    · rw [if_pos inside, if_neg (by omega), bitByte, if_pos (by omega)]
    · rw [if_neg inside]
      by_cases before : k < 16
      · rw [if_pos before]
      · rw [if_neg before, hh k (by omega), bitByte, if_neg (by omega), if_neg (by omega)]

attribute [local grind =] bitmap

/-- The blocks behind the first one, when no bits are left. -/
theorem bitmap_zero (head : Buf → Option Buf) (k i : ℕ) (hi : i ≠ 0) :
    bitmap head k i 0 = some (List.replicate k zero) := by
  induction k generalizing i with
  | zero => rfl
  | succ k ih =>
    rw [bitmap]
    simp only [if_neg hi, Nat.lt_irrefl, if_false, Option.bind_eq_bind, Option.bind_some,
      ih (i + 1) (Nat.succ_ne_zero i)]
    rfl

/-- A bitmap whose bits fit in the first block. -/
theorem bitmap_fits {head : Buf → Option Buf} {b : Buf} (k : ℕ) {n : ℕ}
    (hb : head zero = some b) (hh : ∀ k, 16 ≤ k → b k = 0) (hn : 0 < n) (h : n < 3968) :
    bitmap head (k + 1) 0 n = some (firstBlock b n :: List.replicate k zero) := by
  rw [bitmap]
  simp only [if_true, if_pos hn, hb, Option.bind_eq_bind, Option.bind_some,
    markBlock_fits n b (show 8 * 16 + n < 4096 by omega), bitmap_zero head k 1 (by decide),
    firstBlock_eq hh]

theorem bitmap_over {head : Buf → Option Buf} {b : Buf} (k : ℕ) {n : ℕ}
    (hb : head zero = some b) (h : 3968 ≤ n) : bitmap head (k + 1) 0 n = none := by
  have some_bits : 0 < n := Nat.lt_of_lt_of_le (by decide) h
  rw [bitmap]
  simp only [if_true, if_pos some_bits, hb, Option.bind_eq_bind, Option.bind_some,
    markBlock_over n b (show 16 ≤ 512 by decide) (show 4096 ≤ 8 * 16 + n by omega),
    Option.bind_none]

end RSX280.Mkdisk
