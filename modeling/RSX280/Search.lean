import Mathlib.Data.Nat.Notation
import Mathlib.Order.Nat
import Mathlib.Tactic.Common

/-!
# Searching a bitmap

Places are numbered and each is used (`f` is true of it) or free. `first` finds the lowest place that is free, and
`firstRun` the lowest run of `n` free places in one pass: it remembers where the current run
starts, and stops as soon as the run is long enough.
-/

namespace RSX280.Search

variable {f : ℕ → Bool} {i m n : ℕ} {st : Option ℕ}

/-! ## The first free place -/

/-- The first free place of the `m` from `i` on. -/
def first (f : ℕ → Bool) : ℕ → ℕ → Option ℕ
  | _, 0 => none
  | i, m + 1 => if f i then first f (i + 1) m else some i

theorem first_zero (f : ℕ → Bool) (i : ℕ) : first f i 0 = none := rfl

theorem first_succ (f : ℕ → Bool) (i m : ℕ) : first f i (m + 1) = if f i then first f (i + 1) m else some i := rfl

theorem first_eq_none (h : first f i m = none) : ∀ j, i ≤ j → j < i + m → f j = true := by
  induction m generalizing i with
  | zero => exact fun j h₁ h₂ => absurd h₁ (not_le.mpr h₂)
  | succ m ih =>
    rw [first_succ] at h
    split at h
    · next hi =>
      intro j h₁ h₂
      rcases eq_or_lt_of_le h₁ with rfl | h₁
      · exact hi
      · exact ih h j h₁ (by omega)
    · cases h

theorem first_eq_some {k : ℕ} (h : first f i m = some k) :
    i ≤ k ∧ k < i + m ∧ f k = false ∧ ∀ j, i ≤ j → j < k → f j = true := by
  induction m generalizing i with
  | zero => cases h
  | succ m ih =>
    rw [first_succ] at h
    split at h
    · next hi =>
      obtain ⟨h₁, h₂, hk, hj⟩ := ih h
      refine ⟨by omega, by omega, hk, fun j hij hjk => ?_⟩
      rcases eq_or_lt_of_le hij with rfl | hij
      · exact hi
      · exact hj j hij hjk
    · next hi =>
      obtain rfl := Option.some.inj h
      exact ⟨le_rfl, by omega, by simpa using hi, fun j h₁ h₂ => absurd h₁ (not_le.mpr h₂)⟩

theorem first_append (f : ℕ → Bool) (i m m' : ℕ) :
    first f i (m + m') = (first f i m).or (first f (i + m) m') := by
  induction m generalizing i with
  | zero => rw [Nat.zero_add, first_zero, Option.none_or, Nat.add_zero]
  | succ m ih =>
    rw [Nat.add_right_comm, first_succ, first_succ]
    split
    · rw [ih, Nat.add_assoc, Nat.add_comm 1]
    · rfl

/-! ## The first run -/

/-- The `n` places from `s` on are free. -/
def Free (f : ℕ → Bool) (s n : ℕ) : Prop := ∀ j, s ≤ j → j < s + n → f j = false

/-- Look at the `m` places from `i` on; the current run started at `st`, if there is one. -/
def firstRun (f : ℕ → Bool) (n : ℕ) : ℕ → ℕ → Option ℕ → Option ℕ
  | _, 0, _ => none
  | i, m + 1, st =>
    if f i then firstRun f n (i + 1) m none
    else if i + 1 = st.getD i + n then some (st.getD i)
    else firstRun f n (i + 1) m (some (st.getD i))

/-- What is known when the places before `i` have been looked at: no run of `n` is among them,
and the current run, which is shorter, starts behind a used place. -/
structure Before (f : ℕ → Bool) (n i : ℕ) (st : Option ℕ) : Prop where
  short : ∀ s, s + n ≤ i → ¬Free f s n
  run : ∀ s, st = some s → s < i ∧ i < s + n ∧ Free f s (i - s)
  stop : ∀ j, st.getD i = j + 1 → f j = true

theorem Before.zero (hn : 0 < n) : Before f n 0 none :=
  ⟨fun s hs => by omega, fun s hs => (nomatch hs), fun j hj => (nomatch hj)⟩

/-- The next place is used. -/
theorem Before.used (h : Before f n i st) (hn : 0 < n) (hi : f i = true) :
    Before f n (i + 1) none := by
  refine ⟨fun s hs hfree => ?_, fun s hs => (nomatch hs), fun j hj => ?_⟩
  · rcases eq_or_lt_of_le hs with hs | hs
    · exact absurd (hfree i (by omega) (by omega)) (by rw [hi]; decide)
    · exact h.short s (by omega) hfree
  · rw [Option.getD_none] at hj
    obtain rfl : i = j := by omega
    exact hi

/-- The next place is free: it belongs to the current run. -/
theorem Before.free (h : Before f n i st) (hn : 0 < n) (hi : f i = false) :
    st.getD i ≤ i ∧ i < st.getD i + n ∧ Free f (st.getD i) (i + 1 - st.getD i) := by
  cases st with
  | none =>
    refine ⟨le_rfl, Nat.lt_add_of_pos_right hn, fun j h₁ h₂ => ?_⟩
    rw [Option.getD_none] at h₁ h₂
    obtain rfl : i = j := by omega
    exact hi
  | some s =>
    obtain ⟨h₁, h₂, h₃⟩ := h.run s rfl
    refine ⟨h₁.le, h₂, fun j hsj hji => ?_⟩
    rw [Option.getD_some] at hsj hji
    rcases eq_or_ne j i with rfl | hj
    · exact hi
    · exact h₃ j hsj (by omega)

theorem Before.grow (h : Before f n i st) (hn : 0 < n) (hi : f i = false)
    (hlong : i + 1 ≠ st.getD i + n) : Before f n (i + 1) (some (st.getD i)) := by
  obtain ⟨h₁, h₂, h₃⟩ := h.free hn hi
  refine ⟨fun s hs hfree => ?_, fun s hs => ?_, h.stop⟩
  · rcases eq_or_lt_of_le hs with hs | hs
    · -- a run of `n` that ends here would reach behind the start of the current one
      obtain ⟨j, hj⟩ := Nat.exists_eq_succ_of_ne_zero (n := st.getD i) (by omega)
      exact absurd (hfree j (by omega) (by omega)) (by rw [h.stop j hj]; decide)
    · exact h.short s (by omega) hfree
  · obtain rfl := Option.some.inj hs
    exact ⟨by omega, by omega, h₃⟩

theorem Before.found (h : Before f n i st) (hn : 0 < n) (hi : f i = false)
    (hlong : i + 1 = st.getD i + n) :
    Free f (st.getD i) n ∧ ∀ s, s < st.getD i → ¬Free f s n := by
  obtain ⟨h₁, h₂, h₃⟩ := h.free hn hi
  rw [show i + 1 - st.getD i = n by omega] at h₃
  exact ⟨h₃, fun s hs => h.short s (by omega)⟩

theorem Before.firstRun_eq_some (h : Before f n i st) (hn : 0 < n) {s : ℕ}
    (hs : firstRun f n i m st = some s) :
    Free f s n ∧ s + n ≤ i + m ∧ ∀ s', s' < s → ¬Free f s' n := by
  induction m generalizing i st with
  | zero => cases hs
  | succ m ih =>
    rw [firstRun] at hs
    split at hs
    · next hi =>
      obtain ⟨h₁, h₂, h₃⟩ := ih (h.used hn hi) hs
      exact ⟨h₁, by omega, h₃⟩
    rename_i hi
    have hi : f i = false := by simpa using hi
    split at hs
    · next hlong =>
      obtain rfl := Option.some.inj hs
      obtain ⟨h₁, h₂⟩ := h.found hn hi hlong
      exact ⟨h₁, by omega, h₂⟩
    · next hlong =>
      obtain ⟨h₁, h₂, h₃⟩ := ih (h.grow hn hi hlong) hs
      exact ⟨h₁, by omega, h₃⟩

theorem Before.firstRun_eq_none (h : Before f n i st) (hn : 0 < n)
    (hs : firstRun f n i m st = none) : ∀ s, s + n ≤ i + m → ¬Free f s n := by
  induction m generalizing i st with
  | zero => exact h.short
  | succ m ih =>
    rw [firstRun] at hs
    split at hs
    · next hi => exact fun s hsn => ih (h.used hn hi) hs s (by omega)
    rename_i hi
    have hi : f i = false := by simpa using hi
    split at hs
    · cases hs
    · next hlong => exact fun s hsn => ih (h.grow hn hi hlong) hs s (by omega)

/-- Used places end the current run. -/
theorem firstRun_used {k : ℕ} (hf : ∀ j, i ≤ j → j < i + (k + 1) → f j = true) :
    firstRun f n i (k + 1 + m) st = firstRun f n (i + (k + 1)) m none := by
  induction k generalizing i st with
  | zero => rw [Nat.zero_add, Nat.add_comm, firstRun, if_pos (hf i le_rfl (by omega))]
  | succ k ih =>
    rw [Nat.add_right_comm, firstRun, if_pos (hf i le_rfl (by omega)),
      ih fun j h₁ h₂ => hf j (by omega) (by omega)]
    rw [Nat.add_assoc, Nat.add_comm 1]

/-- From the beginning: the run found is the first one. -/
theorem firstRun_some (hn : 0 < n) {s : ℕ} (h : firstRun f n 0 m none = some s) :
    Free f s n ∧ s + n ≤ m ∧ ∀ s', s' < s → ¬Free f s' n := by
  have := (Before.zero hn).firstRun_eq_some hn h
  rwa [Nat.zero_add] at this

theorem firstRun_none (hn : 0 < n) (h : firstRun f n 0 m none = none) :
    ∀ s, s + n ≤ m → ¬Free f s n := by
  have := (Before.zero hn).firstRun_eq_none hn h
  rwa [Nat.zero_add] at this

end RSX280.Search
