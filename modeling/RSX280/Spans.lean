import Mathlib.Algebra.GroupWithZero.Nat
import Mathlib.Algebra.BigOperators.Group.List.Basic
import Mathlib.Data.List.Nodup
import Mathlib.Order.Nat
import Mathlib.Tactic.Common

/-!
# Lists of spans

Spans of pages, blocks or addresses, kept in a list by ascending base. A span is named by
an index; `b` and `s` are the bases and sizes. `Packed b s lo l hi` says that the spans
of `l` lie one behind the other between `lo` and `hi`, `Room b s lo l hi n a` that `n`
more units fit at `a`, and `gap` is the first-fit search, whose two theorems `gap_eq_some`
and `gap_eq_none` say that it finds room exactly if there is any.
-/

namespace RSX280.Spans

universe u

variable {I : Type u} {b s b' s' : I → ℕ} {lo lo' hi hi' n a : ℕ} {i : I} {l l₁ l₂ : List I}

/-! ## Packed lists -/

/-- The spans of the list lie one behind the other between `lo` and `hi`. -/
def Packed (b s : I → ℕ) : ℕ → List I → ℕ → Prop
  | lo, [], hi => lo ≤ hi
  | lo, i :: l, hi => lo ≤ b i ∧ Packed b s (b i + s i) l hi

/-- Where the last span of the list ends. -/
def top (b s : I → ℕ) : ℕ → List I → ℕ
  | lo, [] => lo
  | _, i :: l => top b s (b i + s i) l

@[simp] theorem packed_nil : Packed b s lo [] hi ↔ lo ≤ hi := Iff.rfl

@[simp] theorem packed_cons :
    Packed b s lo (i :: l) hi ↔ lo ≤ b i ∧ Packed b s (b i + s i) l hi := Iff.rfl

@[simp] theorem top_nil : top b s lo [] = lo := rfl

@[simp] theorem top_cons : top b s lo (i :: l) = top b s (b i + s i) l := rfl

theorem top_le (hlo : lo ≤ hi) (h : ∀ i ∈ l, b i + s i ≤ hi) : top b s lo l ≤ hi := by
  induction l generalizing lo with
  | nil => exact hlo
  | cons i l ih =>
    obtain ⟨first, rest⟩ := List.forall_mem_cons.mp h
    exact ih first rest

theorem Packed.le (h : Packed b s lo l hi) : lo ≤ hi := by
  induction l generalizing lo with
  | nil => exact h
  | cons i l ih => exact h.1.trans ((Nat.le_add_right ..).trans (ih h.2))

theorem Packed.mono (h : Packed b s lo l hi) (hlo : lo' ≤ lo) (hhi : hi ≤ hi') :
    Packed b s lo' l hi' := by
  induction l generalizing lo lo' with
  | nil => exact hlo.trans (h.trans hhi)
  | cons i l ih => exact ⟨hlo.trans h.1, ih h.2 le_rfl⟩

theorem packed_append : Packed b s lo (l₁ ++ l₂) hi ↔
    Packed b s lo l₁ (top b s lo l₁) ∧ Packed b s (top b s lo l₁) l₂ hi := by
  induction l₁ generalizing lo with
  | nil => exact (and_iff_right le_rfl).symm
  | cons i l₁ ih =>
    rw [List.cons_append, packed_cons, packed_cons, top_cons, ih, and_assoc]

/-- A packed list sees only its own spans. -/
theorem Packed.congr (h : Packed b s lo l hi) (hl : ∀ i ∈ l, b' i = b i ∧ s' i = s i) :
    Packed b' s' lo l hi := by
  induction l generalizing lo with
  | nil => exact h
  | cons i l ih =>
    obtain ⟨⟨hb, hs⟩, hl'⟩ := List.forall_mem_cons.mp hl
    rw [packed_cons, hb, hs]
    exact ⟨h.1, ih h.2 hl'⟩

/-- Each span lies between the bounds. -/
theorem Packed.within (h : Packed b s lo l hi) (hi' : i ∈ l) : lo ≤ b i ∧ b i + s i ≤ hi := by
  obtain ⟨l₁, l₂, rfl⟩ := List.append_of_mem hi'
  obtain ⟨h₁, h₂⟩ := packed_append.mp h
  exact ⟨h₁.le.trans h₂.1, h₂.2.le⟩

/-- A span ends before those behind it begin: the list is ordered and the spans are
disjoint. -/
theorem Packed.pairwise (h : Packed b s lo l hi) : l.Pairwise fun i j => b i + s i ≤ b j := by
  induction l generalizing lo with
  | nil => exact List.Pairwise.nil
  | cons i l ih => exact List.pairwise_cons.mpr ⟨fun j hj => (h.2.within hj).1, ih h.2⟩

/-- Two spans of a packed list are disjoint. -/
theorem Packed.disjoint (h : Packed b s lo l hi) {j : I} (hi' : i ∈ l) (hj : j ∈ l)
    (hne : i ≠ j) : b i + s i ≤ b j ∨ b j + s j ≤ b i := by
  obtain ⟨l₁, l₂, rfl⟩ := List.append_of_mem hi'
  obtain ⟨h₁, -, h₂⟩ := packed_append.mp h
  rcases List.mem_append.mp hj with hj | hj
  · exact Or.inr ((h₁.within hj).2.trans (packed_append.mp h).2.1)
  · rcases List.mem_cons.mp hj with rfl | hj
    · exact absurd rfl hne
    · exact Or.inl (h₂.within hj).1

theorem Packed.remove (h : Packed b s lo (l₁ ++ i :: l₂) hi) :
    Packed b s lo (l₁ ++ l₂) hi := by
  obtain ⟨h₁, h₂, h₃⟩ := packed_append.mp h
  exact packed_append.mpr ⟨h₁, h₃.mono (h₂.trans (Nat.le_add_right ..)) le_rfl⟩

/-- A packed list ends where its last span does. -/
theorem Packed.last (h : Packed b s lo l hi) (hi' : l.getLast? = some i) : Packed b s lo l (b i + s i) := by
  obtain ⟨l₁, rfl⟩ := List.getLast?_eq_some_iff.mp hi'
  obtain ⟨h₁, h₂, -⟩ := packed_append.mp h
  exact packed_append.mpr ⟨h₁, h₂, le_rfl⟩

/-- The space between the bounds is at least that of the spans. -/
theorem Packed.sum_le (h : Packed b s lo l hi) : lo + (l.map s).sum ≤ hi := by
  induction l generalizing lo with
  | nil => exact h
  | cons i l ih =>
    have hle := ih h.2
    have h₁ := h.1
    rw [List.map_cons, List.sum_cons]
    omega

/-! ## Gaps -/

/-- `n` more units fit at `a`. -/
structure Room (b s : I → ℕ) (lo : ℕ) (l : List I) (hi n a : ℕ) : Prop where
  lo : lo ≤ a
  hi : a + n ≤ hi
  free : ∀ i ∈ l, a + n ≤ b i ∨ b i + s i ≤ a

/-- The first gap of at least `n`: the spans before it, where it begins, and the spans
behind it. -/
def gap (b s : I → ℕ) (n hi : ℕ) : ℕ → List I → Option (List I × ℕ × List I)
  | lo, [] => if n ≤ hi - lo then some ([], lo, []) else none
  | lo, i :: l =>
    if n ≤ b i - lo then some ([], lo, i :: l)
    else (gap b s n hi (b i + s i) l).map fun g => (i :: g.1, g.2)

/-- The gap found lies behind the spans before it and holds `n` units. -/
theorem gap_eq_some (h : Packed b s lo l hi) (hg : gap b s n hi lo l = some (l₁, a, l₂)) :
    l = l₁ ++ l₂ ∧ Packed b s lo l₁ a ∧ Packed b s (a + n) l₂ hi := by
  induction l generalizing lo l₁ with
  | nil =>
    rw [gap] at hg
    split at hg
    · next hn =>
      obtain ⟨rfl, rfl, rfl⟩ : [] = l₁ ∧ lo = a ∧ [] = l₂ := by simpa using hg
      have hle : lo ≤ hi := h
      exact ⟨rfl, le_rfl, by rw [packed_nil]; omega⟩
    · cases hg
  | cons i l ih =>
    rw [gap] at hg
    split at hg
    · next hn =>
      obtain ⟨rfl, rfl, rfl⟩ : [] = l₁ ∧ lo = a ∧ i :: l = l₂ := by simpa using hg
      have h₁ := h.1
      exact ⟨rfl, le_rfl, by omega, h.2⟩
    · obtain ⟨⟨k₁, c, k₂⟩, hk, he⟩ := Option.map_eq_some_iff.mp hg
      obtain ⟨rfl, rfl, rfl⟩ : i :: k₁ = l₁ ∧ c = a ∧ k₂ = l₂ := by simpa using he
      obtain ⟨rfl, h₁, h₂⟩ := ih h.2 hk
      exact ⟨rfl, ⟨h.1, h₁⟩, h₂⟩

/-- The gap found is room. -/
theorem room_of_gap (h : Packed b s lo l hi) (hg : gap b s n hi lo l = some (l₁, a, l₂)) :
    Room b s lo l hi n a := by
  obtain ⟨rfl, h₁, h₂⟩ := gap_eq_some h hg
  refine ⟨h₁.le, h₂.le, fun i hi' => ?_⟩
  rcases List.mem_append.mp hi' with hi' | hi'
  · exact Or.inr (h₁.within hi').2
  · exact Or.inl (h₂.within hi').1

/-- If no gap is found, there is no room. -/
theorem gap_eq_none (h : Packed b s lo l hi) (hg : gap b s n hi lo l = none) (a : ℕ) :
    ¬Room b s lo l hi n a := by
  intro hr
  induction l generalizing lo with
  | nil =>
    rw [gap] at hg
    split at hg
    · cases hg
    · next hn =>
      have h₁ := hr.lo
      have h₂ := hr.hi
      omega
  | cons i l ih =>
    obtain ⟨hfree, hfree'⟩ := List.forall_mem_cons.mp hr.free
    rw [gap] at hg
    split at hg
    · cases hg
    · next hn =>
      rcases hfree with hlt | hge
      · -- the room would lie before the first span
        have h₁ := hr.lo
        omega
      · exact ih h.2 (Option.map_eq_none_iff.mp hg) ⟨hge, hr.hi, hfree'⟩

/-- There is room exactly if the search finds a gap. -/
theorem isSome_gap_iff (h : Packed b s lo l hi) :
    (gap b s n hi lo l).isSome = true ↔ ∃ a, Room b s lo l hi n a := by
  constructor
  · intro hg
    obtain ⟨⟨l₁, a, l₂⟩, hg⟩ := Option.isSome_iff_exists.mp hg
    exact ⟨a, room_of_gap h hg⟩
  · rintro ⟨a, hr⟩
    by_contra hg
    exact gap_eq_none h (by simpa using hg) a hr

/-- A new span in the gap found keeps the list packed. -/
theorem Packed.insert (h : Packed b s lo l hi) (hg : gap b s n hi lo l = some (l₁, a, l₂))
    (hi' : ∀ j ∈ l, b' j = b j ∧ s' j = s j) (hb : b' i = a) (hs : s' i = n) :
    Packed b' s' lo (l₁ ++ i :: l₂) hi := by
  obtain ⟨rfl, h₁, h₂⟩ := gap_eq_some h hg
  have h₁' : Packed b' s' lo l₁ a := h₁.congr fun j hj => hi' j (List.mem_append_left _ hj)
  have h₂' : Packed b' s' (a + n) l₂ hi :=
    h₂.congr fun j hj => hi' j (List.mem_append_right _ hj)
  have htop : top b' s' lo l₁ ≤ a := by
    have happ : Packed b' s' lo (l₁ ++ []) a := by rwa [List.append_nil]
    exact (packed_append.mp happ).2
  refine packed_append.mpr ⟨?_, ?_⟩
  · have happ : Packed b' s' lo (l₁ ++ []) a := by rwa [List.append_nil]
    exact (packed_append.mp happ).1
  · rw [packed_cons, hb, hs]
    exact ⟨htop, h₂'⟩

/-- A span may grow up to the next one, or shrink. -/
theorem Packed.resize (h : Packed b s lo (l₁ ++ i :: l₂) hi)
    (hl : ∀ j ∈ l₁ ++ l₂, b j = b' j ∧ s j = s' j) (hb : b' i = b i)
    (hn : Packed b s (b i + s' i) l₂ hi) : Packed b' s' lo (l₁ ++ i :: l₂) hi := by
  obtain ⟨h₁, h₂, -⟩ := packed_append.mp h
  have h₁' : Packed b' s' lo l₁ (b' i) := by
    refine (h₁.mono le_rfl h₂).congr (fun j hj => ?_) |>.mono le_rfl hb.ge
    obtain ⟨hbj, hsj⟩ := hl j (List.mem_append_left _ hj)
    exact ⟨hbj.symm, hsj.symm⟩
  have happ : Packed b' s' lo (l₁ ++ []) (b' i) := by rwa [List.append_nil]
  refine packed_append.mpr ⟨(packed_append.mp happ).1, (packed_append.mp happ).2, ?_⟩
  rw [hb]
  refine hn.congr fun j hj => ?_
  obtain ⟨hbj, hsj⟩ := hl j (List.mem_append_right _ hj)
  exact ⟨hbj.symm, hsj.symm⟩

end RSX280.Spans
