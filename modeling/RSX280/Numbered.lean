import Mathlib.Data.List.Nodup
import Mathlib.Data.Nat.Notation
import Mathlib.Logic.Function.Basic
import Mathlib.Order.Nat

/-!
# Lists linked by numbers

The nodes have numbers, a link is the number of the next node, and zero is the end of a list. The
numbers of a list are determined by its first one, so that none of them is there twice.
-/

namespace RSX280.Numbered

variable {link link' : ℕ → ℕ} {a n : ℕ} {l l' : List ℕ}

/-- From the number `a` on, the links run through the numbers of the list to a zero. -/
def Linked (link : ℕ → ℕ) : ℕ → List ℕ → Prop
  | a, [] => a = 0
  | a, b :: l => a = b ∧ b ≠ 0 ∧ Linked link (link b) l

/-- The numbers from `a` on, `n` at most. -/
def follow (link : ℕ → ℕ) : ℕ → ℕ → List ℕ
  | 0, _ => []
  | n + 1, a => if a = 0 then [] else a :: follow link n (link a)

theorem Linked.ne_zero (h : Linked link a l) : ∀ b ∈ l, b ≠ 0 := by
  induction l generalizing a with
  | nil => exact List.forall_mem_nil _
  | cons b l ih => exact List.forall_mem_cons.mpr ⟨h.2.1, ih h.2.2⟩

theorem Linked.zero_iff (h : Linked link a l) : a = 0 ↔ l = [] := by
  cases l with
  | nil => exact iff_of_true h rfl
  | cons b l => exact iff_of_false (h.1 ▸ h.2.1) (List.cons_ne_nil _ _)

/-- A list sees its own links only. -/
theorem Linked.congr (h : Linked link a l) (hl : ∀ b ∈ l, link' b = link b) : Linked link' a l := by
  induction l generalizing a with
  | nil => exact h
  | cons b l ih =>
    obtain ⟨hb, hl⟩ := List.forall_mem_cons.mp hl
    refine ⟨h.1, h.2.1, ?_⟩
    rw [hb]
    exact ih h.2.2 hl

theorem Linked.unique (h : Linked link a l) (h' : Linked link a l') : l = l' := by
  induction l generalizing a l' with
  | nil => exact (h'.zero_iff.mp h).symm
  | cons b l ih =>
    cases l' with
    | nil => exact absurd h' (h.1 ▸ h.2.1)
    | cons c l' =>
      obtain rfl : b = c := h.1.symm.trans h'.1
      rw [ih h.2.2 h'.2.2]

theorem Linked.follow (h : Linked link a l) (hn : l.length ≤ n) : follow link n a = l := by
  induction l generalizing a n with
  | nil =>
    obtain rfl : a = 0 := h
    cases n with
    | zero => rfl
    | succ n => exact if_pos rfl
  | cons b l ih =>
    obtain ⟨rfl, hb, hl⟩ := h
    cases n with
    | zero => exact absurd hn (Nat.not_succ_le_zero _)
    | succ n =>
      rw [Numbered.follow, if_neg hb, ih hl (Nat.le_of_succ_le_succ hn)]

theorem follow_length : (follow link n a).length ≤ n := by
  induction n generalizing a with
  | zero => exact Nat.le_refl _
  | succ n ih =>
    unfold Numbered.follow
    split
    · exact Nat.zero_le _
    · exact Nat.succ_le_succ ih

/-- The rest of a list is one. -/
theorem Linked.suffix (h : Linked link a (l ++ n :: l')) : Linked link n (n :: l') := by
  induction l generalizing a with
  | nil => exact ⟨rfl, h.2⟩
  | cons b l ih => exact ih h.2.2

/-- No number is there twice. -/
theorem Linked.nodup (h : Linked link a l) : l.Nodup := by
  induction l generalizing a with
  | nil => exact List.nodup_nil
  | cons b l ih =>
    refine List.nodup_cons.mpr ⟨fun hb => ?_, ih h.2.2⟩
    -- the list from the second `b` on would be as long as the one from the first
    obtain ⟨l₁, l₂, rfl⟩ := List.append_of_mem hb
    have h₂ : Linked link b (b :: l₂) := h.2.2.suffix
    have hlen := congrArg List.length (h₂.2.2.unique h.2.2)
    rw [List.length_append, List.length_cons] at hlen
    omega

/-- The last link of a list is set to the first number of another list. -/
theorem Linked.join {b : ℕ} (h : Linked link a l) (hne : l ≠ []) (h' : Linked link b l')
    (hdis : ∀ x ∈ l, x ∉ l') : Linked (Function.update link (l.getLast hne) b) a (l ++ l') := by
  induction l generalizing a with
  | nil => exact absurd rfl hne
  | cons c l ih =>
    obtain ⟨rfl, hc, hl⟩ := h
    refine ⟨rfl, hc, ?_⟩
    have hnd : (a :: l).Nodup := Linked.nodup (a := a) ⟨rfl, hc, hl⟩
    by_cases hnil : l = []
    · subst hnil
      rw [List.getLast_singleton, Function.update_self]
      refine h'.congr fun x hx => Function.update_of_ne ?_ _ _
      exact fun hxa => hdis a List.mem_cons_self (hxa ▸ hx)
    · rw [List.getLast_cons hnil, Function.update_of_ne]
      · exact ih hl hnil fun x hx => hdis x (List.mem_cons_of_mem _ hx)
      · exact fun hlast => (List.nodup_cons.mp hnd).1 (hlast ▸ List.getLast_mem hnil)

/-- Numbers one after another. -/
theorem linked_range' (ha : a ≠ 0) (hlast : link (a + n) = 0)
    (hlink : ∀ i < n, link (a + i) = a + i + 1) : Linked link a (List.range' a (n + 1)) := by
  induction n generalizing a with
  | zero => exact ⟨rfl, ha, hlast⟩
  | succ n ih =>
    refine ⟨rfl, ha, ?_⟩
    rw [show link a = a + 1 from hlink 0 (Nat.succ_pos _)]
    refine ih (Nat.succ_ne_zero _) ?_ fun i hi => ?_
    · rw [Nat.add_assoc, Nat.add_comm 1]
      exact hlast
    · rw [Nat.add_assoc, Nat.add_comm 1, hlink (i + 1) (Nat.succ_lt_succ hi)]

theorem Linked.head (h : Linked link a l) : a = l.headD 0 := by
  cases l with
  | nil => exact h
  | cons b l => exact h.1

/-- The rest of a list from a position on. -/
theorem Linked.drop {i r : ℕ} (h : Linked link a l) (hi : l[i]? = some r) :
    Linked link r (l.drop i) := by
  induction i generalizing a l with
  | zero =>
    cases l with
    | nil => cases hi
    | cons b l =>
      obtain rfl : b = r := Option.some.inj hi
      exact ⟨rfl, h.2⟩
  | succ i ih =>
    cases l with
    | nil => cases hi
    | cons b l => exact ih h.2.2 hi

/-- The link of the last number of a part. -/
theorem Linked.link_last {y : ℕ} (h : Linked link a (l ++ l')) (hy : l.getLast? = some y) :
    link y = l'.headD 0 := by
  obtain ⟨l₁, rfl⟩ := List.getLast?_eq_some_iff.mp hy
  rw [List.append_assoc] at h
  exact h.suffix.2.2.head

/-- A number is put between two parts of a list. -/
theorem Linked.insert {x : ℕ} (h : Linked link a (l ++ l')) (hx : x ≠ 0)
    (hother : ∀ y ∈ l ++ l', l.getLast? ≠ some y → link' y = link y)
    (hlast : ∀ y, l.getLast? = some y → link' y = x) (hnew : link' x = l'.headD 0)
    (hnd : (l ++ l').Nodup) : Linked link' ((l ++ [x]).headD 0) (l ++ x :: l') := by
  induction l generalizing a with
  | nil =>
    refine ⟨rfl, hx, ?_⟩
    rw [hnew, ← Linked.head (show Linked link a l' from h)]
    exact Linked.congr (show Linked link a l' from h) fun y hy => hother y hy (by rintro ⟨⟩)
  | cons b l ih =>
    refine ⟨rfl, h.2.1, ?_⟩
    obtain ⟨hb, hnd'⟩ := List.nodup_cons.mp hnd
    by_cases hnil : l = []
    · subst hnil
      rw [hlast b rfl]
      refine ih h.2.2 (fun y hy _ => hother y (List.mem_cons_of_mem _ hy) ?_) (by rintro _ ⟨⟩) hnd'
      intro hyb
      obtain rfl : b = y := Option.some.inj hyb
      exact hb hy
    · have hl : (b :: l).getLast? = l.getLast? := List.getLast?_cons_of_ne_nil hnil
      have hne : ∀ y, l.getLast? = some y → y ∈ l ++ l' := fun y hy =>
        List.mem_append_left _ (List.mem_of_getLast? hy)
      have hlb : link' b = link b := by
        refine hother b List.mem_cons_self fun hyb => ?_
        rw [hl] at hyb
        exact hb (hne b hyb)
      rw [hlb]
      have := ih h.2.2 (fun y hy hyl => hother y (List.mem_cons_of_mem _ hy) (hl ▸ hyl))
        (fun y hy => hlast y (hl ▸ hy)) hnd'
      have hhead : link b = (l ++ [x]).headD 0 := by
        rw [Linked.head h.2.2]
        cases l with
        | nil => exact absurd rfl hnil
        | cons c l => rfl
      rw [hhead]
      exact this

/-- A number is taken out of a list. -/
theorem Linked.remove {x : ℕ} (h : Linked link a (l ++ x :: l'))
    (hother : ∀ y ∈ l ++ l', l.getLast? ≠ some y → link' y = link y)
    (hlast : ∀ y, l.getLast? = some y → link' y = l'.headD 0) :
    Linked link' ((l ++ l').headD 0) (l ++ l') := by
  have hnd := h.nodup
  induction l generalizing a with
  | nil =>
    obtain ⟨-, -, h⟩ := (show Linked link a (x :: l') from h)
    change Linked link' (l'.headD 0) l'
    rw [← h.head]
    exact h.congr fun y hy => hother y hy (by rintro ⟨⟩)
  | cons b l ih =>
    refine ⟨rfl, h.2.1, ?_⟩
    obtain ⟨hb, hnd'⟩ := List.nodup_cons.mp hnd
    by_cases hnil : l = []
    · subst hnil
      rw [hlast b rfl]
      refine ih h.2.2 (fun y hy _ => hother y (List.mem_cons_of_mem _ hy) ?_) (by rintro _ ⟨⟩) hnd'
      intro hyb
      obtain rfl : b = y := Option.some.inj hyb
      exact hb (List.mem_cons_of_mem _ hy)
    · have hl : (b :: l).getLast? = l.getLast? := List.getLast?_cons_of_ne_nil hnil
      have hlb : link' b = link b := by
        refine hother b List.mem_cons_self fun hyb => ?_
        rw [hl] at hyb
        exact hb (List.mem_append_left _ (List.mem_of_getLast? hyb))
      rw [hlb]
      have := ih h.2.2 (fun y hy hyl => hother y (List.mem_cons_of_mem _ hy) (hl ▸ hyl))
        (fun y hy => hlast y (hl ▸ hy)) hnd'
      have hhead : link b = (l ++ l').headD 0 := by
        rw [Linked.head h.2.2]
        cases l with
        | nil => exact absurd rfl hnil
        | cons c l => rfl
      rw [hhead]
      exact this

/-- A list is cut behind a part. -/
theorem Linked.cut (h : Linked link a (l ++ l')) (hother : ∀ y ∈ l, l.getLast? ≠ some y → link' y = link y)
    (hlast : ∀ y, l.getLast? = some y → link' y = 0) (hne : l ≠ []) (hnd : l.Nodup) : Linked link' a l := by
  induction l generalizing a with
  | nil => exact absurd rfl hne
  | cons b l ih =>
    refine ⟨h.1, h.2.1, ?_⟩
    obtain ⟨hb, hnd'⟩ := List.nodup_cons.mp hnd
    cases l with
    | nil => exact hlast b rfl
    | cons c l =>
      have hl : (b :: c :: l).getLast? = (c :: l).getLast? := List.getLast?_cons_of_ne_nil (List.cons_ne_nil c l)
      have hlb : link' b = link b := by
        refine hother b List.mem_cons_self fun hyb => ?_
        rw [hl] at hyb
        exact hb (List.mem_of_getLast? hyb)
      rw [hlb]
      exact ih h.2.2 (fun y hy hyl => hother y (List.mem_cons_of_mem _ hy) (hl ▸ hyl))
        (fun y hy => hlast y (hl ▸ hy)) (List.cons_ne_nil c l) hnd'

end RSX280.Numbered
