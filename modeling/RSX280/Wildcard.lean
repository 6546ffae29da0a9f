import Mathlib.Data.List.Forall2
import Mathlib.Data.List.Infix
import Mathlib.Tactic.Common
import Mathlib.Tactic.TypeStar

/-!
# Wildcards

A pattern is a string with two special characters: `any` stands for one character, and `star` for any
number of them (`Matches`). A matcher that looks only at one `star` when the string has ended takes
several of them at the end of a pattern for at least one character: that is the pattern `strict p`.
-/

namespace RSX280.Wildcard

variable {α : Type*} {any star : α} {p q r s t u : List α} {c x : α}

/-- The string `s` matches the pattern `p`. -/
inductive Matches (any star : α) : List α → List α → Prop
  /-- nothing is left -/
  | nil : Matches any star [] []
  /-- any one character -/
  | one {p s : List α} (x : α) : Matches any star p s → Matches any star (any :: p) (x :: s)
  /-- any number of characters -/
  | many {p s : List α} (t : List α) : Matches any star p s → Matches any star (star :: p) (t ++ s)
  /-- a character for itself -/
  | char {c : α} {p s : List α} : c ≠ any → c ≠ star → Matches any star p s →
    Matches any star (c :: p) (c :: s)

theorem matches_nil : Matches any star [] s ↔ s = [] := by
  constructor
  · intro h
    cases h
    rfl
  · rintro rfl
    exact .nil

theorem matches_star (hd : any ≠ star) :
    Matches any star (star :: p) s ↔ ∃ t, t <:+ s ∧ Matches any star p t := by
  constructor
  · intro h
    cases h with
    | one => exact absurd rfl hd
    | many t h => exact ⟨_, List.suffix_append _ _, h⟩
    | char _ h' => exact absurd rfl h'
  · rintro ⟨t, ⟨u, rfl⟩, h⟩
    exact h.many u

/-- One character of the pattern is for one of the string. -/
def Fits (any star c x : α) : Prop := c ≠ star ∧ (c = any ∨ c = x)

theorem matches_cons (hc : c ≠ star) : Matches any star (c :: p) s ↔
    ∃ x t, s = x :: t ∧ Fits any star c x ∧ Matches any star p t := by
  constructor
  · intro h
    cases h with
    | one x h => exact ⟨x, _, rfl, ⟨hc, Or.inl rfl⟩, h⟩
    | many => exact absurd rfl hc
    | char _ _ h => exact ⟨c, _, rfl, ⟨hc, Or.inr rfl⟩, h⟩
  · rintro ⟨x, t, rfl, ⟨-, fits⟩, h⟩
    by_cases ha : c = any
    · subst ha
      exact h.one x
    · obtain rfl := fits.resolve_left ha
      exact h.char ha hc

/-- A part of the pattern without `star`, and the characters it is for. -/
abbrev Aligned (any star : α) (q u : List α) : Prop := List.Forall₂ (Fits any star) q u

theorem Aligned.no_star (h : Aligned any star q u) : ∀ d ∈ q, d ≠ star := by
  induction h with
  | nil => exact fun d hd => absurd hd List.not_mem_nil
  | cons fits _ ih =>
    intro d hd
    rcases List.mem_cons.mp hd with rfl | hd
    · exact fits.1
    · exact ih d hd

/-! ### The end of a pattern -/

section

variable [DecidableEq α]

/-- Several `star` at the end of a pattern are for at least one character. -/
def strict (any star : α) : List α → List α
  | [] => []
  | c :: p => if c = star ∧ p ≠ [] ∧ ∀ d ∈ p, d = star then [any, star] else c :: strict any star p

theorem strict_cons (hc : c ≠ star) : strict any star (c :: p) = c :: strict any star p :=
  if_neg fun h => hc h.1

theorem strict_single : strict any star [star] = [star] := if_neg fun h => h.2.1 rfl

theorem strict_stars (hp : p ≠ []) (h : ∀ d ∈ p, d = star) : strict any star (star :: p) = [any, star] :=
  if_pos ⟨rfl, hp, h⟩

theorem strict_star (h : ¬∀ d ∈ p, d = star) :
    strict any star (star :: p) = star :: strict any star p :=
  if_neg fun hp => h hp.2.2

/-- The string matches, with several `star` at the end of the pattern for at least one character. -/
def Strictly (any star : α) (p s : List α) : Prop := Matches any star (strict any star p) s

theorem strictly_nil : Strictly any star [] s ↔ s = [] := matches_nil

theorem strictly_cons (hc : c ≠ star) : Strictly any star (c :: p) s ↔
    ∃ x t, s = x :: t ∧ Fits any star c x ∧ Strictly any star p t := by
  rw [Strictly, strict_cons hc, matches_cons hc]
  rfl

theorem strictly_single (s : List α) : Strictly any star [star] s := by
  rw [Strictly, strict_single]
  exact List.append_nil s ▸ Matches.nil.many s

theorem strictly_stars (hd : any ≠ star) (hp : p ≠ []) (h : ∀ d ∈ p, d = star) :
    Strictly any star (star :: p) s ↔ s ≠ [] := by
  rw [Strictly, strict_stars hp h, matches_cons hd]
  constructor
  · rintro ⟨x, t, rfl, -, -⟩
    exact List.cons_ne_nil x t
  · intro hs
    obtain ⟨x, t, rfl⟩ := List.exists_cons_of_ne_nil hs
    exact ⟨x, t, rfl, ⟨hd, Or.inl rfl⟩, List.append_nil t ▸ Matches.nil.many t⟩

/-- Nothing is left of the string. -/
theorem strictly_end (hd : any ≠ star) : Strictly any star p [] ↔ p = [] ∨ p = [star] := by
  induction p with
  | nil => exact iff_of_true (strictly_nil.mpr rfl) (Or.inl rfl)
  | cons c p ih =>
    by_cases hc : c = star
    · subst hc
      rcases eq_or_ne p [] with rfl | hp
      · exact iff_of_true (strictly_single []) (Or.inr rfl)
      · have more : ¬(c :: p = [] ∨ c :: p = [c]) := by simp [hp]
        refine iff_of_false (fun h => ?_) more
        by_cases stars : ∀ d ∈ p, d = c
        · exact (strictly_stars hd hp stars).mp h rfl
        · rw [Strictly, strict_star stars, matches_star hd] at h
          obtain ⟨t, ht, h⟩ := h
          obtain rfl := List.suffix_nil.mp ht
          rcases ih.mp h with rfl | rfl
          · exact hp rfl
          · exact stars fun d => List.mem_singleton.mp
    · rw [strictly_cons hc]
      simp [hc]

/-- More follows behind the `star`: that is found at some place of the string. -/
theorem strictly_star (hd : any ≠ star) (hp : p ≠ []) : Strictly any star (star :: p) s ↔
    ∃ t, t <:+ s ∧ t ≠ [] ∧ Strictly any star p t := by
  by_cases stars : ∀ d ∈ p, d = star
  · rw [strictly_stars hd hp stars]
    constructor
    · intro hs
      refine ⟨s, List.suffix_refl s, hs, ?_⟩
      obtain ⟨c, q, rfl⟩ := List.exists_cons_of_ne_nil hp
      obtain rfl := stars c List.mem_cons_self
      rcases eq_or_ne q [] with rfl | hq
      · exact strictly_single s
      · exact (strictly_stars hd hq fun d hd => stars d (List.mem_cons_of_mem _ hd)).mpr hs
    · rintro ⟨t, ht, ht', -⟩ rfl
      exact ht' (List.suffix_nil.mp ht)
  · rw [Strictly, strict_star stars, matches_star hd]
    constructor
    · rintro ⟨t, ht, h⟩
      refine ⟨t, ht, ?_, h⟩
      rintro rfl
      rcases (strictly_end hd).mp h with rfl | rfl
      · exact hp rfl
      · exact stars fun d => List.mem_singleton.mp
    · rintro ⟨t, ht, -, h⟩
      exact ⟨t, ht, h⟩

/-- A string that matches the stricter pattern matches the pattern itself. -/
theorem Strictly.matches (hd : any ≠ star) (h : Strictly any star p s) : Matches any star p s := by
  induction p generalizing s with
  | nil => exact h
  | cons c p ih =>
    by_cases hc : c = star
    · subst hc
      rcases eq_or_ne p [] with rfl | hp
      · rwa [Strictly, strict_single] at h
      · obtain ⟨t, ht, -, h⟩ := (strictly_star hd hp).mp h
        exact (matches_star hd).mpr ⟨t, ht, ih h⟩
    · obtain ⟨x, t, rfl, fits, h⟩ := (strictly_cons hc).mp h
      exact (matches_cons hc).mpr ⟨x, t, rfl, fits, ih h⟩

/-- A pattern that does not end with two `star` is as strict as it can be. -/
theorem strict_eq_self (h : ¬[star, star] <:+ p) : strict any star p = p := by
  induction p with
  | nil => rfl
  | cons c p ih =>
    have rest : ¬[star, star] <:+ p := fun hp => h (hp.trans (List.suffix_cons c p))
    rw [strict, if_neg, ih rest]
    rintro ⟨rfl, hp, stars⟩
    obtain ⟨n, hn⟩ : ∃ n, p.length = n + 1 := Nat.exists_eq_succ_of_ne_zero fun e =>
      hp (List.length_eq_zero_iff.mp e)
    refine h ⟨List.replicate n c, ?_⟩
    rw [List.eq_replicate_iff.mpr ⟨hn, stars⟩, ← List.replicate_succ]
    exact List.replicate_append_replicate (a := c) (n := n) (m := 2)

/-! ### The part between two `star` -/

theorem strictly_append (h : ∀ d ∈ q, d ≠ star) : Strictly any star (q ++ p) s ↔
    ∃ u t, s = u ++ t ∧ Aligned any star q u ∧ Strictly any star p t := by
  induction q generalizing s with
  | nil =>
    constructor
    · exact fun h => ⟨[], s, rfl, .nil, h⟩
    · rintro ⟨u, t, rfl, a, h⟩
      cases a
      exact h
  | cons c q ih =>
    have rest : ∀ d ∈ q, d ≠ star := fun d hd => h d (List.mem_cons_of_mem c hd)
    rw [List.cons_append, strictly_cons (h c List.mem_cons_self)]
    constructor
    · rintro ⟨x, s, rfl, fits, h⟩
      obtain ⟨u, t, rfl, a, h⟩ := (ih rest).mp h
      exact ⟨x :: u, t, rfl, .cons fits a, h⟩
    · rintro ⟨u, t, rfl, a, h⟩
      cases a with
      | cons fits a => exact ⟨_, _, rfl, fits, (ih rest).mpr ⟨_, t, rfl, a, h⟩⟩

/-- The part that is aligned with the string is taken off. -/
theorem strictly_aligned (h : Aligned any star q u) :
    Strictly any star (q ++ p) (u ++ t) ↔ Strictly any star p t := by
  rw [strictly_append h.no_star]
  constructor
  · rintro ⟨u', t', e, a, h'⟩
    have len : u.length = u'.length := h.length_eq.symm.trans a.length_eq
    rwa [(List.append_inj e len).2]
  · exact fun h' => ⟨u, t, rfl, h, h'⟩

/-- The first place where the part between two `star` fits is as good as any. -/
theorem strictly_skip (hd : any ≠ star) (h : Aligned any star q u) :
    Strictly any star (star :: (q ++ star :: r)) (u ++ t) ↔
      Strictly any star (star :: r) t ∧ u ++ t ≠ [] := by
  rw [strictly_star hd (List.append_ne_nil_of_right_ne_nil _ (List.cons_ne_nil _ _))]
  constructor
  · rintro ⟨s, hs, hne, hm⟩
    have whole : u ++ t ≠ [] := fun e => hne (List.suffix_nil.mp (e ▸ hs))
    refine ⟨?_, whole⟩
    obtain ⟨u', t', rfl, a, h'⟩ := (strictly_append h.no_star).mp hm
    have len : u.length = u'.length := h.length_eq.symm.trans a.length_eq
    rcases eq_or_ne r [] with rfl | hr
    · exact strictly_single t
    · obtain ⟨v, hv, hne', h'⟩ := (strictly_star hd hr).mp h'
      have shorter : t'.length ≤ t.length := by
        have := hs.length_le
        rw [List.length_append, List.length_append] at this
        omega
      have inside : t' <:+ t :=
        List.suffix_of_suffix_length_le ((List.suffix_append u' t').trans hs)
          (List.suffix_append u t) shorter
      exact (strictly_star hd hr).mpr ⟨v, hv.trans inside, hne', h'⟩
  · rintro ⟨h', hne⟩
    exact ⟨u ++ t, List.suffix_refl _, hne, (strictly_aligned h).mpr h'⟩

/-- The part does not fit here, so the string is taken from its next character on. -/
theorem strictly_retry (hd : any ≠ star) (hp : p ≠ []) (h : ¬Strictly any star p (x :: s)) :
    Strictly any star (star :: p) (x :: s) ↔ Strictly any star (star :: p) s := by
  rw [strictly_star hd hp, strictly_star hd hp]
  constructor
  · rintro ⟨t, ht, hne, h'⟩
    rcases List.suffix_cons_iff.mp ht with rfl | ht
    · exact absurd h' h
    · exact ⟨t, ht, hne, h'⟩
  · rintro ⟨t, ht, hne, h'⟩
    exact ⟨t, ht.trans (List.suffix_cons x s), hne, h'⟩

/-- The string has ended before the part has: there is no room for it at a later place. -/
theorem strictly_short (hd : any ≠ star) (h : Aligned any star q u) (hne : u ≠ []) :
    Strictly any star (star :: (q ++ r)) u ↔ r = [] ∨ r = [star] := by
  have hq : q ≠ [] := by
    rintro rfl
    cases h
    exact hne rfl
  rw [strictly_star hd (List.append_ne_nil_of_left_ne_nil hq _), ← strictly_end hd]
  constructor
  · rintro ⟨s, hs, -, hm⟩
    obtain ⟨u', t', rfl, a, h'⟩ := (strictly_append h.no_star).mp hm
    have len : u.length = u'.length := h.length_eq.symm.trans a.length_eq
    have := hs.length_le
    rw [List.length_append] at this
    obtain rfl : t' = [] := List.length_eq_zero_iff.mp (by omega)
    exact h'
  · intro h'
    have whole := (strictly_aligned h).mpr h'
    rw [List.append_nil] at whole
    exact ⟨u, List.suffix_refl u, hne, whole⟩

end

end RSX280.Wildcard
