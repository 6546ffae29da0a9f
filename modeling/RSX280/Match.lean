import RSX280.Memory
import RSX280.Wildcard

/-!
# Wildcards in names

`MATCH` of the file programs and of the librarian compares a string with a pattern, and goes back to
the last `*` when they differ. It returns the result of `strict` patterns (`match_spec`), so it is
right unless the pattern ends with several `*`.
-/

namespace RSX280.Match

open Wildcard

/-- `'%'`: it matches a single character. -/
def percent : UInt8 := 37

/-- `'*'`: it matches zero or more characters. -/
def asterisk : UInt8 := 42

/-- The next address. -/
def inc (a : ℕ) : ℕ := (a + 1) % 65536

/-- The registers and the two variables. -/
structure Regs where
  /-- star flag: 0 if star seen, 1 otherwise -/
  c : ℕ
  str : ℕ
  pat : ℕ
  de : ℕ
  hl : ℕ

/-- `next` -/
def next (r : Regs) : Regs := { r with de := inc r.de, hl := inc r.hl }

/-- `eloop`: the flag Z at the end of the string. -/
def eloop (m : Mem) (r : Regs) : Bool :=
  if m r.hl = asterisk then m (inc r.hl) = 0 else m r.hl = 0

/-- `other`, when the two characters differ. -/
def differ (r : Regs) : Regs ⊕ Bool :=
  if r.c ≠ 0 then .inr false
  else .inl { r with str := inc r.str, de := inc r.str, hl := r.pat }

/-- From `loop` to the next jump to it, or to the return with the flag Z. -/
def loop (m : Mem) (r : Regs) : Regs ⊕ Bool :=
  if m r.de = 0 then .inr (eloop m r)
  else if m r.hl = percent then .inl (next r)
  else if m r.hl = asterisk then
    if m (inc r.hl) = 0 then .inr true
    else .inl { c := 0, str := r.de, pat := inc r.hl, de := r.de, hl := inc r.hl }
  else if m r.de = m r.hl then .inl (next r)
  else differ r

/-- At most `n` rounds of the loop. -/
def run (m : Mem) : ℕ → Regs → Option Bool
  | 0, _ => none
  | n + 1, r =>
    match loop m r with
    | .inl r => run m n r
    | .inr z => some z

/-- `MATCH`: the string is at `de`, the pattern at `hl`. -/
def matchStart (de hl : ℕ) : Regs := { c := 1, str := de, pat := hl, de, hl }

/-- `MATCH` returns with the flag Z equal to `z`. -/
def Returns (m : Mem) (r : Regs) (z : Bool) : Prop := ∃ n, ∀ k, n ≤ k → run m k r = some z

theorem Returns.step {m : Mem} {r r' : Regs} {z : Bool} (h : loop m r = .inl r') (hr : Returns m r' z) :
    Returns m r z := by
  obtain ⟨n, hn⟩ := hr
  refine ⟨n + 1, fun k hk => ?_⟩
  obtain ⟨k, rfl⟩ := Nat.exists_eq_add_of_le' (Nat.le_of_add_left_le hk)
  rw [run, h]
  exact hn k (by omega)

theorem Returns.now {m : Mem} {r : Regs} {z : Bool} (h : loop m r = .inr z) : Returns m r z := by
  refine ⟨1, fun k hk => ?_⟩
  obtain ⟨k, rfl⟩ := Nat.exists_eq_add_of_le' hk
  rw [run, h]

/-! ### Strings -/

/-- The zero-terminated string `l` is at `a`. -/
def Str (m : Mem) (a : ℕ) : List UInt8 → Prop
  | [] => m a = 0
  | x :: l => m a = x ∧ x ≠ 0 ∧ Str m (inc a) l

variable {m : Mem} {a : ℕ} {l : List UInt8}

theorem Str.nil_of_zero (h : Str m a l) (hz : m a = 0) : l = [] := by
  cases l with
  | nil => rfl
  | cons x l => exact absurd (h.1.symm.trans hz) h.2.1

theorem Str.cons_of_ne (h : Str m a l) (hz : m a ≠ 0) : ∃ l', l = m a :: l' ∧ Str m (inc a) l' := by
  cases l with
  | nil => exact absurd h hz
  | cons x l =>
    obtain ⟨rfl, -, h⟩ := h
    exact ⟨l, rfl, h⟩

/-- The strings that the registers point to; the parts `q` and `u` from the last `*` on have been
compared. -/
structure Points (m : Mem) (r : Regs) (q u p s : List UInt8) : Prop where
  str : Str m r.str (u ++ s)
  pat : Str m r.pat (q ++ p)
  de : Str m r.de s
  hl : Str m r.hl p
  aligned : Aligned percent asterisk q u

/-- Whether the string matches, when the part behind the last `*` is compared. -/
def Wanted (r : Regs) (q u p s : List UInt8) : Prop :=
  if r.c = 0 then Strictly percent asterisk (asterisk :: (q ++ p)) (u ++ s)
  else Strictly percent asterisk (q ++ p) (u ++ s)

/-- Behind a `*` the pattern goes on; when it does so with another `*`, there is still a character. -/
structure Starred (q u p s : List UInt8) : Prop where
  more : q ++ p ≠ []
  fresh : u ++ s = [] → ∀ r, q ++ p ≠ asterisk :: r

theorem percent_ne : percent ≠ asterisk := by decide

variable {r : Regs} {q u p s : List UInt8} {c x : UInt8}

/-! ### The steps -/

/-- The characters at the pointers are compared. -/
theorem Points.next (h : Points m r q u (c :: p) (x :: s)) (fits : Fits percent asterisk c x) :
    Points m (Match.next r) (q ++ [c]) (u ++ [x]) p s where
  str := by simpa [Match.next] using h.str
  pat := by simpa [Match.next] using h.pat
  de := h.de.2.2
  hl := h.hl.2.2
  aligned := List.rel_append h.aligned (.cons fits .nil)

theorem wanted_next : Wanted (next r) (q ++ [c]) (u ++ [x]) p s ↔ Wanted r q u (c :: p) (x :: s) := by
  simp only [Wanted, next, List.append_assoc, List.singleton_append]

theorem starred_next : Starred (q ++ [c]) (u ++ [x]) p s where
  more := by simp
  fresh := by simp

/-- The string is compared again from the next character on. -/
theorem Points.retry (h : Points m r q u p (x :: s)) : ∃ y t, u ++ x :: s = y :: t ∧
    Points m { r with str := inc r.str, de := inc r.str, hl := r.pat } [] [] (q ++ p) t := by
  obtain ⟨y, t, e⟩ := List.exists_cons_of_ne_nil
    (List.append_ne_nil_of_right_ne_nil u (List.cons_ne_nil x s))
  have hs := h.str
  rw [e] at hs
  exact ⟨y, t, e, hs.2.2, h.pat, hs.2.2, h.pat, .nil⟩

/-- A part that starts with a `*` was not compared. -/
theorem Points.starless (h : Points m r q u (c :: p) s) (hc : c ≠ asterisk) (l : List UInt8) :
    q ++ c :: p ≠ asterisk :: l := by
  intro e
  cases q with
  | nil => exact hc (List.cons.inj e).1
  | cons d q => exact h.aligned.no_star d List.mem_cons_self (List.cons.inj e).1

/-- The part behind the next `*` is to be found. -/
theorem Points.star (h : Points m r q u (asterisk :: p) (x :: s)) :
    Points m { c := 0, str := r.de, pat := inc r.hl, de := r.de, hl := inc r.hl } [] [] p (x :: s) :=
  ⟨h.de, h.hl.2.2, h.de, h.hl.2.2, .nil⟩

theorem wanted_star (h : Points m r q u (asterisk :: p) (x :: s)) :
    Wanted r q u (asterisk :: p) (x :: s) ↔ Strictly percent asterisk (asterisk :: p) (x :: s) := by
  rw [Wanted]
  split
  · rw [strictly_skip percent_ne h.aligned]
    exact and_iff_left (List.append_ne_nil_of_right_ne_nil u (List.cons_ne_nil x s))
  · exact strictly_aligned h.aligned

/-- The characters differ, so the part does not fit here. -/
theorem not_fits (hc : c ≠ asterisk) (hp : c ≠ percent) (hx : x ≠ c) :
    ¬Strictly percent asterisk (c :: p) (x :: s) := by
  intro h
  obtain ⟨x', t, e, fits, -⟩ := (strictly_cons hc).mp h
  obtain ⟨rfl, -⟩ := List.cons.inj e
  exact fits.2.elim hp fun e => hx e.symm

theorem Str.zero_iff (h : Str m a l) : m a = 0 ↔ l = [] := by
  refine ⟨h.nil_of_zero, ?_⟩
  rintro rfl
  exact h

/-- The end of the string: one `*` may be left. -/
theorem eloop_iff (h : Str m r.hl p) : eloop m r = true ↔ p = [] ∨ p = [asterisk] := by
  rw [eloop]
  cases p with
  | nil =>
    have zero : m r.hl = 0 := h
    rw [zero]
    exact iff_of_true rfl (Or.inl rfl)
  | cons c p =>
    obtain ⟨hc, hz, hp⟩ := h
    rw [hc]
    split
    · next star =>
      rw [decide_eq_true_iff, hp.zero_iff, star]
      simp
    · next other =>
      rw [decide_eq_true_iff]
      simp [hz, other]

theorem eloop_spec (h : Points m r q u p []) (hz : r.c = 0 → Starred q u p []) :
    eloop m r = true ↔ Wanted r q u p [] := by
  rw [eloop_iff h.hl, Wanted, List.append_nil]
  split
  · next hc =>
    rcases eq_or_ne u [] with rfl | hu
    · cases h.aligned
      -- the part was not compared, and it is not there
      have more : p ≠ [] := (hz hc).more
      have fresh : p ≠ [asterisk] := (hz hc).fresh rfl []
      refine iff_of_false (fun e => e.elim more fresh) fun found => ?_
      obtain ⟨t, ht, hne, -⟩ := (strictly_star percent_ne more).mp found
      exact hne (List.suffix_nil.mp ht)
    · exact (strictly_short percent_ne h.aligned hu).symm
  · have whole := strictly_aligned (p := p) (t := []) h.aligned
    rw [List.append_nil] at whole
    rw [whole, strictly_end percent_ne]

/-! ### All steps -/

/-- What is left to do: of the pattern, of the string behind the last `*`, and of the comparison. -/
def rank (q u p s : List UInt8) : ℕ × ℕ × ℕ := ((q ++ p).length, (u ++ s).length, s.length)

/-- One is done when the other is done or the matcher has gone on. -/
def Before : ℕ × ℕ × ℕ → ℕ × ℕ × ℕ → Prop := Prod.Lex (· < ·) (Prod.Lex (· < ·) (· < ·))

/-- The matcher goes on, and what is wanted is the same. -/
def Goes (m : Mem) (r r' : Regs) (q u p s : List UInt8) : Prop :=
  ∃ q' u' p' s', Points m r' q' u' p' s' ∧ (r'.c = 0 → Starred q' u' p' s') ∧
    (Wanted r' q' u' p' s' ↔ Wanted r q u p s) ∧ Before (rank q' u' p' s') (rank q u p s)

theorem goes_next (h : Points m r q u (c :: p) (x :: s)) (fits : Fits percent asterisk c x) :
    Goes m r (next r) q u (c :: p) (x :: s) := by
  refine ⟨q ++ [c], u ++ [x], p, s, h.next fits, fun _ => starred_next, wanted_next, ?_⟩
  simp only [rank, List.append_assoc, List.singleton_append]
  exact Prod.Lex.right _ (Prod.Lex.right _ (Nat.lt_succ_self _))

theorem goes_star (h : Points m r q u (asterisk :: p) (x :: s)) (hp : p ≠ []) :
    Goes m r { c := 0, str := r.de, pat := inc r.hl, de := r.de, hl := inc r.hl } q u (asterisk :: p)
      (x :: s) := by
  refine ⟨[], [], p, x :: s, h.star, fun _ => ⟨hp, fun e => ?_⟩, (wanted_star h).symm, Prod.Lex.left _ _ ?_⟩
  · cases e
  · rw [List.nil_append, List.length_append, List.length_cons]
    omega

/-- The characters differ: the matcher returns, or goes back to the last `*`. -/
theorem differ_spec (h : Points m r q u p (x :: s)) (hz : r.c = 0 → Starred q u p (x :: s))
    (hp : ¬Strictly percent asterisk p (x :: s)) (hq : ∀ l, q ++ p ≠ asterisk :: l) :
    (∃ z, differ r = .inr z ∧ (z = true ↔ Wanted r q u p (x :: s))) ∨
      ∃ r', differ r = .inl r' ∧ Goes m r r' q u p (x :: s) := by
  have unfit : ¬Strictly percent asterisk (q ++ p) (u ++ x :: s) :=
    fun h' => hp ((strictly_aligned h.aligned).mp h')
  rw [differ]
  by_cases hc : r.c = 0
  · obtain ⟨y, t, e, back⟩ := h.retry
    rw [if_neg (not_not.mpr hc)]
    refine Or.inr ⟨_, rfl, [], [], q ++ p, t, back, fun _ => ⟨(hz hc).more, fun _ => hq⟩, ?_, ?_⟩
    · rw [Wanted, Wanted, if_pos hc, if_pos hc, e]
      exact (strictly_retry percent_ne (hz hc).more (e ▸ unfit)).symm
    · rw [rank, rank, e]
      exact Prod.Lex.right _ (Prod.Lex.left _ _ (Nat.lt_succ_self _))
  · rw [if_pos hc]
    refine Or.inl ⟨false, rfl, iff_of_false Bool.false_ne_true ?_⟩
    rwa [Wanted, if_neg hc]

/-- One round of the loop. -/
theorem loop_spec (h : Points m r q u p s) (hz : r.c = 0 → Starred q u p s) :
    (∃ z, loop m r = .inr z ∧ (z = true ↔ Wanted r q u p s)) ∨
      ∃ r', loop m r = .inl r' ∧ Goes m r r' q u p s := by
  rw [loop]
  by_cases ended : m r.de = 0
  · obtain rfl := h.de.nil_of_zero ended
    rw [if_pos ended]
    exact Or.inl ⟨_, rfl, eloop_spec h hz⟩
  obtain ⟨s, rfl, -⟩ := h.de.cons_of_ne ended
  rw [if_neg ended]
  cases p with
  | nil =>
    have zero : m r.hl = 0 := h.hl
    rw [zero, if_neg (by decide), if_neg (by decide), if_neg ended]
    refine differ_spec h hz (fun e => List.cons_ne_nil _ _ (strictly_nil.mp e)) fun l e => ?_
    rw [List.append_nil] at e
    exact h.aligned.no_star asterisk (e ▸ List.mem_cons_self) rfl
  | cons c p =>
    rw [h.hl.1]
    by_cases hp : c = percent
    · rw [if_pos hp]
      exact Or.inr ⟨_, rfl, goes_next h ⟨fun e => percent_ne (hp.symm.trans e), Or.inl hp⟩⟩
    rw [if_neg hp]
    by_cases hs : c = asterisk
    · subst hs
      rw [if_pos rfl]
      by_cases last : m (inc r.hl) = 0
      · obtain rfl := h.hl.2.2.nil_of_zero last
        rw [if_pos last]
        exact Or.inl ⟨true, rfl, iff_of_true rfl ((wanted_star h).mpr (strictly_single _))⟩
      · rw [if_neg last]
        exact Or.inr ⟨_, rfl, goes_star h fun e => last (h.hl.2.2.zero_iff.mpr e)⟩
    rw [if_neg hs]
    by_cases same : m r.de = c
    · rw [if_pos same]
      exact Or.inr ⟨_, rfl, goes_next h ⟨hs, Or.inr same.symm⟩⟩
    · rw [if_neg same]
      exact differ_spec h hz (not_fits hs hp same) (h.starless hs)

/-- The matcher returns, and its flag says what is wanted. -/
theorem returns_spec (r : Regs) (q u p s : List UInt8) (h : Points m r q u p s)
    (hz : r.c = 0 → Starred q u p s) : ∃ z, Returns m r z ∧ (z = true ↔ Wanted r q u p s) := by
  rcases loop_spec h hz with ⟨z, hl, hw⟩ | ⟨r', hl, q', u', p', s', h', hz', hw, before⟩
  · exact ⟨z, Returns.now hl, hw⟩
  · obtain ⟨z, hr, hz⟩ := returns_spec r' q' u' p' s' h' hz'
    exact ⟨z, hr.step hl, hz.trans hw⟩
termination_by rank q u p s
decreasing_by exact before

/-- `MATCH` returns the result of the stricter pattern. -/
theorem match_spec {de hl : ℕ} (hs : Str m de s) (hp : Str m hl p) :
    ∃ z, Returns m (matchStart de hl) z ∧ (z = true ↔ Strictly percent asterisk p s) :=
  returns_spec (matchStart de hl) [] [] p s ⟨hs, hp, hs, hp, .nil⟩ fun h => absurd h Nat.one_ne_zero

/-- It is right about a pattern that does not end with two `*`. -/
theorem match_of_not_suffix {de hl : ℕ} (hs : Str m de s) (hp : Str m hl p)
    (h : ¬[asterisk, asterisk] <:+ p) :
    ∃ z, Returns m (matchStart de hl) z ∧ (z = true ↔ Matches percent asterisk p s) := by
  obtain ⟨z, hr, hz⟩ := match_spec hs hp
  rw [Strictly, strict_eq_self h] at hz
  exact ⟨z, hr, hz⟩

theorem Returns.unique {r : Regs} {z z' : Bool} (h : Returns m r z) (h' : Returns m r z') : z = z' := by
  obtain ⟨n, hn⟩ := h
  obtain ⟨n', hn'⟩ := h'
  have same := (hn (max n n') (le_max_left n n')).symm.trans (hn' (max n n') (le_max_right n n'))
  exact Option.some.inj same

/-- **Wildcards**: `MATCH` returns, and it is right exactly when the string does not match, or matches
also when several `*` at the end of the pattern are taken for at least one character. -/
theorem match_right_iff {de hl : ℕ} (hs : Str m de s) (hp : Str m hl p) :
    (∃ z, Returns m (matchStart de hl) z) ∧
      ((∃ z, Returns m (matchStart de hl) z ∧ (z = true ↔ Matches percent asterisk p s)) ↔
        (Matches percent asterisk p s → Strictly percent asterisk p s)) := by
  obtain ⟨z, hr, hz⟩ := match_spec hs hp
  refine ⟨⟨z, hr⟩, ?_, ?_⟩
  · rintro ⟨z', hr', hz'⟩ hm
    rw [hr.unique hr'] at hz
    exact hz.mp (hz'.mpr hm)
  · intro h
    exact ⟨z, hr, hz.trans ⟨fun hm => hm.matches percent_ne, h⟩⟩

/-- The string `AXBY`, and behind it the pattern `A*B%`. -/
def axby : Mem := fun a => [65, 88, 66, 89, 0, 65, 42, 66, 37, 0].getD a 0

theorem match_right_axby : (∃ z, Returns axby (matchStart 0 5) z) ∧
    ((∃ z, Returns axby (matchStart 0 5) z ∧
        (z = true ↔ Matches percent asterisk [65, 42, 66, 37] [65, 88, 66, 89])) ↔
      (Matches percent asterisk [65, 42, 66, 37] [65, 88, 66, 89] →
        Strictly percent asterisk [65, 42, 66, 37] [65, 88, 66, 89])) :=
  match_right_iff (by simp [Str, inc, axby]) (by simp [Str, inc, axby])

/-- The string `AB`, and behind it the pattern `AB**`. -/
def doubled : Mem := fun a => [65, 66, 0, 65, 66, 42, 42, 0].getD a 0

/-- `AB**` matches `AB`, but `MATCH` says that it does not. -/
theorem doubled_missed : Str doubled 0 [65, 66] ∧ Str doubled 3 [65, 66, 42, 42] ∧
    ¬∃ z, Returns doubled (matchStart 0 3) z ∧
      (z = true ↔ Matches percent asterisk [65, 66, 42, 42] [65, 66]) := by
  have hs : Str doubled 0 [65, 66] := by simp [Str, inc, doubled]
  have hp : Str doubled 3 [65, 66, 42, 42] := by simp [Str, inc, doubled]
  refine ⟨hs, hp, ?_⟩
  rintro ⟨z, hr, hz⟩
  obtain ⟨z', hr', hz'⟩ := match_spec hs hp
  have found : Matches percent asterisk [65, 66, 42, 42] [65, 66] :=
    .char (by decide) (by decide) (.char (by decide) (by decide) (.many [] (.many [] .nil)))
  obtain ⟨x, t, e, -, h⟩ := (strictly_cons (by decide)).mp (hz'.mp (hr.unique hr' ▸ hz.mpr found))
  obtain ⟨-, rfl⟩ := List.cons.inj e
  obtain ⟨x, t, e, -, h⟩ := (strictly_cons (by decide)).mp h
  obtain ⟨-, rfl⟩ := List.cons.inj e
  exact absurd ((strictly_end percent_ne).mp h) (by decide)

end RSX280.Match
