import RSX280.Icp
import Mathlib.Data.List.Basic

/-!
# The text of an expression

An expression is a line of decimal numbers, numeric variables, operators and brackets, up to a blank
or to one of `[`, `:` and `]`. Blanks may stand before it, and behind a left bracket. The scanner finds
the symbols one after the other (`next_spec`).
-/

namespace RSX280.Icp

/-- The symbols of an expression: a number may be written, or the value of a variable. -/
inductive Tok
  | num (n : ℕ)
  | op (o : Op)
  deriving DecidableEq

/-- The decimal number `n` is continued by some digits. -/
def decimal (n : ℕ) (ds : Line) : ℕ := ds.foldl (fun n c => 10 * n + (c - 48)) n

/-- What `VNAME` keeps of a name. -/
def stored (name : Line) : Line := (name.take 12).map UCASE

/-- A name: a letter, `$` or `_`, and then digits, too. -/
structure Name (name : Line) : Prop where
  first : ∀ c ∈ name.head?, isvs c = true
  some : name ≠ []
  chars : ∀ c ∈ name, isvok c = true

/-- The rest of a line goes on with another character. -/
def Apart (p : ℕ → Bool) (rest : Line) : Prop := ∀ c ∈ rest.head?, p c = false

/-- The end of an expression. Where blanks are skipped, they do not end it. -/
def Stops (skip : Bool) (line : Line) : Prop :=
  ∀ c ∈ line.head?, c = 0 ∨ c = 91 ∨ c = 58 ∨ c = 93 ∨ (skip = false ∧ ISBLNK c = true)

/-- The symbols that a line has up to the end of the expression. -/
inductive Spells (vars : Vars) : Bool → Line → List Tok → Prop
  | stop {skip : Bool} {line : Line} : Stops skip line → Spells vars skip line []
  | blank {c : ℕ} {line : Line} {ts : List Tok} : c ≠ 0 → ISBLNK c = true → Spells vars true line ts →
    Spells vars true (c :: line) ts
  | num {skip : Bool} {ds rest : Line} {ts : List Tok} : ds ≠ [] → (∀ c ∈ ds, ISDIG c = true) →
    Apart ISDIG rest → Spells vars false rest ts → Spells vars skip (ds ++ rest) (.num (decimal 0 ds) :: ts)
  | var {skip : Bool} {name rest : Line} {v : UInt16} {ts : List Tok} : Name name →
    vars.get (stored name) false = some (.num v) → Apart isvok rest → Spells vars false rest ts →
    Spells vars skip (name ++ rest) (.num v.toNat :: ts)
  | special {skip : Bool} {name rest : Line} {v : UInt16} {ts : List Tok} : Name name →
    vars.get (stored name) true = some (.num v) → Spells vars false rest ts →
    Spells vars skip (60 :: (name ++ 62 :: rest)) (.num v.toNat :: ts)
  | op {skip : Bool} {c : ℕ} {o : Op} {rest : Line} {ts : List Tok} : ops c = some o →
    Spells vars (o == .lpar) rest ts → Spells vars skip (c :: rest) (.op o :: ts)

/-- The symbol and the pointer behind it are at some symbols. A number that does not fit is not found. -/
def At (vars : Vars) (s : St) : List Tok → Prop
  | [] => s.sym = .null
  | .num n :: ts => n < 65536 ∧ (s.sym = .num n ∨ ∃ name special v, s.sym = .var name special ∧
      vars.get name special = some (.num v) ∧ v.toNat = n) ∧ Spells vars false s.LNPTR ts
  | .op o :: ts => s.sym = .op o ∧ Spells vars (o == .lpar) s.LNPTR ts

/-- What the scanner finds of some symbols. -/
def Found (vars : Vars) (r : Except Err (Sym × Line)) (ts : List Tok) : Prop :=
  (∃ n us, ts = .num n :: us ∧ 65536 ≤ n ∧ r = .error .ERROVF) ∨
    ∃ sym rest, r = .ok (sym, rest) ∧ At vars { sym, LNPTR := rest } ts

/-! ### The scanner -/

section

variable {vars : Vars} {line rest name ds : Line} {ts : List Tok} {c : ℕ} {o : Op}

theorem SKIPBL_cons (l : Line) (h : c = 0 ∨ ISBLNK c = false) : SKIPBL (c :: l) = c :: l := by
  rw [SKIPBL, if_neg]
  rintro ⟨nonzero, blank⟩
  rcases h with zero | no
  · exact nonzero zero
  · exact Bool.false_ne_true (no.symm.trans blank)

theorem le_decimal (n : ℕ) (ds : Line) : n ≤ decimal n ds := by
  induction ds generalizing n with
  | nil => exact Nat.le_refl n
  | cons c ds ih =>
    have more : n ≤ 10 * n + (c - 48) := by omega
    exact more.trans (ih _)

theorem atoi1_spec (hd : ∀ c ∈ ds, ISDIG c = true) (hr : Apart ISDIG rest) (n : ℕ) (hn : n < 65536) :
    atoi1 n (ds ++ rest) = if decimal n ds < 65536 then some (decimal n ds, rest) else none := by
  induction ds generalizing n with
  | nil =>
    have here : decimal n [] = n := rfl
    rw [here, if_pos hn, List.nil_append]
    cases rest with
    | nil => rfl
    | cons c rest => rw [atoi1, hr c rfl, if_neg Bool.false_ne_true]
  | cons c ds ih =>
    have digit := hd c List.mem_cons_self
    have more : decimal n (c :: ds) = decimal (10 * n + (c - 48)) ds := rfl
    have le := le_decimal (10 * n + (c - 48)) ds
    rw [List.cons_append, atoi1, if_pos digit, adddig_eq, more]
    by_cases fits : 10 * n + (c - 48) < 65536
    · rw [if_pos fits]
      exact ih (fun c hc => hd c (List.mem_cons_of_mem _ hc)) _ fits
    · rw [if_neg fits, if_neg (by omega)]

/-- A digit is nothing else. -/
theorem digit_spec (h : ISDIG c = true) : ISBLNK c = false ∧ isvs c = false ∧ c ≠ 91 ∧ c ≠ 58 ∧ c ≠ 93 ∧
    c ≠ 60 := by
  simp only [ISDIG, Bool.and_eq_true, decide_eq_true_eq] at h
  simp only [ISBLNK, isvs, isletr, Bool.or_eq_false_iff, Bool.and_eq_false_iff, beq_eq_false_iff_ne,
    decide_eq_false_iff_not]
  omega

theorem letter_spec (h : isvs c = true) : ISBLNK c = false ∧ c ≠ 91 ∧ c ≠ 58 ∧ c ≠ 93 ∧ c ≠ 60 := by
  simp only [isvs, isletr, Bool.or_eq_true, Bool.and_eq_true, decide_eq_true_eq, beq_iff_eq] at h
  simp only [ISBLNK, Bool.or_eq_false_iff, beq_eq_false_iff_ne]
  omega

theorem ops_spec (h : ops c = some o) : ISBLNK c = false ∧ isvs c = false ∧ ISDIG c = false ∧ c ≠ 91 ∧
    c ≠ 58 ∧ c ≠ 93 ∧ c ≠ 60 := by
  unfold ops at h
  split at h <;> first | decide | cases h

theorem takeWhile_rest (h : Name name) (hr : Apart isvok rest) :
    (name ++ rest).takeWhile isvok = name ∧ (name ++ rest).dropWhile isvok = rest := by
  rw [List.takeWhile_append_of_pos h.chars, List.dropWhile_append_of_pos h.chars]
  cases rest with
  | nil => exact ⟨List.append_nil name, rfl⟩
  | cons c rest =>
    have other : isvok c = false := hr c rfl
    rw [List.takeWhile_cons_of_neg (by simp [other]), List.dropWhile_cons_of_neg (by simp [other])]
    exact ⟨List.append_nil name, rfl⟩

theorem VNAME_spec (h : Name name) (hr : Apart isvok rest) :
    VNAME (name ++ rest) = some (stored name, false, rest) := by
  obtain ⟨c, l, rfl⟩ := List.exists_cons_of_ne_nil h.some
  have letter : isvs c = true := h.first c rfl
  obtain ⟨taken, dropped⟩ := takeWhile_rest h hr
  have plain : ((c :: l ++ rest).head? == some 60) = false := by
    have := (letter_spec letter).2.2.2.2
    simpa using this
  rw [VNAME, plain]
  simp only [Bool.false_eq_true, if_false, false_and, taken, dropped]
  exact if_pos letter

theorem VNAME_special (h : Name name) :
    VNAME (60 :: (name ++ 62 :: rest)) = some (stored name, true, rest) := by
  obtain ⟨c, l, rfl⟩ := List.exists_cons_of_ne_nil h.some
  have letter : isvs c = true := h.first c rfl
  have apart : Apart isvok (62 :: rest) := by
    intro c hc
    obtain rfl := Option.some.inj hc
    decide
  obtain ⟨taken, dropped⟩ := takeWhile_rest h apart
  have special : ((60 :: (c :: l ++ 62 :: rest)).head? == some 60) = true := rfl
  rw [VNAME, special]
  simp only [if_true, List.tail_cons, taken, dropped, List.head?_cons, and_self]
  exact if_pos letter

/-- At the end of the expression there is no symbol. -/
theorem getsym_stop {skip : Bool} (h : Stops skip line) :
    getsym (if skip then SKIPBL line else line) = .ok (.null, line) := by
  cases line with
  | nil => rw [SKIPBL, ite_self, getsym]
  | cons c l =>
    have same : (if skip then SKIPBL (c :: l) else c :: l) = c :: l := by
      cases skip with
      | false => rfl
      | true =>
        have ends : c = 0 ∨ ISBLNK c = false := by
          rcases h c rfl with rfl | rfl | rfl | rfl | h
          · exact Or.inl rfl
          · exact Or.inr rfl
          · exact Or.inr rfl
          · exact Or.inr rfl
          · cases h.1
        exact SKIPBL_cons l ends
    have ends : ISBLNK c = true ∨ c = 91 ∨ c = 58 ∨ c = 93 := by
      rcases h c rfl with rfl | h | h | h | h
      · exact Or.inl rfl
      · exact Or.inr (Or.inl h)
      · exact Or.inr (Or.inr (Or.inl h))
      · exact Or.inr (Or.inr (Or.inr h))
      · exact Or.inl h.2
    rw [same, getsym]
    exact if_pos ends

theorem getsym_number (some : ds ≠ []) (digits : ∀ c ∈ ds, ISDIG c = true) (hr : Apart ISDIG rest) :
    getsym (ds ++ rest) = if decimal 0 ds < 65536 then .ok (.num (decimal 0 ds), rest) else .error .ERROVF := by
  obtain ⟨c, l, rfl⟩ := List.exists_cons_of_ne_nil some
  have digit := digits c List.mem_cons_self
  obtain ⟨blank, letter, h₁, h₂, h₃, h₄⟩ := digit_spec digit
  have number := atoi1_spec digits hr 0 (by decide)
  rw [List.cons_append] at number ⊢
  rw [getsym, number]
  simp only [blank, letter, h₁, h₂, h₃, h₄, digit, Bool.false_eq_true, or_self, if_false, if_true]
  split_ifs <;> rfl

theorem getsym_name (h : Name name) (hr : Apart isvok rest) :
    getsym (name ++ rest) = .ok (.var (stored name) false, rest) := by
  have found := VNAME_spec h hr
  obtain ⟨c, l, rfl⟩ := List.exists_cons_of_ne_nil h.some
  have letter : isvs c = true := h.first c rfl
  obtain ⟨blank, h₁, h₂, h₃, -⟩ := letter_spec letter
  rw [List.cons_append] at found ⊢
  rw [getsym, found]
  simp only [blank, letter, h₁, h₂, h₃, Bool.false_eq_true, or_self, if_false, true_or, if_true]

theorem getsym_special (h : Name name) :
    getsym (60 :: (name ++ 62 :: rest)) = .ok (.var (stored name) true, rest) := by
  rw [getsym, VNAME_special h]
  rfl

theorem getsym_op (h : ops c = some o) (l : Line) : getsym (c :: l) = .ok (.op o, l) := by
  obtain ⟨blank, letter, digit, h₁, h₂, h₃, h₄⟩ := ops_spec h
  rw [getsym, h]
  simp only [blank, letter, digit, h₁, h₂, h₃, h₄, Bool.false_eq_true, or_self, if_false]

/-- Blanks are skipped only where there are some. -/
theorem skip_id (skip : Bool) (h : ∀ c ∈ line.head?, ISBLNK c = false) :
    (if skip then SKIPBL line else line) = line := by
  cases line with
  | nil => exact ite_self _
  | cons c l => rw [SKIPBL_cons l (Or.inr (h c rfl)), ite_self]

/-- The scanner finds the first symbol. -/
theorem getsym_spec {skip : Bool} (h : Spells vars skip line ts) :
    Found vars (getsym (if skip then SKIPBL line else line)) ts := by
  induction h with
  | stop h => exact Or.inr ⟨.null, _, getsym_stop h, rfl⟩
  | blank zero blank _ ih =>
    rw [if_pos rfl] at ih ⊢
    rwa [SKIPBL, if_pos ⟨zero, blank⟩]
  | @num skip ds rest ts some digits apart next _ =>
    have first : ∀ c ∈ (ds ++ rest).head?, ISBLNK c = false := by
      obtain ⟨c, l, rfl⟩ := List.exists_cons_of_ne_nil some
      intro c' hc
      obtain rfl := Option.some.inj hc
      exact (digit_spec (digits _ List.mem_cons_self)).1
    rw [skip_id skip first, getsym_number some digits apart]
    by_cases fits : decimal 0 ds < 65536
    · rw [if_pos fits]
      exact Or.inr ⟨_, _, rfl, fits, Or.inl rfl, next⟩
    · rw [if_neg fits]
      exact Or.inl ⟨_, _, rfl, Nat.le_of_not_lt fits, rfl⟩
  | @var skip name rest v ts named get apart next _ =>
    have first : ∀ c ∈ (name ++ rest).head?, ISBLNK c = false := by
      obtain ⟨c, l, rfl⟩ := List.exists_cons_of_ne_nil named.some
      intro c' hc
      obtain rfl := Option.some.inj hc
      exact (letter_spec (named.first _ rfl)).1
    rw [skip_id skip first, getsym_name named apart]
    exact Or.inr ⟨_, _, rfl, v.toNat_lt, Or.inr ⟨_, _, v, rfl, get, rfl⟩, next⟩
  | @special skip name rest v ts named get next _ =>
    have first : ∀ c ∈ (60 :: (name ++ 62 :: rest)).head?, ISBLNK c = false := by
      intro c hc
      obtain rfl := Option.some.inj hc
      rfl
    rw [skip_id skip first, getsym_special named]
    exact Or.inr ⟨_, _, rfl, v.toNat_lt, Or.inr ⟨_, _, v, rfl, get, rfl⟩, next⟩
  | @op skip c o rest ts op next _ =>
    have first : ∀ c' ∈ (c :: rest).head?, ISBLNK c' = false := by
      intro c' hc
      obtain rfl := Option.some.inj hc
      exact (ops_spec op).1
    rw [skip_id skip first, getsym_op op]
    exact Or.inr ⟨_, _, rfl, rfl, next⟩

/-- Each symbol is a character of the line at least. -/
theorem Spells.length_le {skip : Bool} (h : Spells vars skip line ts) : ts.length ≤ line.length := by
  induction h with
  | stop => exact Nat.zero_le _
  | blank _ _ _ ih => exact ih.trans (Nat.le_succ _)
  | num some _ _ _ ih =>
    have := List.length_pos_of_ne_nil some
    simp only [List.length_cons, List.length_append]
    omega
  | var named _ _ _ ih =>
    have := List.length_pos_of_ne_nil named.some
    simp only [List.length_cons, List.length_append]
    omega
  | special _ _ _ ih =>
    simp only [List.length_cons, List.length_append]
    omega
  | op _ _ ih => exact Nat.succ_le_succ ih

end

end RSX280.Icp
