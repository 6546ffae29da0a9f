import RSX280.IcpExpr

/-!
# What is no expression

`EVAL` reads expressions only (`EVALn_sound`), up to the end or to a right bracket too many. Where there
is nothing, it reads that, too.
-/

namespace RSX280.Icp

section

variable {vars : Vars} {eval : ℕ → Line → R} {operand : ℕ → St → R} {s : St} {t : Tree} {o : Op}
  {us ts : List Tok} {j k n q de : ℕ} {line : Line}

/-- Some part of the symbols is an expression with a result that does not fit. -/
def Overflows (ts : List Tok) : Prop :=
  ∃ (a : List Tok) (t : Tree) (b : List Tok), t.Good 0 ∧ ts = a ++ (t.print ++ b) ∧ t.wrapped = none

/-- A syntax error, unless an overflow was found before. -/
def Rejected {α : Type} (ts : List Tok) (r : Except Err α) : Prop :=
  r = .error .CMDERR ∨ (r = .error .ERROVF ∧ Overflows ts)

theorem Rejected.bind {α β : Type} {r : Except Err α} (h : Rejected ts r) (g : α → Except Err β) :
    Rejected ts (r >>= g) := by
  rcases h with rfl | ⟨rfl, overflows⟩
  · exact Or.inl rfl
  · exact Or.inr ⟨rfl, overflows⟩

theorem Rejected.behind {α : Type} {r : Except Err α} (h : Rejected ts r) (a : List Tok) :
    Rejected (a ++ ts) r := by
  rcases h with rejected | ⟨rejected, a', t, b, good, rfl, none⟩
  · exact Or.inl rejected
  · exact Or.inr ⟨rejected, a ++ a', t, b, good, (List.append_assoc a a' _).symm, none⟩

theorem rejected_CMDERR {α : Type} : Rejected ts (.error .CMDERR : Except Err α) := Or.inl rfl

theorem rejected_big {α : Type} (hn : 65536 ≤ n) : Rejected (.num n :: us) (.error .ERROVF : Except Err α) :=
  Or.inr ⟨rfl, [], .num n, us, trivial, rfl, if_neg (Nat.not_lt_of_le hn)⟩

/-- An operand of level `j` was read from `ts`. -/
def Parsed (vars : Vars) (j : ℕ) (ts : List Tok) (r : R) : Prop :=
  ∃ (v : ℕ) (s : St) (t : Tree) (us : List Tok), r = .ok (v, s) ∧ ts = t.print ++ us ∧ At vars s us ∧ t.Good j ∧
    t.wrapped = some v

/-- All that is read as an operand of level `j` is one. -/
def Sound (vars : Vars) (operand : ℕ → St → R) (j k : ℕ) : Prop :=
  ∀ de s ts, ts ≠ [] → At vars s ts → ts.length ≤ k → Rejected ts (operand de s) ∨ Parsed vars j ts (operand de s)

/-- An expression was read, up to the end or to a right bracket. -/
def Whole (vars : Vars) (ts : List Tok) (r : R) : Prop :=
  ∃ (v : ℕ) (s : St) (t : Tree) (us : List Tok), r = .ok (v, s) ∧ ts = t.print ++ us ∧
    (∀ x ∈ us.head?, x = .op .rpar) ∧ At vars s us ∧ t.Good 0 ∧ t.wrapped = some v

/-- All that is evaluated is an expression, or nothing at all. -/
def SoundEval (vars : Vars) (eval : ℕ → Line → R) (k : ℕ) : Prop :=
  ∀ de line ts, Spells vars true line ts → ts.length < k →
    Rejected ts (eval de line) ∨ (ts = [] ∧ ∃ s, eval de line = .ok (de, s) ∧ s.sym = .null) ∨
      Whole vars ts (eval de line)

/-- The symbol behind the operand is an operator. -/
theorem At.op (h : At vars s ts) (sym : s.sym = .op o) :
    ∃ us, ts = .op o :: us ∧ Spells vars (o == .lpar) s.LNPTR us := by
  cases ts with
  | nil => cases sym.symm.trans h
  | cons x us =>
    cases x with
    | num n =>
      rcases h.2.1 with sym' | ⟨name, special, v, sym', -⟩
      · cases sym.symm.trans sym'
      · cases sym.symm.trans sym'
    | op o' =>
      obtain rfl := Sym.op.inj (sym.symm.trans h.1)
      exact ⟨us, rfl, h.2⟩

theorem fcv1_found (h : Spells vars false s.LNPTR us) (v : ℕ) :
    Rejected us (fcv1 v s) ∨ ∃ s', fcv1 v s = .ok (v, s') ∧ At vars s' us := by
  rw [fcv1]
  rcases next_found h with ⟨n, us', rfl, big, found⟩ | ⟨s', found, at_⟩
  · rw [found]
    exact Or.inl (rejected_big big)
  · rw [found]
    exact Or.inr ⟨s', rfl, at_⟩

theorem nextOperand_spec (h : Spells vars false s.LNPTR us) :
    Rejected us (nextOperand s) ∨ (us ≠ [] ∧ ∃ s', nextOperand s = .ok s' ∧ At vars s' us) := by
  rw [nextOperand]
  rcases next_found h with ⟨n, us', rfl, big, found⟩ | ⟨s', found, at_⟩
  · rw [found]
    exact Or.inl (rejected_big big)
  · rw [found]
    by_cases null : s'.sym = .null
    · exact Or.inl (Or.inl (if_pos null))
    · refine Or.inr ⟨?_, s', if_neg null, at_⟩
      rintro rfl
      exact null at_

theorem factor_sound (he : SoundEval vars eval k) : Sound vars (factor vars eval) 4 k := by
  intro de s ts some at_ len
  cases ts with
  | nil => exact absurd rfl some
  | cons x us =>
    cases x with
    | num n =>
      obtain ⟨fits, sym, rest⟩ := at_
      have same : factor vars eval de s = fcv1 n s := by
        rcases sym with sym | ⟨name, special, v, sym, get, rfl⟩
        · rw [factor, sym]
        · rw [factor, sym]
          dsimp only
          rw [get]
          rfl
      rw [same]
      rcases fcv1_found rest n with rejected | ⟨s', ok, at'⟩
      · exact Or.inl (rejected.behind [_])
      · exact Or.inr ⟨n, s', .num n, us, ok, rfl, at', trivial, if_pos fits⟩
    | op o =>
      obtain ⟨sym, rest⟩ := at_
      by_cases lpar : o = .lpar
      · subst lpar
        have same : factor vars eval de s = eval de s.LNPTR >>= fun p =>
            if p.2.sym = .op .rpar then fcv1 p.1 p.2 else .error .CMDERR := by
          rw [factor, sym]
        rw [same]
        rcases he de s.LNPTR us rest (Nat.lt_of_succ_le len) with
          rejected | ⟨rfl, s', ok, null⟩ | ⟨v, s', t, us', ok, rfl, -, at', good, value⟩
        · exact Or.inl ((rejected.bind _).behind [_])
        · rw [ok]
          refine Or.inl (Or.inl (if_neg fun closed => ?_))
          cases null.symm.trans closed
        · rw [ok]
          change Rejected _ (if s'.sym = .op .rpar then fcv1 v s' else .error .CMDERR) ∨
            Parsed vars 4 _ (if s'.sym = .op .rpar then fcv1 v s' else .error .CMDERR)
          by_cases closed : s'.sym = .op .rpar
          · obtain ⟨us, rfl, rest'⟩ := at'.op closed
            have inner : .op .lpar :: (t.print ++ .op .rpar :: us) = (Tree.paren t).print ++ us := by
              rw [Tree.print, List.cons_append, List.append_assoc]
              rfl
            rw [if_pos closed, inner]
            rcases fcv1_found rest' v with rejected | ⟨s₁, ok, at₁⟩
            · exact Or.inl (rejected.behind _)
            · exact Or.inr ⟨v, s₁, .paren t, us, ok, rfl, at₁, good, value⟩
          · rw [if_neg closed]
            exact Or.inl rejected_CMDERR
      · have same : factor vars eval de s = .error .CMDERR := by
          rw [factor, sym]
          cases o <;> first | rfl | exact absurd rfl lpar
        rw [same]
        exact Or.inl rejected_CMDERR

/-! ### The loops -/

theorem loop_ends (h : ∀ o, s.sym = .op o → Op.on j o = false) (q n : ℕ) :
    loop (Op.on j) operand (q + 1) n s = .ok (n, s) := by
  rw [loop]
  split
  · next o sym => exact if_neg (by rw [h o sym]; exact Bool.false_ne_true)
  · rfl

/-- The loop appends the operators of its level to the operand `t` that was read so far. -/
theorem loop_sound (hs : Sound vars operand (j + 1) k) (at_ : At vars s us) (hq : us.length ≤ q) (pos : 0 < q)
    (good : t.Good j) (value : t.wrapped = some n) (len : us.length ≤ k) :
    Rejected (t.print ++ us) (loop (Op.on j) operand q n s) ∨
      Parsed vars j (t.print ++ us) (loop (Op.on j) operand q n s) := by
  induction q generalizing t us n s with
  | zero => exact absurd pos (Nat.lt_irrefl 0)
  | succ q ih =>
    by_cases on : ∃ o, s.sym = .op o ∧ Op.on j o = true
    · obtain ⟨o, sym, on⟩ := on
      have level : o.level = some j := eq_of_beq on
      have plain : (o == Op.lpar) = false := by cases o <;> first | rfl | cases level
      obtain ⟨us, rfl, rest⟩ := at_.op sym
      rw [plain] at rest
      have symbols : t.print ++ .op o :: us = (t.print ++ [.op o]) ++ us := by
        rw [List.append_assoc]
        rfl
      rw [loop_on level sym, symbols]
      rcases nextOperand_spec rest with rejected | ⟨some_symbols, s₁, found, at₁⟩
      · exact Or.inl ((rejected.bind _).behind _)
      rw [found]
      rcases hs n s₁ us some_symbols at₁ (Nat.le_of_succ_le len) with
        rejected | ⟨m, s₂, r, us₂, ok, rfl, at₂, good_r, value_r⟩
      · exact Or.inl ((rejected.bind _).behind _)
      have appended : t.print ++ [.op o] ++ (r.print ++ us₂) = (Tree.bin o t r).print ++ us₂ := by
        rw [Tree.print, List.append_assoc, List.append_assoc]
        rfl
      have good_bin : (Tree.bin o t r).Good j := ⟨j, level, Nat.le_refl j, good, good_r⟩
      have shape : ((do
          let s ← (Except.ok s₁ : Except Err St)
          let p ← operand n s
          let v ← o.apply n p.1
          loop (Op.on j) operand q v p.2) : R) = (do
            let v ← reported (o.result wrap n m)
            loop (Op.on j) operand q v s₂) := by
        change (do
          let p ← operand n s₁
          let v ← o.apply n p.1
          loop (Op.on j) operand q v p.2) = _
        rw [ok, ← apply_eq level (wrapped_lt value) (wrapped_lt value_r)]
        rfl
      rw [shape, appended]
      have value_bin : (Tree.bin o t r).wrapped = o.result wrap n m := by
        change (t.wrapped.bind fun n => r.wrapped.bind fun m => o.result wrap n m) = _
        rw [value, value_r]
        rfl
      rcases result : o.result wrap n m with _ | v
      · exact Or.inl (Or.inr ⟨rfl, [], .bin o t r, us₂, good_bin.mono (Nat.zero_le j), rfl, value_bin.trans result⟩)
      · have shorter := List.length_pos_of_ne_nil r.print_ne_nil
        simp only [List.length_cons, List.length_append] at hq len
        exact ih at₂ (by omega) (by omega) good_bin (value_bin.trans result) (by omega)
    · have off : ∀ o, s.sym = .op o → Op.on j o = false := by
        intro o sym
        exact Bool.eq_false_of_not_eq_true fun yes => on ⟨o, sym, yes⟩
      rw [loop_ends off]
      exact Or.inr ⟨n, s, t, us, rfl, rfl, at_, good, value⟩

theorem level_sound (hs : Sound vars operand (j + 1) k) : Sound vars (level (Op.on j) operand) j k := by
  intro de s ts some at_ len
  rw [level]
  rcases hs de s ts some at_ len with rejected | ⟨n, s₁, t, us, ok, rfl, at₁, good, value⟩
  · exact Or.inl (rejected.bind _)
  · rw [ok]
    rw [List.length_append] at len
    exact loop_sound hs at₁ at₁.LNPTR_length (Nat.succ_pos _) (good.mono (Nat.le_succ j)) value (by omega)

theorem lterm_sound (he : SoundEval vars eval k) : Sound vars (lterm vars eval) 1 k :=
  level_sound (level_sound (level_sound (factor_sound he)))

/-- Without a symbol, `DE` is what it was. -/
theorem lterm_null (sym : s.sym = .null) (de : ℕ) : lterm vars eval de s = .ok (de, s) := by
  have off (j : ℕ) : ∀ o, s.sym = .op o → Op.on j o = false := by
    intro o op
    cases sym.symm.trans op
  have factor_null : factor vars eval de s = .ok (de, s) := by rw [factor, sym]
  have level_null {j : ℕ} {operand : ℕ → St → R} (h : operand de s = .ok (de, s)) :
      level (Op.on j) operand de s = .ok (de, s) := by
    rw [level, h]
    exact loop_ends (off j) _ de
  exact level_null (level_null (level_null factor_null))

/-! ### Expressions -/

/-- The loop of `EVAL`, with the first operands already in `t`. -/
theorem close_sound (he : SoundEval vars eval k) (at_ : At vars s us) (good : t.Good 0)
    (value : t.wrapped = some n) (len : us.length ≤ k) :
    Rejected (t.print ++ us) (loop (Op.on 0) (lterm vars eval) (s.LNPTR.length + 1) n s >>= close) ∨
      Whole vars (t.print ++ us) (loop (Op.on 0) (lterm vars eval) (s.LNPTR.length + 1) n s >>= close) := by
  rcases loop_sound (lterm_sound he) at_ at_.LNPTR_length (Nat.succ_pos _) good value len with
    rejected | ⟨v, s', t', us', ok, same, at', good', value'⟩
  · exact Or.inl (rejected.bind _)
  rw [ok]
  change Rejected _ (close (v, s')) ∨ Whole vars _ (close (v, s'))
  rw [close]
  by_cases closed : s'.sym = .null ∨ s'.sym = .op .rpar
  · rw [if_pos closed]
    refine Or.inr ⟨v, s', t', us', rfl, same, ?_, at', good', value'⟩
    cases us' with
    | nil => exact fun x hx => by cases hx
    | cons x us' =>
      intro y hy
      obtain rfl := Option.some.inj hy
      rcases closed with null | rpar
      · cases x with
        | num n =>
          rcases at'.2.1 with sym | ⟨name, special, v, sym, -⟩
          · cases null.symm.trans sym
          · cases null.symm.trans sym
        | op o => cases null.symm.trans at'.1
      · obtain ⟨us, e, -⟩ := at'.op rpar
        exact (List.cons.inj e).1
  · rw [if_neg closed]
    exact Or.inl rejected_CMDERR

/-- Nothing at all is no error. -/
theorem expr_nothing (h : Spells vars true line []) (de : ℕ) :
    ∃ s, expr vars eval de line = .ok (de, s) ∧ s.sym = .null := by
  rcases first_found h with ⟨n, us, e, -⟩ | ⟨s, found, sym⟩
  · cases e
  · refine ⟨s, ?_, sym⟩
    rw [expr_unsigned found (fun o op => by cases sym.symm.trans op), lterm_null sym]
    change loop (Op.on 0) (lterm vars eval) (s.LNPTR.length + 1) de s >>= close = _
    rw [loop_ends (fun o op => by cases sym.symm.trans op)]
    exact if_pos (Or.inl sym)

theorem expr_sound (he : SoundEval vars eval k) : SoundEval vars (expr vars eval) (k + 1) := by
  intro de line ts spelled len
  rcases first_found spelled with ⟨n, us, rfl, big, found⟩ | ⟨s, found, at_⟩
  · rw [expr, found]
    exact Or.inl (rejected_big big)
  cases ts with
  | nil => exact Or.inr (Or.inl ⟨rfl, expr_nothing spelled de⟩)
  | cons x us =>
    by_cases signed : ∃ o, s.sym = .op o ∧ o.leads = true
    · obtain ⟨o, sym, leads⟩ := signed
      have plain : (o == Op.lpar) = false := by cases o <;> first | rfl | cases leads
      obtain ⟨us', e, rest⟩ := at_.op sym
      obtain ⟨rfl, rfl⟩ := List.cons.inj e
      rw [plain] at rest
      rw [expr_signed found sym leads]
      rcases nextOperand_spec rest with rejected | ⟨some_symbols, s₁, found₁, at₁⟩
      · exact Or.inl ((rejected.bind _).behind [_])
      rw [found₁]
      have shorter : us.length ≤ k := Nat.le_of_lt (Nat.lt_of_succ_lt_succ len)
      rcases lterm_sound he de s₁ us some_symbols at₁ shorter with
        rejected | ⟨n, s₂, t, us₂, ok, rfl, at₂, good, value⟩
      · exact Or.inl ((rejected.bind _).behind [_])
      change Rejected _ (lterm vars eval de s₁ >>= _) ∨ _ ∨ Whole vars _ (lterm vars eval de s₁ >>= _)
      rw [ok]
      have signed_value : (Tree.sign o t).wrapped = some (o.sign n) := by
        change t.wrapped.map o.complement = _
        rw [value, sign_eq (wrapped_lt value)]
        rfl
      rw [List.length_append] at shorter
      rcases close_sound he at₂ (t := .sign o t) ⟨rfl, leads, good⟩ signed_value (by omega) with rejected | whole
      · exact Or.inl rejected
      · exact Or.inr (Or.inr whole)
    · have unsigned : ∀ o, s.sym = .op o → o.leads = false := by
        intro o sym
        exact Bool.eq_false_of_not_eq_true fun yes => signed ⟨o, sym, yes⟩
      rw [expr_unsigned found unsigned]
      have shorter : (x :: us).length ≤ k := Nat.le_of_lt_succ len
      rcases lterm_sound he de s (x :: us) (List.cons_ne_nil x us) at_ shorter with
        rejected | ⟨n, s₂, t, us₂, ok, e, at₂, good, value⟩
      · exact Or.inl (rejected.bind _)
      rw [ok, e]
      rw [e, List.length_append] at shorter
      rcases close_sound he at₂ (good.mono (Nat.zero_le 1)) value (by omega) with rejected | whole
      · exact Or.inl rejected
      · exact Or.inr (Or.inr whole)

theorem EVALn_sound (vars : Vars) (k : ℕ) : SoundEval vars (EVALn vars k) k := by
  induction k with
  | zero => exact fun de line ts _ len => absurd len (Nat.not_lt_zero _)
  | succ k ih => exact expr_sound ih

/-! ### What is seen -/

/-- What should come out for the symbols of a line: the exact value of the expression or an overflow; a
syntax error where there is no expression, unless a part of it overflows. -/
structure Right (ts : List Tok) (r : R) : Prop where
  value : ∀ t : Tree, t.Good 0 → ts = t.print → ∀ v, t.exact = some v → ∃ s, r = .ok (v, s)
  overflow : ∀ t : Tree, t.Good 0 → ts = t.print → t.exact = none → r = .error .ERROVF
  other : (∀ t : Tree, t.Good 0 → ts ≠ t.print) → r = .error .CMDERR ∨
    (r = .error .ERROVF ∧ ∃ (a : List Tok) (t : Tree) (b : List Tok), t.Good 0 ∧ ts = a ++ (t.print ++ b) ∧ t.exact = none)

/-- What is not seen: that there is nothing, that there is a right bracket too many, that a product
overflows. -/
def Missed (ts : List Tok) : Prop :=
  ts = [] ∨ (∃ (t : Tree) (us : List Tok), t.Good 0 ∧ ts = t.print ++ .op .rpar :: us ∧ t.wrapped ≠ none) ∨
    ∃ t : Tree, t.Good 0 ∧ ts = t.print ∧ t.exact = none ∧ t.wrapped ≠ none

theorem exact_none (h : t.wrapped = none) : t.exact = none := by
  cases exact : t.exact with
  | none => rfl
  | some v => cases h.symm.trans (wrapped_of_exact exact)

/-- `EVAL` of an expression, up to the end or to a right bracket. -/
theorem EVAL_gives (h : Spells vars true line (t.print ++ us)) (good : t.Good 0)
    (ends : ∀ x ∈ us.head?, x = .op .rpar) (de : ℕ) : Gives vars (EVAL vars de line) t us :=
  EVALn_evaluates vars (line.length + 1) t de line us good ends h (Nat.lt_succ_of_le h.length_le)

theorem EVAL_exact (h : Spells vars true line t.print) (good : t.Good 0) (de : ℕ) :
    Gives vars (EVAL vars de line) t [] :=
  EVAL_gives (by rwa [List.append_nil]) good (fun x hx => by cases hx) de

/-- What comes back with a value is no error. -/
theorem Right.tree (h : Right ts (.ok (n, s))) : ∃ t : Tree, t.Good 0 ∧ ts = t.print ∧ t.exact ≠ none := by
  by_cases tree : ∃ t : Tree, t.Good 0 ∧ ts = t.print
  · obtain ⟨t, good, print⟩ := tree
    exact ⟨t, good, print, fun none => by cases h.overflow t good print none⟩
  · rcases h.other fun t good print => tree ⟨t, good, print⟩ with error | ⟨error, -⟩
    · cases error
    · cases error

theorem EVAL_missed (h : Spells vars true line ts) (missed : Missed ts) (de : ℕ) :
    ¬Right ts (EVAL vars de line) := by
  intro right
  rcases missed with rfl | ⟨t, us, good, rfl, value⟩ | ⟨t, good, rfl, none, value⟩
  · have nothing : ∃ s, EVAL vars de line = .ok (de, s) ∧ s.sym = .null := expr_nothing h de
    obtain ⟨s, ok, -⟩ := nothing
    rw [ok] at right
    obtain ⟨t, -, print, -⟩ := right.tree
    exact t.print_ne_nil print.symm
  · obtain ⟨v, hv⟩ := Option.ne_none_iff_exists'.mp value
    obtain ⟨s, ok, at_⟩ := (EVAL_gives h good (fun x hx => (Option.some.inj hx).symm) de).value v hv
    rw [ok] at right
    obtain ⟨t', good', print, exact'⟩ := right.tree
    -- the same line would be at its end and at the bracket
    obtain ⟨v', hv'⟩ := Option.ne_none_iff_exists'.mp exact'
    rw [print] at h
    obtain ⟨s', ok', null⟩ := (EVAL_exact h good' de).value v' (wrapped_of_exact hv')
    obtain ⟨-, rfl⟩ := Prod.mk.inj (Except.ok.inj (ok.symm.trans ok'))
    cases at_.1.symm.trans null
  · obtain ⟨v, hv⟩ := Option.ne_none_iff_exists'.mp value
    obtain ⟨s, ok, -⟩ := (EVAL_exact h good de).value v hv
    cases ok.symm.trans (right.overflow t good rfl none)

theorem EVAL_right (h : Spells vars true line ts) (seen : ¬Missed ts) (de : ℕ) :
    Right ts (EVAL vars de line) where
  value := by
    rintro t good rfl v hv
    obtain ⟨s, ok, -⟩ := (EVAL_exact h good de).value v (wrapped_of_exact hv)
    exact ⟨s, ok⟩
  overflow := by
    rintro t good rfl none
    refine (EVAL_exact h good de).fails ?_
    by_contra value
    exact seen (Or.inr (Or.inr ⟨t, good, rfl, none, value⟩))
  other := by
    intro no_tree
    rcases EVALn_sound vars (line.length + 1) de line ts h (Nat.lt_succ_of_le h.length_le) with
      (rejected | ⟨rejected, a, t, b, good, symbols, none⟩) | ⟨rfl, -⟩ | ⟨v, s, t, us, -, rfl, ends, -, good, value⟩
    · exact Or.inl rejected
    · exact Or.inr ⟨rejected, a, t, b, good, symbols, exact_none none⟩
    · exact absurd (Or.inl rfl) seen
    · cases us with
      | nil => exact absurd (List.append_nil _) (no_tree t good)
      | cons x us =>
        obtain rfl := ends x rfl
        refine absurd (Or.inr (Or.inl ⟨t, us, good, rfl, ?_⟩)) seen
        exact Option.ne_none_iff_exists'.mpr ⟨v, value⟩

/-- `EVAL` is right but for an expression that is not there, a right bracket too many and products that
overflow. -/
theorem expression_right_iff (h : Spells vars true line ts) (de : ℕ) :
    Right ts (EVAL vars de line) ↔ ¬Missed ts :=
  ⟨fun right missed => EVAL_missed h missed de right, fun seen => EVAL_right h seen de⟩

/-- Without products, all is exact. -/
theorem exact_eq (h : .op .mul ∉ t.print) : t.exact = t.wrapped := by
  induction t with
  | num n => rfl
  | paren t ih =>
    exact ih fun mem => h (List.mem_cons_of_mem _ (List.mem_append_left _ mem))
  | sign o t ih => exact congrArg (Option.map o.complement) (ih fun mem => h (List.mem_cons_of_mem _ mem))
  | bin o l r ihl ihr =>
    have left : l.exact = l.wrapped := ihl fun mem => h (List.mem_append_left _ mem)
    have right : r.exact = r.wrapped :=
      ihr fun mem => h (List.mem_append_right _ (List.mem_cons_of_mem _ mem))
    have other : o ≠ .mul := by
      rintro rfl
      exact h (List.mem_append_right _ List.mem_cons_self)
    have same (n m : ℕ) : o.result (fun n m => fit (n * m)) n m = o.result wrap n m := by
      cases o <;> first | rfl | exact absurd rfl other
    change (l.exact.bind fun n => r.exact.bind fun m => o.result (fun n m => fit (n * m)) n m)
      = l.wrapped.bind fun n => r.wrapped.bind fun m => o.result wrap n m
    rw [left, right]
    simp only [same]

end

/-- `N` is 3, and nothing else is defined. -/
def threeVars : Vars where
  get name special := if name = [78] ∧ special = false then some (.num 3) else none
  stale _ := none

theorem stops_nil (skip : Bool) : Stops skip [] := fun c hc => by cases hc

theorem apart_nil (p : ℕ → Bool) : Apart p [] := fun c hc => by cases hc

theorem apart_cons {p : ℕ → Bool} {c : ℕ} (h : p c = false) (l : Line) : Apart p (c :: l) := by
  intro c' hc
  obtain rfl := Option.some.inj hc
  exact h

/-- `2+N` -/
theorem expression_right_sum :
    Right [.num 2, .op .add, .num 3] (EVAL threeVars 0 [50, 43, 78]) := by
  have name : Name [78] := ⟨by decide, by decide, by decide⟩
  have last : Spells threeVars false [78] [.num 3] :=
    @Spells.var threeVars false [78] [] 3 [] name rfl (apart_nil isvok) (.stop (stops_nil false))
  have spelled : Spells threeVars true [50, 43, 78] [.num 2, .op .add, .num 3] :=
    @Spells.num threeVars true [50] _ _ (by decide) (by decide) (apart_cons rfl _) (.op rfl last)
  refine (expression_right_iff spelled 0).mpr ?_
  rintro (nil | ⟨t, us, -, print, -⟩ | ⟨t, -, print, none, value⟩)
  · cases nil
  · have bracket : Tok.op .rpar ∈ [Tok.num 2, .op .add, .num 3] := by
      rw [print]
      exact List.mem_append_right _ List.mem_cons_self
    revert bracket
    decide
  · refine value ((exact_eq ?_).symm.trans none)
    rw [← print]
    decide

/-- `300*300` -/
theorem product_wraps : ¬∀ (vars : Vars) (line : Line) (ts : List Tok) (de : ℕ), Spells vars true line ts →
    Right ts (EVAL vars de line) := by
  intro h
  have last : Spells threeVars false [51, 48, 48] [.num 300] :=
    @Spells.num threeVars false [51, 48, 48] [] _ (by decide) (by decide) (apart_nil ISDIG) (.stop (stops_nil false))
  have spelled : Spells threeVars true [51, 48, 48, 42, 51, 48, 48] [.num 300, .op .mul, .num 300] :=
    @Spells.num threeVars true [51, 48, 48] _ _ (by decide) (by decide) (apart_cons rfl _) (.op rfl last)
  have right := h threeVars _ _ 0 spelled
  have tree : (Tree.bin .mul (.num 300) (.num 300)).Good 0 := ⟨3, rfl, by decide, trivial, trivial⟩
  have value : EVAL threeVars 0 [51, 48, 48, 42, 51, 48, 48] = .ok (24464, ⟨.null, []⟩) := rfl
  cases value.symm.trans (right.overflow _ tree rfl rfl)

end RSX280.Icp
