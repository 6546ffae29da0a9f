import RSX280.IcpText

/-!
# The value of an expression

The grammar has four levels of operators, and one `+`, `-` or `#` may stand before the operands of the
first `!`. Numbers have 16 bits without a sign; `-` and `#` before an expression are the complements.
`EVAL` computes the value of the parse tree when all results fit, with products modulo 65536
(`EVALn_evaluates`).
-/

namespace RSX280.Icp

/-! ### Parse trees -/

/-- An expression. -/
inductive Tree
  | num (n : ℕ)
  | paren (t : Tree)
  | sign (o : Op) (t : Tree)
  | bin (o : Op) (l r : Tree)

/-- The symbols of an expression. -/
def Tree.print : Tree → List Tok
  | num n => [.num n]
  | paren t => .op .lpar :: (t.print ++ [.op .rpar])
  | sign o t => .op o :: t.print
  | bin o l r => l.print ++ .op o :: r.print

/-- The grammar: the operators in an operand bind tighter, those before them at least as tight. -/
def Tree.Good : Tree → ℕ → Prop
  | num _, _ => True
  | paren t, _ => t.Good 0
  | sign o t, j => j = 0 ∧ o.leads = true ∧ t.Good 1
  | bin o l r, j => ∃ i, o.level = some i ∧ j ≤ i ∧ l.Good i ∧ r.Good (i + 1)

/-- A result of 16 bits. -/
def fit (n : ℕ) : Option ℕ := if n < 65536 then some n else none

/-- The result of an operator, unless it does not fit or is a division by zero. -/
def Op.result (mul : ℕ → ℕ → Option ℕ) (o : Op) (n m : ℕ) : Option ℕ :=
  match o with
  | .mul => mul n m
  | .div => if m = 0 then none else some (n / m)
  | .mod => if m = 0 then none else some (n % m)
  | .add => fit (n + m)
  | .sub => if m ≤ n then some (n - m) else none
  | .and => some (n &&& m)
  | .or => some (n ||| m)
  | .not | .lpar | .rpar => none

/-- The complements of 16 bits. -/
def Op.complement (o : Op) (n : ℕ) : ℕ :=
  match o with
  | .sub => (65536 - n) % 65536
  | .not => 65535 - n
  | _ => n

/-- The value of an expression, with `mul` for its products. -/
def Tree.value (mul : ℕ → ℕ → Option ℕ) : Tree → Option ℕ
  | num n => fit n
  | paren t => t.value mul
  | sign o t => (t.value mul).map o.complement
  | bin o l r => (l.value mul).bind fun n => (r.value mul).bind fun m => o.result mul n m

/-- The exact value, if all results fit. -/
def Tree.exact : Tree → Option ℕ := Tree.value fun n m => fit (n * m)

/-- The value with products modulo 65536. -/
def Tree.wrapped : Tree → Option ℕ := Tree.value fun n m => some (n * m % 65536)

theorem Tree.print_ne_nil (t : Tree) : t.print ≠ [] := by
  cases t with
  | bin o l r => exact List.append_ne_nil_of_right_ne_nil _ (List.cons_ne_nil _ _)
  | _ => exact List.cons_ne_nil _ _

theorem Tree.Good.mono {t : Tree} {i j : ℕ} (h : t.Good j) (hi : i ≤ j) : t.Good i := by
  cases t with
  | num n => trivial
  | paren t => exact h
  | sign o t =>
    obtain ⟨rfl, leads, ht⟩ := h
    exact ⟨Nat.le_zero.mp hi, leads, ht⟩
  | bin o l r =>
    obtain ⟨i', level, le, hl, hr⟩ := h
    exact ⟨i', level, hi.trans le, hl, hr⟩

/-! ### Arithmetic -/

section

variable {o : Op} {n m v j : ℕ} {t : Tree}

theorem fit_eq_some : fit n = some v ↔ n < 65536 ∧ n = v := by
  rw [fit]
  split <;> simp_all

theorem complement_lt (hn : n < 65536) : o.complement n < 65536 := by
  cases o <;> simp only [Op.complement] <;> omega

theorem result_lt {mul : ℕ → ℕ → Option ℕ} (hm : ∀ n m v, mul n m = some v → v < 65536)
    (h : o.result mul n m = some v) (hn : n < 65536) (hm' : m < 65536) : v < 65536 := by
  cases o with
  | mul => exact hm n m v h
  | div =>
    simp only [Op.result] at h
    split at h
    · cases h
    · obtain rfl := Option.some.inj h
      exact Nat.lt_of_le_of_lt (Nat.div_le_self n m) hn
  | mod =>
    simp only [Op.result] at h
    split at h
    · cases h
    · obtain rfl := Option.some.inj h
      exact Nat.lt_of_le_of_lt (Nat.mod_le n m) hn
  | add => exact (fit_eq_some.mp h).2 ▸ (fit_eq_some.mp h).1
  | sub =>
    simp only [Op.result] at h
    split at h
    · obtain rfl := Option.some.inj h
      omega
    · cases h
  | and =>
    obtain rfl := Option.some.inj h
    exact Nat.and_lt_two_pow n (n := 16) hm'
  | or =>
    obtain rfl := Option.some.inj h
    exact Nat.or_lt_two_pow (n := 16) hn hm'
  | not => cases h
  | lpar => cases h
  | rpar => cases h

theorem wrapped_lt (h : t.wrapped = some v) : v < 65536 := by
  induction t generalizing v with
  | num n => exact (fit_eq_some.mp h).2 ▸ (fit_eq_some.mp h).1
  | paren t ih => exact ih h
  | sign o t ih =>
    obtain ⟨n, hn, rfl⟩ := Option.map_eq_some_iff.mp h
    exact complement_lt (ih hn)
  | bin o l r ihl ihr =>
    obtain ⟨n, hn, h⟩ := Option.bind_eq_some_iff.mp h
    obtain ⟨m, hm, h⟩ := Option.bind_eq_some_iff.mp h
    refine result_lt (fun n m v h => ?_) h (ihl hn) (ihr hm)
    obtain rfl := Option.some.inj h
    exact Nat.mod_lt _ (by decide)

/-- What is exact is right also with products modulo 65536. -/
theorem wrapped_of_exact (h : t.exact = some v) : t.wrapped = some v := by
  induction t generalizing v with
  | num n => exact h
  | paren t ih => exact ih h
  | sign o t ih =>
    obtain ⟨n, hn, rfl⟩ := Option.map_eq_some_iff.mp h
    exact Option.map_eq_some_iff.mpr ⟨n, ih hn, rfl⟩
  | bin o l r ihl ihr =>
    obtain ⟨n, hn, h⟩ := Option.bind_eq_some_iff.mp h
    obtain ⟨m, hm, h⟩ := Option.bind_eq_some_iff.mp h
    refine Option.bind_eq_some_iff.mpr ⟨n, ihl hn, Option.bind_eq_some_iff.mpr ⟨m, ihr hm, ?_⟩⟩
    cases o with
    | mul =>
      obtain ⟨lt, rfl⟩ := fit_eq_some.mp h
      exact congrArg some (Nat.mod_eq_of_lt lt)
    | _ => exact h

/-- The products of the machine. -/
abbrev wrap (n m : ℕ) : Option ℕ := some (n * m % 65536)

/-- A result, or the message that there is none. -/
def reported : Option ℕ → Except Err ℕ
  | some v => .ok v
  | none => .error .ERROVF

/-- The machine computes the result. -/
theorem apply_eq (ho : o.level = some j) (hn : n < 65536) (hm : m < 65536) :
    o.apply n m = reported (o.result wrap n m) := by
  cases o with
  | mul => exact congrArg Except.ok (mult_eq m hn)
  | div =>
    simp only [Op.result, Op.apply]
    split
    · rfl
    · next zero => exact congrArg Except.ok (div_fst hn hm (Nat.pos_of_ne_zero zero))
  | mod =>
    simp only [Op.result, Op.apply]
    split
    · rfl
    · next zero => exact congrArg Except.ok (div_snd hn hm (Nat.pos_of_ne_zero zero))
  | add =>
    simp only [Op.result, Op.apply, fit]
    by_cases lt : n + m < 65536
    · rw [if_neg (Nat.not_le_of_lt lt), if_pos lt]
      rfl
    · rw [if_pos (Nat.le_of_not_lt lt), if_neg lt]
      rfl
  | sub =>
    simp only [Op.result, Op.apply]
    by_cases le : m ≤ n
    · rw [if_neg (Nat.not_lt_of_le le), if_pos le]
      rfl
    · rw [if_pos (Nat.lt_of_not_le le), if_neg le]
      rfl
  | and => rfl
  | or => rfl
  | not => cases ho
  | lpar => cases ho
  | rpar => cases ho

theorem sign_eq (hn : n < 65536) : o.sign n = o.complement n := by
  cases o with
  | sub =>
    simp only [Op.sign, Op.complement, HLNEG]
    omega
  | not =>
    simp only [Op.sign, Op.complement, HLNEG]
    omega
  | _ => rfl

end

/-! ### Expressions that are read -/

section

variable {vars : Vars} {eval f : ℕ → Line → R} {operand : ℕ → St → R} {s : St} {t l r : Tree} {o : Op}
  {us ts : List Tok} {j k n v q de : ℕ} {line : Line} {x : Tok}

/-- What follows an operand of level `j`: the end, or an operator that does not bind so tight. -/
def Stop (j : ℕ) (us : List Tok) : Prop :=
  ∀ x ∈ us.head?, ∃ o, x = .op o ∧ ∀ i, o.level = some i → i < j

theorem Stop.mono {i : ℕ} (h : Stop i us) (hi : i ≤ j) : Stop j us := by
  intro x hx
  obtain ⟨o, rfl, lt⟩ := h x hx
  exact ⟨o, rfl, fun m hm => Nat.lt_of_lt_of_le (lt m hm) hi⟩

/-- The value and the state behind an expression, or the message. -/
structure Gives (vars : Vars) (r : R) (t : Tree) (us : List Tok) : Prop where
  value : ∀ v, t.wrapped = some v → ∃ s, r = .ok (v, s) ∧ At vars s us
  fails : t.wrapped = none → r = .error .ERROVF

/-- The next symbol is found, unless it is a number that does not fit. -/
theorem next_of_found (h : Found vars (getsym s.LNPTR) ts) :
    (∃ n us, ts = .num n :: us ∧ 65536 ≤ n ∧ next s = .error .ERROVF) ∨
      ∃ s', next s = .ok s' ∧ At vars s' ts := by
  rcases h with ⟨n, us, hu, hn, found⟩ | ⟨sym, rest, found, at_⟩
  · refine Or.inl ⟨n, us, hu, hn, ?_⟩
    rw [next, found]
    rfl
  · refine Or.inr ⟨_, ?_, at_⟩
    rw [next, found]
    rfl

theorem next_found (h : Spells vars false s.LNPTR ts) :
    (∃ n us, ts = .num n :: us ∧ 65536 ≤ n ∧ next s = .error .ERROVF) ∨
      ∃ s', next s = .ok s' ∧ At vars s' ts :=
  next_of_found (getsym_spec h)

/-- The state in which `EVAL` looks for the first symbol. -/
abbrev start (line : Line) : St := { sym := .null, LNPTR := SKIPBL line }

theorem first_found (h : Spells vars true line ts) :
    (∃ n us, ts = .num n :: us ∧ 65536 ≤ n ∧ next (start line) = .error .ERROVF) ∨
      ∃ s', next (start line) = .ok s' ∧ At vars s' ts :=
  next_of_found (getsym_spec h)

theorem next_stop (h : Spells vars false s.LNPTR us) (hs : Stop j us) :
    ∃ s', next s = .ok s' ∧ At vars s' us := by
  rcases next_found h with ⟨n, us', rfl, -, -⟩ | found
  · obtain ⟨o, e, -⟩ := hs _ rfl
    cases e
  · exact found

theorem wrapped_big (h : t.print.head? = some (.num n)) (hn : 65536 ≤ n) : t.wrapped = none := by
  induction t with
  | num m =>
    obtain rfl : m = n := by simpa [Tree.print] using h
    exact if_neg (Nat.not_lt_of_le hn)
  | paren t => cases h
  | sign o t => cases h
  | bin o l r ihl =>
    have first : l.print.head? = some (.num n) := by
      obtain ⟨x, us, e⟩ := List.exists_cons_of_ne_nil l.print_ne_nil
      rw [Tree.print, e] at h
      rw [e]
      exact h
    exact congrArg (Option.bind · _) (ihl first)

/-- The first symbol of an operand is found, or the operand has no value. -/
theorem nextOperand_found (h : Spells vars false s.LNPTR (t.print ++ us)) :
    (t.wrapped = none ∧ nextOperand s = .error .ERROVF) ∨
      ∃ s', nextOperand s = .ok s' ∧ At vars s' (t.print ++ us) := by
  obtain ⟨x, l, e⟩ := List.exists_cons_of_ne_nil t.print_ne_nil
  rcases next_found h with ⟨n, us', hu, hn, found⟩ | ⟨s', found, at_⟩
  · left
    rw [e, List.cons_append] at hu
    obtain ⟨rfl, -⟩ := List.cons.inj hu
    refine ⟨wrapped_big (e ▸ rfl) hn, ?_⟩
    rw [nextOperand, found]
    rfl
  · right
    refine ⟨s', ?_, at_⟩
    have symbol : s'.sym ≠ .null := by
      intro null
      rw [e, List.cons_append] at at_
      cases x with
      | num n =>
        rcases at_.2.1 with sym | ⟨name, special, v, sym, -⟩
        · cases null.symm.trans sym
        · cases null.symm.trans sym
      | op o => cases null.symm.trans at_.1
    rw [nextOperand, found]
    exact if_neg symbol

/-- All operands of level `j` with at most `k` symbols are read. -/
def Reads (vars : Vars) (operand : ℕ → St → R) (j k : ℕ) : Prop :=
  ∀ t de s us, t.Good j → Stop j us → At vars s (t.print ++ us) → (t.print ++ us).length ≤ k →
    Gives vars (operand de s) t us

/-- All expressions with less than `k` symbols are evaluated, up to the end or a right bracket. -/
def Evaluates (vars : Vars) (eval : ℕ → Line → R) (k : ℕ) : Prop :=
  ∀ t de line us, t.Good 0 → (∀ x ∈ us.head?, x = .op .rpar) → Spells vars true line (t.print ++ us) →
    (t.print ++ us).length < k → Gives vars (eval de line) t us

theorem At.LNPTR_length (h : At vars s ts) : ts.length ≤ s.LNPTR.length + 1 := by
  cases ts with
  | nil => exact Nat.zero_le _
  | cons x ts =>
    cases x with
    | num n => exact Nat.succ_le_succ h.2.2.length_le
    | op o => exact Nat.succ_le_succ h.2.length_le

theorem fcv1_reads (h : Spells vars false s.LNPTR us) (hs : Stop j us) (v : ℕ) :
    ∃ s', fcv1 v s = .ok (v, s') ∧ At vars s' us := by
  obtain ⟨s', found, at_⟩ := next_stop h hs
  refine ⟨s', ?_, at_⟩
  rw [fcv1, found]
  rfl

theorem factor_reads (he : Evaluates vars eval k) : Reads vars (factor vars eval) 4 k := by
  intro t de s us good stop at_ len
  cases t with
  | num n =>
    obtain ⟨fits, sym, rest⟩ := at_
    have value : (Tree.num n).wrapped = some n := if_pos fits
    obtain ⟨s', found, at_⟩ := fcv1_reads rest stop n
    refine ⟨fun v hv => ⟨s', ?_, at_⟩, fun no => ?_⟩
    · obtain rfl := Option.some.inj (value.symm.trans hv)
      rcases sym with sym | ⟨name, special, w, sym, get, rfl⟩
      · rw [factor, sym]
        exact found
      · rw [factor, sym]
        dsimp only
        rw [get]
        exact found
    · cases value.symm.trans no
  | paren t =>
    have sym := at_.1
    have rest : Spells vars true s.LNPTR (t.print ++ [.op .rpar] ++ us) := at_.2
    rw [List.append_assoc] at rest
    have inner := he t de s.LNPTR (.op .rpar :: us) good (fun x hx => (Option.some.inj hx).symm) rest
      (Nat.lt_of_succ_le (by simpa [Tree.print] using len))
    refine ⟨fun v hv => ?_, fun no => ?_⟩
    · obtain ⟨s₁, found, at₁⟩ := inner.value v hv
      obtain ⟨s', closed, at'⟩ := fcv1_reads at₁.2 stop v
      refine ⟨s', ?_, at'⟩
      rw [factor, sym]
      dsimp only
      rw [found]
      exact (if_pos at₁.1).trans closed
    · rw [factor, sym]
      dsimp only
      rw [inner.fails no]
      rfl
  | sign o t =>
    obtain ⟨zero, -⟩ := good
    cases zero
  | bin o l r =>
    obtain ⟨i, level, le, -⟩ := good
    cases o <;> cases level <;> exact absurd le (by decide)

/-! ### The loops -/

/-- The operand is read as far as the loop, which has `q` rounds left and the value so far. -/
structure Loops (vars : Vars) (operand : ℕ → St → R) (j : ℕ) (t : Tree) (us : List Tok) (r : R)
    (rest : ℕ × St → R) : Prop where
  value : ∀ v, t.wrapped = some v → ∃ q s, us.length ≤ q ∧ 0 < q ∧ At vars s us ∧
    r = loop (Op.on j) operand q v s >>= rest
  fails : t.wrapped = none → r = .error .ERROVF

theorem loop_on (ho : o.level = some j) (sym : s.sym = .op o) (q n : ℕ) :
    loop (Op.on j) operand (q + 1) n s = (do
      let s ← nextOperand s
      let (m, s) ← operand n s
      let v ← o.apply n m
      loop (Op.on j) operand q v s) := by
  have on : Op.on j o = true := by rw [Op.on, ho, beq_self_eq_true]
  rw [loop, sym]
  exact if_pos on

/-- What does not belong to the level ends the loop. -/
theorem loop_off (h : At vars s us) (hs : Stop j us) (hq : 0 < q) (n : ℕ) :
    loop (Op.on j) operand q n s = .ok (n, s) := by
  obtain ⟨q, rfl⟩ := Nat.exists_eq_succ_of_ne_zero (Nat.ne_of_gt hq)
  rw [loop]
  cases us with
  | nil => rw [show s.sym = .null from h]
  | cons x us =>
    obtain ⟨o, rfl, lt⟩ := hs x rfl
    rw [h.1]
    refine if_neg fun on => ?_
    exact absurd (lt j (eq_of_beq on)) (Nat.lt_irrefl j)

/-- One round of the loop. -/
theorem Loops.step {res : R} {rest : ℕ × St → R} (hr : Reads vars operand (j + 1) k) (ho : o.level = some j)
    (good : r.Good (j + 1)) (stop : Stop (j + 1) us) (len : (r.print ++ us).length ≤ k)
    (h : Loops vars operand j l (.op o :: (r.print ++ us)) res rest) :
    Loops vars operand j (.bin o l r) us res rest := by
  rcases hl : l.wrapped with _ | n
  · have no : (Tree.bin o l r).wrapped = none := congrArg (Option.bind · _) hl
    refine ⟨fun v hv => ?_, fun _ => h.fails hl⟩
    cases no.symm.trans hv
  obtain ⟨q, s, hq, -, at_, rfl⟩ := h.value n hl
  obtain ⟨q, rfl⟩ : ∃ q', q = q' + 1 :=
    Nat.exists_eq_succ_of_ne_zero fun zero => by
      rw [zero] at hq
      cases hq
  have value : (Tree.bin o l r).wrapped = r.wrapped.bind fun m => o.result wrap n m :=
    congrArg (Option.bind · _) hl
  rw [loop_on ho at_.1]
  have plain : (o == Op.lpar) = false := by cases o <;> first | rfl | cases ho
  have spelled := at_.2
  rw [plain] at spelled
  rcases nextOperand_found spelled with ⟨no, found⟩ | ⟨s₁, found, at₁⟩
  · rw [no] at value
    refine ⟨fun v hv => ?_, fun _ => ?_⟩
    · cases value.symm.trans hv
    · rw [found]
      rfl
  have operand' := hr r n s₁ us good stop at₁ len
  rw [found]
  rcases hm : r.wrapped with _ | m
  · rw [hm] at value
    refine ⟨fun v hv => ?_, fun _ => ?_⟩
    · cases value.symm.trans hv
    · change ((do
        let (m, s) ← operand n s₁
        let v ← o.apply n m
        loop (Op.on j) operand q v s) >>= rest) = _
      rw [operand'.fails hm]
      rfl
  obtain ⟨s₂, given, at₂⟩ := operand'.value m hm
  rw [hm] at value
  have shape : ((do
      let s ← (Except.ok s₁ : Except Err St)
      let (m, s) ← operand n s
      let v ← o.apply n m
      loop (Op.on j) operand q v s) >>= rest) = ((do
        let v ← reported (o.result wrap n m)
        loop (Op.on j) operand q v s₂) >>= rest) := by
    change ((do
      let (m, s) ← operand n s₁
      let v ← o.apply n m
      loop (Op.on j) operand q v s) >>= rest) = _
    rw [given, ← apply_eq ho (wrapped_lt hl) (wrapped_lt hm)]
    rfl
  rw [shape]
  refine ⟨fun v hv => ?_, fun no => ?_⟩
  · refine ⟨q, s₂, ?_, ?_, at₂, ?_⟩
    · simp only [List.length_cons, List.length_append] at hq
      omega
    · have some_symbols := List.length_pos_of_ne_nil r.print_ne_nil
      simp only [List.length_cons, List.length_append] at hq
      omega
    · rw [show o.result wrap n m = some v from value.symm.trans hv]
      rfl
  · rw [show o.result wrap n m = none from value.symm.trans no]
    rfl

/-- An operand alone. -/
theorem Gives.loops {res : R} {rest : ℕ × St → R} (h : Gives vars res t us) :
    Loops vars operand j t us (res >>= fun p => loop (Op.on j) operand (p.2.LNPTR.length + 1) p.1 p.2 >>= rest)
      rest where
  value := by
    intro v hv
    obtain ⟨s, rfl, at_⟩ := h.value v hv
    exact ⟨_, s, at_.LNPTR_length, Nat.succ_pos _, at_, rfl⟩
  fails := by
    intro no
    rw [h.fails no]
    rfl

/-- The operators of the level are taken from the left to the right. -/
theorem level_loops (hr : Reads vars operand (j + 1) k) (hj : 0 < j) (good : t.Good j)
    (stop : Stop (j + 1) us) (at_ : At vars s (t.print ++ us)) (len : (t.print ++ us).length ≤ k) (de : ℕ) :
    Loops vars operand j t us (operand de s >>= fun p =>
      loop (Op.on j) operand (p.2.LNPTR.length + 1) p.1 p.2 >>= .ok) .ok := by
  induction t generalizing us with
  | bin o l r ihl =>
    obtain ⟨i, level, le, hl, hr'⟩ := good
    rcases Nat.eq_or_lt_of_le le with rfl | lt
    · rw [Tree.print, List.append_assoc, List.cons_append] at at_ len
      have follows : Stop (j + 1) (.op o :: (r.print ++ us)) := by
        intro x hx
        obtain rfl := Option.some.inj hx
        exact ⟨o, rfl, fun i hi => Option.some.inj (level.symm.trans hi) ▸ Nat.lt_succ_self _⟩
      refine (ihl hl follows at_ len).step hr level hr' stop ?_
      simp only [List.length_cons, List.length_append] at len ⊢
      omega
    · exact (hr (.bin o l r) de s us ⟨i, level, lt, hl, hr'⟩ stop at_ len).loops
  | sign o t =>
    obtain ⟨rfl, -⟩ := good
    exact absurd hj (Nat.lt_irrefl 0)
  | num n => exact (hr (.num n) de s us trivial stop at_ len).loops
  | paren t => exact (hr (.paren t) de s us good stop at_ len).loops

theorem level_reads (hr : Reads vars operand (j + 1) k) (hj : 0 < j) :
    Reads vars (level (Op.on j) operand) j k := by
  intro t de s us good stop at_ len
  have loops := level_loops hr hj good (stop.mono (Nat.le_succ j)) at_ len de
  have same : level (Op.on j) operand de s = operand de s >>= fun p =>
      loop (Op.on j) operand (p.2.LNPTR.length + 1) p.1 p.2 >>= .ok := by
    rw [level]
    rcases operand de s with e | p
    · rfl
    · exact (bind_pure _).symm
  rw [same]
  refine ⟨fun v hv => ?_, loops.fails⟩
  obtain ⟨q, s', hq, pos, at', e⟩ := loops.value v hv
  refine ⟨s', ?_, at'⟩
  rw [e, loop_off at' stop pos]
  rfl

theorem lterm_reads (he : Evaluates vars eval k) : Reads vars (lterm vars eval) 1 k :=
  level_reads (level_reads (level_reads (factor_reads he) (by decide)) (by decide)) (by decide)

/-! ### Expressions -/

/-- The end of `exp3`. -/
def close (p : ℕ × St) : R :=
  if p.2.sym = .null ∨ p.2.sym = .op .rpar then .ok (p.1, p.2) else .error .CMDERR

theorem exp3_eq (n : ℕ) (s : St) : exp3 vars eval n s
    = loop (Op.on 0) (lterm vars eval) (s.LNPTR.length + 1) n s >>= close := rfl

/-- An operand of the first level does not begin with a sign. -/
theorem Tree.Good.unsigned (h : t.Good 1) (ho : t.print.head? = some (.op o)) : o.leads = false := by
  induction t with
  | num n => cases ho
  | paren t =>
    obtain rfl : Op.lpar = o := Tok.op.inj (Option.some.inj ho)
    rfl
  | sign o t =>
    obtain ⟨zero, -⟩ := h
    cases zero
  | bin o l r ihl =>
    obtain ⟨i, level, le, hl, hr⟩ := h
    refine ihl (hl.mono le) ?_
    obtain ⟨x, us, e⟩ := List.exists_cons_of_ne_nil l.print_ne_nil
    rw [Tree.print, e] at ho
    rw [e]
    exact ho

theorem ok_bind {α β : Type} (a : α) (f : α → Except Err β) : (Except.ok a >>= f) = f a := rfl

/-- `EVAL` of an expression whose first symbol is no sign. -/
theorem expr_unsigned (h : next (start line) = .ok s)
    (ho : ∀ o, s.sym = .op o → o.leads = false) (de : ℕ) :
    expr vars eval de line = lterm vars eval de s >>= fun p =>
      loop (Op.on 0) (lterm vars eval) (p.2.LNPTR.length + 1) p.1 p.2 >>= close := by
  rw [expr, h, ok_bind]
  cases sym : s.sym with
  | op o => exact if_neg (by rw [ho o sym]; exact Bool.false_ne_true)
  | _ => rfl

/-- `EVAL` of an expression with a sign. -/
theorem expr_signed (h : next (start line) = .ok s) (sym : s.sym = .op o)
    (ho : o.leads = true) (de : ℕ) :
    expr vars eval de line = nextOperand s >>= fun s => lterm vars eval de s >>= fun p =>
      loop (Op.on 0) (lterm vars eval) (p.2.LNPTR.length + 1) (o.sign p.1) p.2 >>= close := by
  rw [expr, h, ok_bind]
  rw [sym]
  exact if_pos ho

/-- The part before the first `!`. -/
theorem expr_first (hr : Reads vars (lterm vars eval) 1 k) (good : t.Good 0)
    (ho : ∀ l r, t = .bin .or l r → False) (stop : Stop 1 us) (h : Spells vars true line (t.print ++ us))
    (len : (t.print ++ us).length ≤ k) (de : ℕ) :
    Loops vars (lterm vars eval) 0 t us (expr vars eval de line) close := by
  by_cases signed : ∃ o t', t = .sign o t'
  · obtain ⟨o, t, rfl⟩ := signed
    obtain ⟨-, leads, good⟩ := good
    rcases first_found h with ⟨n, us', e, -⟩ | ⟨s, found, at_⟩
    · cases e
    have plain : (o == Op.lpar) = false := by cases o <;> first | rfl | cases leads
    have spelled := at_.2
    rw [plain] at spelled
    have value : (Tree.sign o t).wrapped = t.wrapped.map o.complement := rfl
    rw [expr_signed found at_.1 leads]
    rcases nextOperand_found spelled with ⟨no, found⟩ | ⟨s₁, found, at₁⟩
    · refine ⟨fun v hv => ?_, fun _ => ?_⟩
      · rw [value, no] at hv
        cases hv
      · rw [found]
        rfl
    have given := hr t de s₁ us good stop at₁ (Nat.le_of_succ_le len)
    rw [found]
    refine ⟨fun v hv => ?_, fun no => ?_⟩
    · obtain ⟨n, hn, rfl⟩ := Option.map_eq_some_iff.mp (value.symm.trans hv)
      obtain ⟨s₂, ok, at₂⟩ := given.value n hn
      refine ⟨s₂.LNPTR.length + 1, s₂, at₂.LNPTR_length, Nat.succ_pos _, at₂, ?_⟩
      rw [← sign_eq (o := o) (wrapped_lt hn)]
      change (lterm vars eval de s₁ >>= _) = _
      rw [ok]
      rfl
    · change (lterm vars eval de s₁ >>= _) = _
      rw [given.fails (Option.map_eq_none_iff.mp (value.symm.trans no))]
      rfl
  · have good₁ : t.Good 1 := by
      cases t with
      | num n => trivial
      | paren t => exact good
      | sign o t => exact absurd ⟨o, t, rfl⟩ signed
      | bin o l r =>
        obtain ⟨i, level, -, hl, hr⟩ := good
        refine ⟨i, level, Nat.pos_of_ne_zero fun zero => ?_, hl, hr⟩
        subst zero
        cases o <;> first | exact ho l r rfl | cases level
    obtain ⟨x, l, e⟩ := List.exists_cons_of_ne_nil t.print_ne_nil
    rcases first_found h with ⟨n, us', hu, hn, found⟩ | ⟨s, found, at_⟩
    · rw [e] at hu
      obtain ⟨rfl, -⟩ := List.cons.inj hu
      have no : t.wrapped = none := wrapped_big (by rw [e]; rfl) hn
      refine ⟨fun v hv => ?_, fun _ => ?_⟩
      · cases no.symm.trans hv
      · rw [expr, found]
        rfl
    · have unsigned : ∀ o, s.sym = .op o → o.leads = false := by
        intro o sym
        refine good₁.unsigned ?_
        rw [e] at at_ ⊢
        cases x with
        | num n =>
          rcases at_.2.1 with sym' | ⟨name, special, v, sym', -⟩
          · cases sym.symm.trans sym'
          · cases sym.symm.trans sym'
        | op o' =>
          obtain rfl := Sym.op.inj (sym.symm.trans at_.1)
          rfl
      rw [expr_unsigned found unsigned]
      exact (hr t de s us good₁ stop at_ len).loops

theorem expr_loops (hr : Reads vars (lterm vars eval) 1 k) (good : t.Good 0) (stop : Stop 1 us)
    (h : Spells vars true line (t.print ++ us)) (len : (t.print ++ us).length ≤ k) (de : ℕ) :
    Loops vars (lterm vars eval) 0 t us (expr vars eval de line) close := by
  induction t generalizing us with
  | bin o l r ihl =>
    by_cases or : o = .or
    · subst or
      obtain ⟨i, level, -, hl, hr'⟩ := good
      obtain rfl : 0 = i := Option.some.inj level
      rw [Tree.print, List.append_assoc, List.cons_append] at h len
      have follows : Stop 1 (.op .or :: (r.print ++ us)) := by
        intro x hx
        obtain rfl := Option.some.inj hx
        exact ⟨.or, rfl, fun i hi => Option.some.inj hi ▸ Nat.one_pos⟩
      refine (ihl hl follows h len).step hr level hr' stop ?_
      simp only [List.length_cons, List.length_append] at len ⊢
      omega
    · exact expr_first hr good (fun l' r' e => or (Tree.bin.inj e).1) stop h len de
  | num n => exact expr_first hr good (fun l r e => by cases e) stop h len de
  | paren t => exact expr_first hr good (fun l r e => by cases e) stop h len de
  | sign o t => exact expr_first hr good (fun l r e => by cases e) stop h len de

theorem expr_evaluates (he : Evaluates vars eval k) : Evaluates vars (expr vars eval) (k + 1) := by
  intro t de line us good ends h len
  have stop : Stop 0 us := by
    intro x hx
    obtain rfl := ends x hx
    exact ⟨.rpar, rfl, fun i hi => by cases hi⟩
  have loops := expr_loops (lterm_reads he) good (stop.mono (Nat.zero_le 1)) h
    (Nat.le_of_lt_succ len) de
  refine ⟨fun v hv => ?_, loops.fails⟩
  obtain ⟨q, s, hq, pos, at_, e⟩ := loops.value v hv
  refine ⟨s, ?_, at_⟩
  rw [e, loop_off at_ stop pos]
  have closed : s.sym = .null ∨ s.sym = .op .rpar := by
    cases us with
    | nil => exact Or.inl at_
    | cons x us =>
      obtain rfl := ends x rfl
      exact Or.inr at_.1
  exact if_pos closed

/-- Brackets of less than `k` levels are evaluated. -/
theorem EVALn_evaluates (vars : Vars) (k : ℕ) : Evaluates vars (EVALn vars k) k := by
  induction k with
  | zero => exact fun t de line us _ _ _ len => absurd len (Nat.not_lt_zero _)
  | succ k ih => exact expr_evaluates ih

end

end RSX280.Icp
