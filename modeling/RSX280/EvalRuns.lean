import RSX280.Eval

/-!
# Expressions and the two stacks

The machine of `EVAL` follows the operator precedence parser: `OPSTK` holds the operators of its
frames, `VALSTK` the values of the trees to their left. `exprs_settled` draws the conclusion for
sequences in which operands and operators alternate and `OPSTK` does not overflow: the errors tell
exactly the well formed expressions, and their value is that of the tree the precedences ask for.
Neither is checked by the code.
-/

namespace RSX280.Eval

open Precedence

/-- The expressions of the assembler. A prefix `+` is no operator for the code: it binds tightest
here and does nothing. -/
abbrev Expr := Tree Operand (Option UOp) BOp
abbrev Hole := Frame Operand (Option UOp) BOp
abbrev Symbol := Tok Operand (Option UOp) BOp

def prec : Option UOp ⊕ BOp → ℕ
  | .inl none => 9
  | .inl (some o) => o.prec
  | .inr o => o.prec

/-- An expression evaluated, the last operand's mode and the errors passed along. -/
def eval : Expr → Side → (ℕ × Mode) × Side
  | .leaf a, s => a.store s
  | .par t, s => eval t s
  | .pre none t, s => eval t s
  | .pre (some o) t, s =>
    let r := eval t s
    let q := o.run r.1.1 { r.2 with OPMODE := r.1.2 }
    ((q.1, .zero), q.2)
  | .bin o l r, s =>
    let a := eval l s
    let b := eval r a.2
    let q := o.mode b.1.1 a.1.2 { b.2 with OPMODE := b.1.2 }
    ((o.value a.1.1 b.1.1, q.1), q.2)

/-- The values of the trees on the left, the last one first. -/
def lefts : List Hole → Side → List (ℕ × Mode) × Side
  | [], s => ([], s)
  | .bin _ l :: F, s =>
    let r := lefts F s
    let a := eval l r.2
    (a.1 :: r.1, a.2)
  | .pre _ :: F, s => lefts F s
  | .par :: F, s => lefts F s

/-- The operators of the frames. -/
def entries : List Hole → List Entry
  | [] => []
  | .par :: F => .lpar :: entries F
  | .pre none :: F => entries F
  | .pre (some o) :: F => .un o :: entries F
  | .bin o _ :: F => .bin o :: entries F

/-- The operands of a state of the parser. -/
def image (s : Side) (F : List Hole) (c : Option Expr) : Vals :=
  let r := lefts F s
  match c with
  | none => { VALSTK := r.1, side := r.2 }
  | some t => { VALSTK := (eval t r.2).1 :: r.1, side := (eval t r.2).2 }

/-- The number of operands the frames keep. -/
def width : List Hole → ℕ
  | [] => 0
  | .bin _ _ :: F => width F + 1
  | _ :: F => width F

attribute [local grind =] width

@[simp] theorem lefts_length (F : List Hole) (s : Side) : (lefts F s).1.length = width F := by
  induction F with
  | nil => rfl
  | cons f F ih =>
    rcases f with _ | (_ | o) | ⟨o, l⟩
    · exact ih
    · exact ih
    · exact ih
    · exact congrArg (· + 1) ih

theorem STKPUSH_lt {α : Type} {x : α} {stk : List α} (h : stk.length < OSTKSZ) :
    STKPUSH x stk = (x :: stk, false) := if_neg (Nat.ne_of_lt h)

/-- Applying the upper operator is filling the upper frame. -/
theorem APPLY_un {s : Side} {F : List Hole} {t : Expr} (o : UOp) (h : width F < OSTKSZ) :
    APPLY1 o (image s F (some t)) = image s F (some (.pre (some o) t)) := by
  simp only [APPLY1, image, eval]
  rw [STKPUSH_lt (by rwa [lefts_length])]

theorem APPLY_bin {s : Side} {F : List Hole} {l t : Expr} (o : BOp) (h : width F < OSTKSZ) :
    APPLY2 o (image s (.bin o l :: F) (some t)) = image s F (some (.bin o l t)) := by
  simp only [APPLY2, image, eval, lefts]
  rw [STKPUSH_lt (by rwa [lefts_length])]

/-- The loop of `EVAL27` does what the parser does to its frames. -/
theorem EVAL27_image {s : Side} {h : ℕ} {F : List Hole} {t : Expr} (hw : width F < OSTKSZ)
    (hh : h ≤ 9) :
    EVAL27 h (entries F) (image s F (some t))
      = (entries (reduce prec h F t).1,
        image s (reduce prec h F t).1 (some (reduce prec h F t).2)) := by
  induction F generalizing t with
  | nil => rfl
  | cons f F ih =>
    rcases f with _ | (_ | o) | ⟨o, l⟩
    · rfl
    · rw [reduce, if_pos (show h ≤ prec (.inl none) from hh)]
      exact ih (t := .pre none t) hw
    · have applied : APPLY1 o (image s (.pre (some o) :: F) (some t))
          = image s F (some (.pre (some o) t)) := APPLY_un o hw
      rw [reduce, entries, EVAL27_un]
      by_cases le : h ≤ o.prec
      · rw [if_pos (show h ≤ prec (.inl (some o)) from le), if_neg (Nat.not_lt_of_le le), applied]
        exact ih hw
      · rw [if_neg (show ¬ h ≤ prec (.inl (some o)) from le), if_pos (Nat.lt_of_not_le le)]
        rfl
    · have hw' : width F < OSTKSZ := Nat.lt_of_succ_lt hw
      rw [reduce, entries, EVAL27_bin]
      by_cases le : h ≤ o.prec
      · rw [if_pos (show h ≤ prec (.inr o) from le), if_neg (Nat.not_lt_of_le le), APPLY_bin o hw']
        exact ih hw'
      · rw [if_neg (show ¬ h ≤ prec (.inr o) from le), if_pos (Nat.lt_of_not_le le)]
        rfl

theorem EVAL6_eq (S : List Entry) (v : Vals) : EVAL6 S v = EVAL27 0 S v := by
  induction S generalizing v with
  | nil => rfl
  | cons e S ih =>
    cases e with
    | lpar => rfl
    | un o => rw [EVAL6_un, EVAL27_un, if_neg (Nat.not_lt_zero _), ih]
    | bin o => rw [EVAL6_bin, EVAL27_bin, if_neg (Nat.not_lt_zero _), ih]

theorem EVAL6_image {s : Side} {F : List Hole} {t : Expr} (hw : width F < OSTKSZ) :
    EVAL6 (entries F) (image s F (some t))
      = (entries (reduce prec 0 F t).1,
        image s (reduce prec 0 F t).1 (some (reduce prec 0 F t).2)) := by
  rw [EVAL6_eq]
  exact EVAL27_image hw (Nat.zero_le 9)

/-! ### How an expression reads -/

/-- A symbol of the line where an operand is expected, and where one has been read. -/
def reads : Bool → Sym → Option Symbol
  | true, .val a => some (.val a)
  | true, .lpar => some .lpar
  | true, .plus => some (.pre none)
  | true, .minus => some (.pre (some .UMIN))
  | true, .un o => some (.pre (some o))
  | false, .plus => some (.bin .BADD)
  | false, .minus => some (.bin .BSUB)
  | false, .bin o => some (.bin o)
  | false, .rpar => some .rpar
  | _, _ => none

/-- After an operand or a right bracket an operator follows. -/
def after : Symbol → Bool
  | .val _ | .rpar => false
  | _ => true

/-- A sequence of symbols read as those of the grammar. -/
def readsAll : Bool → List Sym → Option (List Symbol)
  | _, [] => some []
  | b, x :: xs => (reads b x).bind fun k => (readsAll (after k) xs).map (k :: ·)

/-- A comma, a right bracket that nothing opened, or a character the scanner does not know. -/
def stops : Sym → Bool
  | .comma | .rpar | .other => true
  | _ => false

/-- What ends an expression: the end of the line, or a symbol that stops it. -/
def Ends : List Sym → Prop
  | [] => True
  | x :: _ => stops x = true

/-- `ts` begins with the expression `t`, and `rest` is left for the caller. -/
structure Parses (ts : List Sym) (t : Expr) (rest : List Sym) : Prop where
  good : t.Good prec
  read : ∃ us, ts = us ++ rest ∧ readsAll true us = some t.print
  ends : Ends rest

/-- The operand stack an expression takes. -/
def need : Expr → ℕ
  | .leaf _ => 1
  | .par t => need t
  | .pre _ t => need t
  | .bin _ l r => max (need l) (need r + 1)

/-- The expression in front of `rest`, when all its brackets are closed. -/
def finish (rest : List Sym) : List Hole × Option Expr → Option (Expr × List Sym)
  | (F, some t) => match reduce prec 0 F t with
    | ([], t) => some (t, rest)
    | _ => none
  | (_, none) => none

/-- The parser over the symbols of the line, up to the end of the expression. -/
def parse : List Sym → List Hole × Option Expr → Option (Expr × List Sym)
  | [], s => finish [] s
  | x :: ts, s =>
    match (reads s.2.isNone x).bind (step prec s) with
    | some s => parse ts s
    | none => if stops x then finish (x :: ts) s else none

theorem step_after {s s' : List Hole × Option Expr} {k : Symbol} (h : step prec s k = some s') :
    s'.2.isNone = after k := by
  obtain ⟨F, c⟩ := s
  rcases c with _ | t <;> rcases k with a | _ | _ | o | o
  case none.val => obtain rfl := Option.some.inj h; rfl
  case none.lpar => obtain rfl := Option.some.inj h; rfl
  case none.pre => obtain rfl := Option.some.inj h; rfl
  case some.bin => obtain rfl := Option.some.inj h; rfl
  case some.rpar =>
    unfold step at h
    dsimp only at h
    split at h
    · obtain rfl := Option.some.inj h
      rfl
    · cases h
  all_goals cases h

attribute [local grind =] parse

theorem parse_step {x : Sym} {ts : List Sym} {s s' : List Hole × Option Expr} {k : Symbol}
    (hr : reads s.2.isNone x = some k) (hs : step prec s k = some s') :
    parse (x :: ts) s = parse ts s' := by
  have bound : (reads s.2.isNone x).bind (step prec s) = some s' := by rw [hr]; exact hs
  rw [parse, bound]

/-- A symbol that is none of the expression ends it. -/
theorem parse_stop {x : Sym} {ts : List Sym} {s : List Hole × Option Expr}
    (h : (reads s.2.isNone x).bind (step prec s) = none) (hx : stops x = true) :
    parse (x :: ts) s = finish (x :: ts) s := by
  rw [parse, h]
  exact if_pos hx

/-- What is read symbol by symbol is read by the parser. -/
theorem parse_reads {us rest : List Sym} {ks : List Symbol} {s s' : List Hole × Option Expr}
    (hr : readsAll s.2.isNone us = some ks) (hs : steps prec s ks = some s') :
    parse (us ++ rest) s = parse rest s' := by
  induction us generalizing s ks with
  | nil =>
    obtain rfl := Option.some.inj hr
    obtain rfl := Option.some.inj hs
    rfl
  | cons x us ih =>
    obtain ⟨k, first, more⟩ := Option.bind_eq_some_iff.mp hr
    obtain ⟨ks, all, rfl⟩ := Option.map_eq_some_iff.mp more
    rw [steps_cons] at hs
    obtain ⟨t, once, run⟩ := Option.bind_eq_some_iff.mp hs
    rw [← step_after once] at all
    rw [List.cons_append, parse_step first once]
    exact ih all run

/-- The expression at the beginning of a sequence is found. -/
theorem Parses.parse {ts rest : List Sym} {t : Expr} (h : Parses ts t rest) :
    parse ts ([], none) = some (t, rest) := by
  obtain ⟨good, ⟨us, rfl, read⟩, ends⟩ := h
  have run := steps_print (F := []) good trivial
  rw [List.append_nil] at run
  have whole : finish rest (t.pend, some t.last) = some (t, rest) := by
    rw [finish, reduce_print]
  have start : readsAll (([], none) : List Hole × Option Expr).2.isNone us = some t.print := read
  rw [parse_reads start run]
  cases rest with
  | nil => exact whole
  | cons x rest =>
    have stuck : (reads (t.pend, some t.last).2.isNone x).bind (step prec (t.pend, some t.last))
        = none := by
      cases x with
      | rpar =>
        show step prec (t.pend, some t.last) .rpar = none
        rw [step, reduce_print]
      | comma | other => rfl
      | _ => cases ends
    rw [parse_stop stuck ends]
    exact whole

theorem finish_sound {ts rest : List Sym} {t : Expr} {s : List Hole × Option Expr}
    (hi : Inv prec s) (h : finish ts s = some (t, rest)) :
    t.Good prec ∧ rest = ts ∧ read s = t.print := by
  obtain ⟨F, _ | c⟩ := s
  · cases h
  · unfold finish at h
    dsimp only at h
    split at h
    · next c' hR =>
      obtain ⟨rfl, rfl⟩ := Prod.mk.inj (Option.some.inj h)
      obtain ⟨good, print⟩ := hi.tree hR
      exact ⟨good, rfl, print⟩
    · cases h

/-- The parser finds nothing else. -/
theorem parse_sound {ts rest : List Sym} {t : Expr} {s : List Hole × Option Expr}
    (hi : Inv prec s) (h : parse ts s = some (t, rest)) :
    t.Good prec ∧ Ends rest ∧ ∃ us ks, ts = us ++ rest ∧ readsAll s.2.isNone us = some ks
      ∧ read s ++ ks = t.print := by
  induction ts generalizing s with
  | nil =>
    obtain ⟨good, rfl, print⟩ := finish_sound hi h
    exact ⟨good, trivial, [], [], rfl, rfl, (List.append_nil _).trans print⟩
  | cons x ts ih =>
    unfold parse at h
    split at h
    · next s' hb =>
      obtain ⟨k, hr, hs⟩ := Option.bind_eq_some_iff.mp hb
      obtain ⟨hi', once⟩ := hi.step hs
      obtain ⟨good, ends, us, ks, rfl, all, print⟩ := ih hi' h
      rw [step_after hs] at all
      refine ⟨good, ends, x :: us, k :: ks, rfl, ?_, ?_⟩
      · rw [readsAll, hr, Option.bind_some, all, Option.map_some]
      · rw [← print, once, List.append_assoc, List.singleton_append]
    · split at h
      · next hx =>
        obtain ⟨good, rfl, print⟩ := finish_sound hi h
        exact ⟨good, hx, [], [], rfl, rfl, (List.append_nil _).trans print⟩
      · cases h

/-- The parser decides whether a sequence begins with an expression. -/
theorem parses_iff {ts rest : List Sym} {t : Expr} :
    Parses ts t rest ↔ parse ts ([], none) = some (t, rest) := by
  refine ⟨Parses.parse, fun h => ?_⟩
  obtain ⟨good, ends, us, ks, rfl, all, print⟩ := parse_sound .start h
  exact ⟨good, ⟨us, rfl, print ▸ all⟩, ends⟩

/-! ### The room the operands take -/

/-- The most operands there were while the trees on the left were read. -/
def space : List Hole → ℕ
  | [] => 0
  | .bin _ l :: F => max (space F) (width F + need l)
  | _ :: F => space F

/-- The operands fit: those kept, and those of the expression read last. -/
structure Fits (s : List Hole × Option Expr) : Prop where
  before : space s.1 ≤ OSTKSZ
  kept : width s.1 ≤ OSTKSZ
  last : ∀ t ∈ s.2, width s.1 + need t ≤ OSTKSZ

/-- The operands a state takes in the end, one more when an operand is expected. -/
def needs : List Hole × Option Expr → ℕ
  | (F, none) => max (space F) (width F + 1)
  | (F, some t) => max (space F) (width F + need t)

attribute [local grind =] space

theorem need_pos (t : Expr) : 0 < need t := by
  induction t with
  | leaf a => exact Nat.one_pos
  | par t ih => exact ih
  | pre o t ih => exact ih
  | bin o l r _ _ =>
    rw [need]
    omega

theorem reduce_needs (h : ℕ) (F : List Hole) (t : Expr) :
    needs ((reduce prec h F t).1, some (reduce prec h F t).2) = needs (F, some t) := by
  induction F generalizing t with
  | nil => rfl
  | cons f F ih =>
    cases f with
    | par => rfl
    | pre o =>
      unfold reduce
      split
      · exact ih (.pre o t)
      · rfl
    | bin o l =>
      unfold reduce
      split
      · rw [ih (.bin o l t)]
        simp only [needs, need, space, width]
        omega
      · rfl

theorem step_needs {s s' : List Hole × Option Expr} {k : Symbol} (h : step prec s k = some s') :
    needs s ≤ needs s' := by
  obtain ⟨F, _ | t⟩ := s
  · rcases k with a | _ | _ | o | o
    case val => obtain rfl := Option.some.inj h; exact Nat.le_refl _
    case lpar => obtain rfl := Option.some.inj h; exact Nat.le_refl _
    case pre => obtain rfl := Option.some.inj h; exact Nat.le_refl _
    all_goals cases h
  · rcases k with a | _ | _ | o | o
    case bin =>
      obtain rfl := Option.some.inj h
      rw [← reduce_needs (prec (.inr o)) F t]
      simp only [needs, space, width]
      omega
    case rpar =>
      unfold step at h
      dsimp only at h
      split at h
      · next F' t' hR =>
        obtain rfl := Option.some.inj h
        rw [← reduce_needs 0 F t, hR]
        exact Nat.le_refl _
      · cases h
    all_goals cases h

theorem finish_needs {ts rest : List Sym} {t : Expr} {s : List Hole × Option Expr}
    (h : finish ts s = some (t, rest)) : needs s = need t := by
  obtain ⟨F, _ | c⟩ := s
  · cases h
  · unfold finish at h
    dsimp only at h
    split at h
    · next c' hR =>
      obtain ⟨rfl, _⟩ := Prod.mk.inj (Option.some.inj h)
      rw [← reduce_needs 0 F c, hR]
      simp only [needs, space, width]
      omega
    · cases h

theorem parse_needs {ts rest : List Sym} {t : Expr} {s : List Hole × Option Expr}
    (h : parse ts s = some (t, rest)) : needs s ≤ need t := by
  induction ts generalizing s with
  | nil => exact Nat.le_of_eq (finish_needs h)
  | cons x ts ih =>
    unfold parse at h
    split at h
    · next s' hb =>
      obtain ⟨k, _, hs⟩ := Option.bind_eq_some_iff.mp hb
      exact Nat.le_trans (step_needs hs) (ih h)
    · split at h
      · exact Nat.le_of_eq (finish_needs h)
      · cases h

theorem fits_reduce {F : List Hole} {t : Expr} (h : ℕ) (hf : Fits (F, some t)) :
    Fits ((reduce prec h F t).1, some (reduce prec h F t).2) := by
  have same := reduce_needs h F t
  have here := hf.last t rfl
  have before := hf.before
  have pos := need_pos (reduce prec h F t).2
  simp only [needs] at same here before
  refine ⟨?_, ?_, ?_⟩
  · show space (reduce prec h F t).1 ≤ OSTKSZ
    omega
  · show width (reduce prec h F t).1 ≤ OSTKSZ
    omega
  · rintro c ⟨⟩
    show width (reduce prec h F t).1 + _ ≤ OSTKSZ
    omega

/-! ### Alternation -/

/-- An expression may end here: after an operand, or with operators that will miss theirs. -/
def mayEnd (void : Bool) : List Hole × Option Expr → Bool
  | (_, some _) => true
  | (F, none) => !(entries F).isEmpty || !void

/-- An expression may stop at a symbol that is none of it. A named operator in place of a binary one
is an error by itself, and what is behind it is not read. -/
def mayStop (void : Bool) (s : List Hole × Option Expr) : Sym → Bool
  | .comma => mayEnd void s
  | .other => mayEnd true s
  | .rpar => s.2.isSome
  | .un _ => true
  | _ => false

/-- Operands and operators alternate, and there is room for the operators on `OPSTK`. -/
def careful : List Sym → Bool → List Hole × Option Expr → Bool
  | [], void, s => mayEnd void s
  | x :: ts, void, s =>
    match (reads s.2.isNone x).bind (step prec s) with
    | some s' => decide ((entries s'.1).length ≤ OSTKSZ) && careful ts true s'
    | none => mayStop void s x

/-- The errors of an expression that is none. -/
def Failed (r : Res) : Prop := .E ∈ r.errs ∨ .O ∈ r.errs

/-- The return with an expression. -/
def Res.ok (t : Expr) (s : Side) (rest : List Sym) : Res :=
  { rest, errs := (eval t s).2.errs, result := some (eval t s).1, CMNPTR := (eval t s).2.OPCOMN }

/-- What `EVAL` returns for the symbols `ts` in a state of the parser. -/
structure Outcome (ts : List Sym) (s : List Hole × Option Expr) (s₀ : Side) (r : Res) : Prop where
  found : ∀ t rest, parse ts s = some (t, rest) → need t ≤ OSTKSZ → r = .ok t s₀ rest
  failed : (∀ t rest, parse ts s = some (t, rest) → OSTKSZ < need t) → Failed r

/-- The machine is in a state of the parser. -/
structure Sim (s₀ : Side) (st : St) (s : List Hole × Option Expr) : Prop where
  ops : st.OPSTK = entries s.1
  vals : st.vals = image s₀ s.1 s.2
  unary : st.UNARY = s.2.isNone

theorem Failed.of_head {rest : List Sym} {s : Side} : Failed (.fail rest (EXPERR s)) :=
  .inl List.mem_cons_self

/-! ### The operand that is missing -/

/-- Errors of relocation and division have been set, and none was taken back. -/
def Adds (s s' : Side) : Prop :=
  ∃ new, s'.errs = new ++ s.errs ∧ ∀ e ∈ new, e = Err.R ∨ e = Err.Z

section adds

variable {s s' : Side} {e : Err}

theorem Adds.mem (h : Adds s s') (he : e ∈ s.errs) : e ∈ s'.errs := by
  obtain ⟨new, same, _⟩ := h
  rw [same]
  exact List.mem_append_right _ he

theorem Adds.of_mem (h : Adds s s') (he : e ∈ s'.errs) : e ∈ s.errs ∨ e = .R ∨ e = .Z := by
  obtain ⟨new, same, kinds⟩ := h
  rw [same] at he
  rcases List.mem_append.mp he with h | h
  · exact .inr (kinds e h)
  · exact .inl h

theorem Adds.refl (s : Side) : Adds s s := ⟨[], rfl, fun _ h => nomatch h⟩

theorem Adds.trans {s'' : Side} (h : Adds s s') (h' : Adds s' s'') : Adds s s'' := by
  obtain ⟨new, same, kinds⟩ := h
  obtain ⟨new', same', kinds'⟩ := h'
  refine ⟨new' ++ new, by rw [same', same, List.append_assoc], fun e he => ?_⟩
  rcases List.mem_append.mp he with h | h
  · exact kinds' e h
  · exact kinds e h

theorem Adds.cons (s : Side) (h : e = .R ∨ e = .Z) : Adds s { s with errs := e :: s.errs } :=
  ⟨[e], rfl, fun _ hx => List.mem_singleton.mp hx ▸ h⟩

theorem Adds.ite {c : Prop} [Decidable c] {t u : Side} (h : Adds s t) (h' : Adds s u) :
    Adds s (if c then t else u) := by
  split
  · exact h
  · exact h'

theorem RELERR_adds (s : Side) : Adds s (RELERR s) := .cons s (.inl rfl)

theorem UNARYM_adds (s : Side) : Adds s (UNARYM s) := .ite (.refl s) (RELERR_adds s)

theorem MIXM_adds (ev : Mode) (s : Side) : Adds s (MIXM ev s) := .ite (.refl s) (RELERR_adds s)

theorem SUBEX_adds (s : Side) : Adds s (SUBEX s) := .ite (RELERR_adds s) (.refl s)

theorem COMNM_adds (de : ℕ) (s : Side) : Adds s (COMNM de s) :=
  .ite (.refl s) (.ite (.refl s) (.ite (.refl s) (.ite (.refl s) (RELERR_adds s))))

theorem SUBM_adds (ev : Mode) (s : Side) : Adds s (SUBM ev s).2 := by
  unfold SUBM
  dsimp only
  split
  · exact SUBEX_adds s
  · split
    · exact (SUBEX_adds s).trans (RELERR_adds _)
    · exact SUBEX_adds s

theorem ADDEX_adds (ev : Mode) (s : Side) : Adds s (ADDEX ev s).2 := by
  unfold ADDEX
  split
  · split
    · exact RELERR_adds s
    · exact .refl s
  · exact .refl s

theorem ADDM_adds (ev : Mode) (s : Side) : Adds s (ADDM ev s).2 := by
  unfold ADDM
  dsimp only
  split
  · exact ADDEX_adds ev s
  · split
    · exact (ADDEX_adds ev s).trans (RELERR_adds _)
    · exact ADDEX_adds ev s

theorem run_adds (o : UOp) (hl : ℕ) (s : Side) : Adds s (o.run hl s).2 := by
  cases o <;> exact UNARYM_adds s

theorem mode_adds (o : BOp) (hl : ℕ) (ev : Mode) (s : Side) : Adds s (o.mode hl ev s).2 := by
  cases o with
  | BADD => exact ADDM_adds ev s
  | BSUB | BEQ | BNE | BLT | BLE | BGT | BGE | BLESS => exact SUBM_adds ev s
  | BSHR | BSHL => exact UNARYM_adds s
  | BMULT | BAND | BOR | BXOR => exact MIXM_adds ev s
  | BDIV | BMOD =>
    exact .ite ((MIXM_adds ev s).trans (.cons _ (.inr rfl))) (MIXM_adds ev s)

end adds

theorem APPLY1_errs {e : Err} {o : UOp} {v : Vals} (h : e ∈ v.side.errs) :
    e ∈ (APPLY1 o v).side.errs := by
  unfold APPLY1
  split
  · exact List.mem_cons_of_mem _ h
  · exact (run_adds _ _ _).mem h

theorem APPLY2_errs {e : Err} {o : BOp} {v : Vals} (h : e ∈ v.side.errs) :
    e ∈ (APPLY2 o v).side.errs := by
  unfold APPLY2
  split
  · exact List.mem_cons_of_mem _ h
  · dsimp only
    split
    · exact List.mem_cons_of_mem _ h
    · exact (mode_adds _ _ _ _).mem h

theorem EVAL6_errs {e : Err} {S : List Entry} {v : Vals} (h : e ∈ v.side.errs) :
    e ∈ (EVAL6 S v).2.side.errs := by
  induction S generalizing v with
  | nil => exact h
  | cons x S ih =>
    cases x with
    | lpar => exact h
    | un o => exact ih (APPLY1_errs h)
    | bin o => exact ih (APPLY2_errs h)

theorem STKPUSH_length_le {α : Type} (x : α) (stk : List α) :
    (STKPUSH x stk).1.length ≤ stk.length + 1 := by
  unfold STKPUSH
  split
  · exact Nat.le_succ _
  · exact Nat.le_refl _

/-- The binary operators of the stack. -/
def bins : List Entry → ℕ
  | [] => 0
  | .bin _ :: S => bins S + 1
  | _ :: S => bins S

/-- With an operand less than the operators ask for, one of them does not find it. -/
theorem EVAL6_missing {S : List Entry} {v : Vals} (h : v.VALSTK.length ≤ bins S) (hne : S ≠ []) :
    (EVAL6 S v).1 ≠ [] ∨ .E ∈ (EVAL6 S v).2.side.errs := by
  induction S generalizing v with
  | nil => exact absurd rfl hne
  | cons x S ih =>
    cases x with
    | lpar => exact .inl (List.cons_ne_nil _ _)
    | un o =>
      rw [EVAL6_un]
      cases hv : v.VALSTK with
      | nil =>
        refine .inr (EVAL6_errs ?_)
        rw [APPLY1, hv]
        exact List.mem_cons_self
      | cons x stk =>
        rw [hv] at h
        have here : (APPLY1 o v).VALSTK.length ≤ bins S := by
          rw [APPLY1, hv]
          exact Nat.le_trans (STKPUSH_length_le _ _) h
        refine ih here ?_
        rintro rfl
        exact absurd h (Nat.not_succ_le_zero _)
    | bin o =>
      rw [EVAL6_bin]
      cases hv : v.VALSTK with
      | nil =>
        refine .inr (EVAL6_errs ?_)
        rw [APPLY2, hv]
        exact List.mem_cons_self
      | cons x stk =>
        cases stk with
        | nil =>
          refine .inr (EVAL6_errs ?_)
          rw [APPLY2, hv]
          exact List.mem_cons_self
        | cons y stk =>
          rw [hv] at h
          have here : (APPLY2 o v).VALSTK.length ≤ bins S := by
            rw [APPLY2, hv]
            exact Nat.le_trans (STKPUSH_length_le _ _) (Nat.le_of_succ_le_succ h)
          refine ih here ?_
          rintro rfl
          exact absurd (Nat.le_of_succ_le_succ h) (Nat.not_succ_le_zero _)

theorem bins_entries (F : List Hole) : bins (entries F) = width F := by
  induction F with
  | nil => rfl
  | cons f F ih =>
    rcases f with _ | (_ | o) | ⟨o, l⟩
    · exact ih
    · exact ih
    · exact ih
    · exact congrArg (· + 1) ih

/-! ### The end of an expression -/

theorem room_of_fits {F : List Hole} {t : Expr} (hf : Fits (F, some t)) : width F < OSTKSZ := by
  have here := hf.last t rfl
  have pos := need_pos t
  exact Nat.lt_of_lt_of_le (Nat.lt_add_of_pos_right pos) here


section ends

variable {s₀ : Side} {st : St} {rest : List Sym}

/-- The operands that are there do not make up for the one that is missing. -/
theorem EVAL5_missing {F : List Hole} (hs : Sim s₀ st (F, none))
    (h : mayEnd st.VOID (F, none) = true) : Failed (EVAL5 st rest) := by
  unfold EVAL5
  cases hv : st.VOID with
  | false => exact .inr List.mem_cons_self
  | true =>
    have left : entries F ≠ [] := by
      rintro empty
      rw [mayEnd, empty, hv] at h
      exact absurd h Bool.false_ne_true
    have missing := EVAL6_missing (S := entries F) (v := image s₀ F none)
      (by rw [bins_entries, image, lefts_length]) left
    rw [hs.ops, hs.vals, if_pos rfl]
    rcases hR : EVAL6 (entries F) (image s₀ F none) with ⟨S, v⟩
    rw [hR] at missing
    cases S with
    | cons e S => exact .of_head
    | nil =>
      have E : .E ∈ v.side.errs := missing.resolve_left fun h => h rfl
      dsimp only
      split
      · exact .inl E
      · exact .inl E
      · exact .of_head

/-- After an operand the brackets decide. -/
theorem EVAL5_outcome (rest : List Sym) {F : List Hole} {t : Expr} (hs : Sim s₀ st (F, some t))
    (hf : Fits (F, some t)) (hv : st.VOID = true) :
    (∀ t' rest', finish rest (F, some t) = some (t', rest') → EVAL5 st rest = .ok t' s₀ rest')
      ∧ (finish rest (F, some t) = none → Failed (EVAL5 st rest)) := by
  have all := EVAL6_image (s := s₀) (t := t) (room_of_fits hf)
  unfold EVAL5 finish
  rw [hs.ops, hs.vals, hv, if_pos rfl, all]
  dsimp only
  rcases hR : reduce prec 0 F t with ⟨F', t'⟩
  have kinds := reduce_zero prec F t
  rw [hR] at kinds
  rcases kinds with h | ⟨G, h⟩
  · obtain rfl : F' = [] := h
    refine ⟨?_, fun h => nomatch h⟩
    rintro _ _ ⟨⟩
    rfl
  · obtain rfl : F' = .par :: G := h
    exact ⟨fun _ _ h => (nomatch h), fun _ => .of_head⟩

end ends

/-! ### The run -/

section run

variable {s₀ : Side} {st : St} {F : List Hole} {t : Expr}

/-- A binary operator: the frames are reduced, and it becomes the upper one. -/
theorem binary_sim (o : BOp) (hs : Sim s₀ st (F, some t)) (hf : Fits (F, some t))
    (ho : o.prec ≤ 9)
    (hl : (entries (.bin o (reduce prec o.prec F t).2 :: (reduce prec o.prec F t).1)).length
      ≤ OSTKSZ) :
    Sim s₀ (binary o { st with VOID := true })
        (.bin o (reduce prec o.prec F t).2 :: (reduce prec o.prec F t).1, none)
      ∧ Fits (.bin o (reduce prec o.prec F t).2 :: (reduce prec o.prec F t).1, none) := by
  have applied := EVAL27_image (s := s₀) (t := t) (room_of_fits hf) ho
  obtain ⟨before, kept, last⟩ := fits_reduce o.prec hf
  have here := last _ rfl
  have pos := need_pos (reduce prec o.prec F t).2
  refine ⟨⟨?_, ?_, rfl⟩, ⟨?_, ?_, fun _ h => nomatch h⟩⟩
  · simp only [binary, EVL27B, hs.ops, hs.vals, applied]
    rw [STKPUSH_lt (Nat.lt_of_succ_le hl)]
    rfl
  · simp only [binary, EVL27B, hs.ops, hs.vals, applied]
    rfl
  · exact Nat.max_le.mpr ⟨before, here⟩
  · exact Nat.le_trans (Nat.add_le_add_left pos _) here

/-- A prefix operator or a left bracket. -/
theorem push_sim {f : Hole} {e : Entry} (hs : Sim s₀ st (F, none)) (hf : Fits (F, none))
    (he : entries (f :: F) = e :: entries F) (hl : (entries (f :: F)).length ≤ OSTKSZ)
    (hi : lefts (f :: F) s₀ = lefts F s₀) (hp : space (f :: F) = space F)
    (hw : width (f :: F) = width F) :
    Sim s₀ (EVL27B e { st with VOID := true }) (f :: F, none) ∧ Fits (f :: F, none) := by
  refine ⟨⟨?_, ?_, rfl⟩, ⟨?_, ?_, fun _ h => nomatch h⟩⟩
  · rw [he] at hl ⊢
    simp only [EVL27B, hs.ops]
    rw [STKPUSH_lt (Nat.lt_of_succ_le hl)]
  · rw [image, hi]
    exact hs.vals
  · exact hp ▸ hf.before
  · exact hw ▸ hf.kept

end run

theorem prec_le (o : BOp) : o.prec ≤ 9 := by cases o <;> decide

/-- The outcome behind a symbol is that of what follows. -/
theorem Outcome.of_step {x : Sym} {ts : List Sym} {s s' : List Hole × Option Expr} {k : Symbol}
    {s₀ : Side} {r : Res} (hr : reads s.2.isNone x = some k) (hs : step prec s k = some s')
    (h : Outcome ts s' s₀ r) : Outcome (x :: ts) s s₀ r := by
  have same : parse (x :: ts) s = parse ts s' := parse_step hr hs
  exact ⟨fun t rest hp => h.found t rest (same ▸ hp), fun hp => h.failed fun t rest ht =>
    hp t rest (same.trans ht)⟩

/-- Nothing is found. -/
theorem Outcome.of_none {ts : List Sym} {s : List Hole × Option Expr} {s₀ : Side} {r : Res}
    (hp : parse ts s = none) (hf : Failed r) : Outcome ts s s₀ r :=
  ⟨fun _ _ h => absurd (hp.symm.trans h) nofun, fun _ => hf⟩

/-- The expression ends after an operand. -/
theorem Outcome.of_finish {ts : List Sym} {F : List Hole} {t : Expr} {s₀ : Side} {st : St}
    (hp : parse ts (F, some t) = finish ts (F, some t)) (hs : Sim s₀ st (F, some t))
    (hf : Fits (F, some t)) (hv : st.VOID = true) : Outcome ts (F, some t) s₀ (EVAL5 st ts) := by
  obtain ⟨found, none⟩ := EVAL5_outcome ts hs hf hv
  refine ⟨fun c rest h _ => found c rest (hp.symm.trans h), fun h => ?_⟩
  cases hc : finish ts (F, some t) with
  | none => exact none hc
  | some p =>
    obtain ⟨c, rest⟩ := p
    have large := h c rest (hp.trans hc)
    have small : need c ≤ OSTKSZ := by
      rw [← finish_needs hc]
      exact Nat.max_le.mpr ⟨hf.before, hf.last t rfl⟩
    exact absurd large (Nat.not_lt_of_le small)

/-- What the condition says of a symbol of the expression. -/
theorem careful_step {x : Sym} {ts : List Sym} {b : Bool} {s s' : List Hole × Option Expr}
    {k : Symbol} (hr : reads s.2.isNone x = some k) (hs : step prec s k = some s')
    (h : careful (x :: ts) b s = true) :
    (entries s'.1).length ≤ OSTKSZ ∧ careful ts true s' = true := by
  have bound : (reads s.2.isNone x).bind (step prec s) = some s' := by rw [hr]; exact hs
  rw [careful, bound] at h
  rw [Bool.and_eq_true, decide_eq_true_eq] at h
  exact h

/-- The run: the machine finds what the parser finds. -/
theorem EVAL1_outcome {ts : List Sym} {s : List Hole × Option Expr} {s₀ : Side} {st : St}
    (hs : Sim s₀ st s) (hf : Fits s) (hc : careful ts st.VOID s = true)
    (hv : s.2.isSome → st.VOID = true) : Outcome ts s s₀ (EVAL1 ts st) := by
  induction ts generalizing s st with
  | nil =>
    obtain ⟨F, _ | t⟩ := s
    · exact .of_none rfl (EVAL5_missing hs hc)
    · exact .of_finish rfl hs hf (hv rfl)
  | cons x ts ih =>
    obtain ⟨F, _ | t⟩ := s
    · -- an operand is expected
      have unary : st.UNARY = true := hs.unary
      cases x with
      | val a =>
        obtain ⟨_, more⟩ := careful_step (k := .val a) rfl rfl hc
        refine .of_step (k := .val a) rfl rfl ?_
        have stack : (image s₀ F none).VALSTK.length = width F := lefts_length F s₀
        rw [EVAL1, hs.vals]
        rcases Nat.lt_or_eq_of_le hf.kept with room | full
        · have pushed := STKPUSH_lt (x := (a.store (image s₀ F none).side).1)
            (stack.trans_lt room)
          simp only [pushed, Bool.false_eq_true, if_false]
          have sim : Sim s₀ { st with VOID := true, UNARY := false, vals :=
              { VALSTK := (a.store (image s₀ F none).side).1 :: (image s₀ F none).VALSTK,
                side := (a.store (image s₀ F none).side).2 } } (F, some (.leaf a)) :=
            ⟨hs.ops, rfl, rfl⟩
          refine ih sim ⟨hf.before, hf.kept, ?_⟩ more fun _ => rfl
          rintro c ⟨⟩
          exact room
        · -- the operand stack is full, and an operand more does not fit in any case
          have pushed : (STKPUSH (a.store (image s₀ F none).side).1 (image s₀ F none).VALSTK).2
              = true := by
            rw [STKPUSH, if_pos (stack.trans full)]
          simp only [pushed, if_true]
          refine ⟨fun c rest hp small => absurd small ?_, fun _ => .of_head⟩
          have most := parse_needs hp
          have beyond : OSTKSZ < needs (F, some (.leaf a)) :=
            Nat.lt_of_lt_of_le (full ▸ Nat.lt_succ_self _) (Nat.le_max_right _ _)
          exact Nat.not_le_of_lt (Nat.lt_of_lt_of_le beyond most)
      | lpar =>
        obtain ⟨room, more⟩ := careful_step (k := .lpar) rfl rfl hc
        obtain ⟨sim, fits⟩ := push_sim (f := .par) hs hf rfl room rfl rfl rfl
        exact .of_step (k := .lpar) rfl rfl (ih sim fits more nofun)
      | plus =>
        obtain ⟨room, more⟩ := careful_step (k := .pre none) rfl rfl hc
        rw [EVAL1, if_pos unary]
        refine .of_step (k := .pre none) rfl rfl (ih ⟨hs.ops, hs.vals, hs.unary⟩ ?_ more nofun)
        exact ⟨hf.before, hf.kept, fun _ h => nomatch h⟩
      | minus =>
        obtain ⟨room, more⟩ := careful_step (k := .pre (some .UMIN)) rfl rfl hc
        obtain ⟨sim, fits⟩ := push_sim (f := .pre (some .UMIN)) hs hf rfl room rfl rfl rfl
        rw [EVAL1, if_pos unary]
        exact .of_step (k := .pre (some .UMIN)) rfl rfl (ih sim fits more nofun)
      | un o =>
        obtain ⟨room, more⟩ := careful_step (k := .pre (some o)) rfl rfl hc
        obtain ⟨sim, fits⟩ := push_sim (f := .pre (some o)) hs hf rfl room rfl rfl rfl
        rw [EVAL1, if_pos unary]
        exact .of_step (k := .pre (some o)) rfl rfl (ih sim fits more nofun)
      | comma => exact .of_none rfl (EVAL5_missing hs hc)
      | other =>
        have sim : Sim s₀ { st with VOID := true } (F, none) := ⟨hs.ops, hs.vals, hs.unary⟩
        exact .of_none rfl (EVAL5_missing sim hc)
      | bin o => cases hc
      | rpar => cases hc
    · -- an operand has been read
      have unary : st.UNARY = false := hs.unary
      have read := hv rfl
      cases x with
      | bin o =>
        obtain ⟨room, more⟩ := careful_step (k := .bin o) rfl rfl hc
        obtain ⟨sim, fits⟩ := binary_sim o hs hf (prec_le o) room
        exact .of_step (k := .bin o) rfl rfl (ih sim fits more nofun)
      | plus =>
        obtain ⟨room, more⟩ := careful_step (k := .bin .BADD) rfl rfl hc
        obtain ⟨sim, fits⟩ := binary_sim .BADD hs hf (prec_le _) room
        rw [EVAL1, unary, if_neg (by decide)]
        exact .of_step (k := .bin .BADD) rfl rfl (ih sim fits more nofun)
      | minus =>
        obtain ⟨room, more⟩ := careful_step (k := .bin .BSUB) rfl rfl hc
        obtain ⟨sim, fits⟩ := binary_sim .BSUB hs hf (prec_le _) room
        rw [EVAL1, unary, if_neg (by decide)]
        exact .of_step (k := .bin .BSUB) rfl rfl (ih sim fits more nofun)
      | rpar =>
        have applied := EVAL6_image (s := s₀) (t := t) (room_of_fits hf)
        obtain ⟨before, kept, last⟩ := fits_reduce 0 hf
        rw [EVAL1, hs.ops, hs.vals, applied]
        rcases hR : reduce prec 0 F t with ⟨F', t'⟩
        have kinds := reduce_zero prec F t
        rw [hR] at before kept last kinds
        rcases kinds with h | ⟨G, h⟩
        · -- no bracket is open: the expression ends
          obtain rfl : F' = [] := h
          have stuck : (reads (F, some t).2.isNone .rpar).bind (step prec (F, some t)) = none := by
            show step prec (F, some t) .rpar = none
            rw [step, hR]
          have sim : Sim s₀ { st with OPSTK := [], vals := image s₀ [] (some t'), VOID := true }
              ([], some t') := ⟨rfl, rfl, unary⟩
          obtain ⟨found, _⟩ := EVAL5_outcome (.rpar :: ts) sim ⟨before, kept, last⟩ rfl
          have here : parse (.rpar :: ts) (F, some t) = some (t', .rpar :: ts) := by
            rw [parse_stop stuck rfl, finish, hR]
          refine ⟨fun c rest hp _ => ?_, fun hp => absurd (hp _ _ here) ?_⟩
          · exact found c rest (here.symm.trans hp)
          · have small := last t' rfl
            rw [width, Nat.zero_add] at small
            exact Nat.not_lt_of_le small
        · obtain rfl : F' = .par :: G := h
          have closed := step_rpar prec hR
          obtain ⟨_, more⟩ := careful_step (k := .rpar) rfl closed hc
          refine .of_step (k := .rpar) rfl closed
            (ih ⟨rfl, rfl, rfl⟩ ⟨before, kept, ?_⟩ more fun _ => rfl)
          rintro c ⟨⟩
          exact last t' rfl
      | un o =>
        rw [EVAL1, unary, if_neg (by decide)]
        exact .of_none rfl .of_head
      | comma => exact .of_finish rfl hs hf read
      | other => exact .of_finish rfl ⟨hs.ops, hs.vals, hs.unary⟩ hf rfl
      | val a => cases hc
      | lpar => cases hc

end RSX280.Eval
