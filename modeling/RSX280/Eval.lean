import RSX280.EvalArith
import RSX280.Precedence

/-!
# The assembler's expression evaluator

`EVAL` of `zsm/eval.mac` reads an expression symbol by symbol, keeps the operators it cannot apply
yet on `OPSTK` and the operands with their relocation modes on `VALSTK`, and applies an operator
when one that does not bind tighter, a right bracket or the end of the expression follows. Symbols
come as the scanner finds them: a number, a `$`, an identifier with what the symbol table says of
it, a character constant.
-/

namespace RSX280.Eval

/-- The segment bits of a mode. -/
inductive Seg
  | abs
  | code
  | data
  | common
  deriving DecidableEq

/-- A mode byte: the segment bits, and `EXTSYM`, `GBLSYM` and `UNDEF`. -/
structure Mode where
  seg : Seg
  ext : Bool
  gbl : Bool
  undef : Bool
  deriving DecidableEq

/-- The mode byte zero. -/
def Mode.zero : Mode := { seg := .abs, ext := false, gbl := false, undef := false }

/-- The errors an expression can set: expression, relocation, division by zero, no operand. -/
inductive Err
  | E
  | R
  | Z
  | O
  deriving DecidableEq

/-- The variables the operators share: the mode of the last operand, the COMMON block pointer, and
the errors set, the last one (the one `ERRFLG` holds) first. -/
structure Side where
  OPMODE : Mode
  OPCOMN : ℕ
  errs : List Err
  deriving DecidableEq

def RELERR (s : Side) : Side := { s with errs := .R :: s.errs }

/-! ### The relocation rules -/

/-- `ADDEX`: the external bits of an addition. -/
def ADDEX (ev : Mode) (s : Side) : Mode × Side :=
  if s.OPMODE.ext then
    if ev.ext then (ev, RELERR s) else ({ ev with ext := true }, s)
  else (ev, s)

/-- `ADDM`. -/
def ADDM (ev : Mode) (s : Side) : Mode × Side :=
  let (ev, s) := ADDEX ev s
  if s.OPMODE.seg = .abs then (ev, s)
  else if ev.seg ≠ .abs then (ev, RELERR s)
  else ({ ev with seg := s.OPMODE.seg }, s)

/-- `SUBEX`: only the first operand can be external. -/
def SUBEX (s : Side) : Side := if s.OPMODE.ext then RELERR s else s

/-- `SUBM`. -/
def SUBM (ev : Mode) (s : Side) : Mode × Side :=
  let s := SUBEX s
  if s.OPMODE.seg = .abs then (ev, s)
  else if ev.seg ≠ s.OPMODE.seg then (ev, RELERR s)
  else (.zero, s)

/-- `UNARYM` looks at the last operand only. -/
def UNARYM (s : Side) : Side :=
  if s.OPMODE.seg = .abs ∧ s.OPMODE.ext = false then s else RELERR s

/-- `MIXM`. -/
def MIXM (ev : Mode) (s : Side) : Side :=
  if s.OPMODE.seg = .abs ∧ s.OPMODE.ext = false ∧ ev.seg = .abs ∧ ev.ext = false then s
  else RELERR s

/-- `COMNM`: a COMMON operand must be of the block seen before. -/
def COMNM (de : ℕ) (s : Side) : Side :=
  if s.OPMODE.seg ≠ .common then s
  else if de = 0 then s
  else if s.OPCOMN = 0 then { s with OPCOMN := de }
  else if s.OPCOMN = de then s
  else RELERR s

/-! ### The operators -/

/-- The operators with one operand. -/
inductive UOp
  | UMIN
  | UNOT
  | ULOW
  | UHIGH
  deriving DecidableEq

/-- The operators with two operands. -/
inductive BOp
  | BADD
  | BSUB
  | BMULT
  | BDIV
  | BMOD
  | BSHR
  | BSHL
  | BAND
  | BOR
  | BXOR
  | BEQ
  | BNE
  | BLT
  | BLE
  | BGT
  | BGE
  | BLESS
  deriving DecidableEq

/-- The precedences, those of `EXTOPS` among them. -/
def UOp.prec : UOp → ℕ
  | UMIN => 6
  | UNOT => 3
  | ULOW | UHIGH => 8

def BOp.prec : BOp → ℕ
  | BADD | BSUB => 5
  | BMULT | BDIV | BMOD | BSHR | BSHL => 7
  | BAND => 2
  | BOR | BXOR => 1
  | BEQ | BNE | BLT | BLE | BGT | BGE | BLESS => 4

/-- `cpl` on both halves. -/
def cpl (hl : ℕ) : ℕ := 65535 - hl

/-- An operator with one operand in `HL`. -/
def UOp.run (o : UOp) (hl : ℕ) (s : Side) : ℕ × Side :=
  match o with
  | UMIN => ((cpl hl + 1) % 65536, UNARYM s)
  | UNOT => (cpl hl, UNARYM s)
  | ULOW => (hl % 256, UNARYM s)
  | UHIGH => (hl / 256, UNARYM s)

/-- The difference, its carry, sign and overflow. -/
def BSUB (de hl : ℕ) : ℕ := (de + 65536 - hl) % 65536

def carry (de hl : ℕ) : Bool := decide (de < hl)

def minus (hl : ℕ) : Bool := decide (32768 ≤ hl)

/-- `sbc` overflows when the signs differ and the difference has not the sign of the first. -/
def overflow (de hl : ℕ) : Bool := minus de != minus hl && minus (BSUB de hl) != minus de

/-- True and false. -/
def flag (b : Bool) : ℕ := if b then 65535 else 0

/-- The values of an operator with the first operand in `DE` and the second in `HL`. -/
def BOp.value (o : BOp) (de hl : ℕ) : ℕ :=
  match o with
  | BADD => (hl + de) % 65536
  | BSUB => Eval.BSUB de hl
  | BMULT => MULT de hl
  | BDIV => if hl = 0 then hl else (BDIV0 de hl).1
  | BMOD => if hl = 0 then de else (BDIV0 de hl).2
  | BSHR => BSHR1 hl de
  | BSHL => BSHL1 hl de
  | BAND => de &&& hl
  | BOR => de ||| hl
  | BXOR => de ^^^ hl
  | BEQ => flag (Eval.BSUB de hl == 0)
  | BNE => cpl (flag (Eval.BSUB de hl == 0))
  | BLT => flag (carry de hl)
  | BLE => if carry de hl then 65535 else flag (Eval.BSUB de hl == 0)
  | BGT => if carry de hl then 0 else if Eval.BSUB de hl = 0 then Eval.BSUB de hl else 65535
  | BGE => flag (!carry de hl)
  | BLESS =>
      if overflow de hl then flag (!minus (Eval.BSUB de hl)) else flag (minus (Eval.BSUB de hl))

/-- The mode it leaves, with the mode of the first operand in `EVMODE`. -/
def BOp.mode (o : BOp) (hl : ℕ) (ev : Mode) (s : Side) : Mode × Side :=
  match o with
  | BADD => ADDM ev s
  | BSUB | BEQ | BNE | BLT | BLE | BGT | BGE | BLESS => SUBM ev s
  | BSHR | BSHL => (ev, UNARYM s)
  | BMULT | BAND | BOR | BXOR => (ev, MIXM ev s)
  | BDIV | BMOD =>
      let s := MIXM ev s
      (ev, if hl = 0 then { s with errs := .Z :: s.errs } else s)

/-! ### The two stacks -/

/-- `OSTKSZ`, the size of both. -/
abbrev OSTKSZ : ℕ := 16

/-- `STKPUSH` and its carry. -/
def STKPUSH {α : Type} (x : α) (stk : List α) : List α × Bool :=
  if stk.length = OSTKSZ then (stk, true) else (x :: stk, false)

/-- The operands: values with their modes, the last one first. -/
structure Vals where
  VALSTK : List (ℕ × Mode)
  side : Side
  deriving DecidableEq

/-- `EXPERR`. -/
def EXPERR (s : Side) : Side := { s with errs := .E :: s.errs }

/-- An operator on `OPSTK`. -/
inductive Entry
  | lpar
  | un (o : UOp)
  | bin (o : BOp)
  deriving DecidableEq

/-- The precedence of an entry; a bracket has none that is looked at. -/
def Entry.prec : Entry → ℕ
  | lpar => 0
  | un o => o.prec
  | bin o => o.prec

/-- `APPLY` of an operator with one operand. -/
def APPLY1 (o : UOp) (v : Vals) : Vals :=
  match v.VALSTK with
  | [] => { v with side := EXPERR v.side }
  | (hl, m) :: stk =>
    let r := o.run hl { v.side with OPMODE := m }
    { VALSTK := (STKPUSH (r.1, .zero) stk).1, side := r.2 }

/-- `APPLY` of an operator with two operands: the second one is on top. -/
def APPLY2 (o : BOp) (v : Vals) : Vals :=
  match v.VALSTK with
  | [] => { v with side := EXPERR v.side }
  | (hl, m) :: stk =>
    let s := { v.side with OPMODE := m }
    match stk with
    | [] => { VALSTK := [], side := EXPERR s }
    | (de, ev) :: stk =>
      let r := o.mode hl ev s
      { VALSTK := (STKPUSH (o.value de hl, r.1) stk).1, side := r.2 }

def APPLY (e : Entry) (v : Vals) : Vals :=
  match e with
  | .lpar => v
  | .un o => APPLY1 o v
  | .bin o => APPLY2 o v

/-- The loop of `EVAL27`: operators that do not bind less tight than `h` are applied. -/
def EVAL27 (h : ℕ) : List Entry → Vals → List Entry × Vals
  | [], v => ([], v)
  | .lpar :: S, v => (.lpar :: S, v)
  | e :: S, v => if e.prec < h then (e :: S, v) else EVAL27 h S (APPLY e v)

/-- The loops of `RPAR` and `EVAL6`: operators are applied up to a left bracket. -/
def EVAL6 : List Entry → Vals → List Entry × Vals
  | [], v => ([], v)
  | .lpar :: S, v => (.lpar :: S, v)
  | e :: S, v => EVAL6 S (APPLY e v)

@[simp] theorem EVAL27_un (h : ℕ) (o : UOp) (S : List Entry) (v : Vals) :
    EVAL27 h (.un o :: S) v = if o.prec < h then (.un o :: S, v) else EVAL27 h S (APPLY1 o v) := rfl

@[simp] theorem EVAL27_bin (h : ℕ) (o : BOp) (S : List Entry) (v : Vals) :
    EVAL27 h (.bin o :: S) v
      = if o.prec < h then (.bin o :: S, v) else EVAL27 h S (APPLY2 o v) := rfl

@[simp] theorem EVAL6_un (o : UOp) (S : List Entry) (v : Vals) :
    EVAL6 (.un o :: S) v = EVAL6 S (APPLY1 o v) := rfl

@[simp] theorem EVAL6_bin (o : BOp) (S : List Entry) (v : Vals) :
    EVAL6 (.bin o :: S) v = EVAL6 S (APPLY2 o v) := rfl

/-! ### The symbols -/

/-- An operand as the scanner finds it. An identifier comes with its value, mode and COMMON block;
an undefined one is such a symbol too. -/
inductive Operand
  | num (v : ℕ)
  | pcref (v : ℕ) (seg : Seg) (common : ℕ)
  | ident (v : ℕ) (m : Mode) (common : ℕ)
  | qconst (v : ℕ)
  deriving DecidableEq

/-- A symbol of the line. `+` and `-` are read by where they stand; any other character ends the
expression. -/
inductive Sym
  | val (a : Operand)
  | lpar
  | rpar
  | plus
  | minus
  | un (o : UOp)
  | bin (o : BOp)
  | comma
  | other
  deriving DecidableEq

/-- What an operand stores: `INTBUF` and `OPMODE`. A character constant leaves `OPMODE` alone. -/
def Operand.store (a : Operand) (s : Side) : (ℕ × Mode) × Side :=
  match a with
  | num v => ((v, .zero), { s with OPMODE := .zero })
  | pcref v seg common =>
      let m : Mode := { Mode.zero with seg }
      let s := { s with OPMODE := m }
      ((v, m), if seg = .common then COMNM common s else s)
  | ident v m common =>
      let s := COMNM common { s with OPMODE := m }
      if m.undef then ((0, { Mode.zero with undef := true }),
        { s with OPMODE := { Mode.zero with undef := true } })
      else ((if m.ext then 0 else v, m), s)
  | qconst v => ((v, s.OPMODE), s)

/-- The state of `EVAL` between two symbols. -/
structure St where
  OPSTK : List Entry
  vals : Vals
  UNARY : Bool
  VOID : Bool
  deriving DecidableEq

/-- What `EVAL` returns: the symbols not read, the errors set and, unless it left through an error
exit, the value, its mode and the COMMON block. -/
structure Res where
  rest : List Sym
  errs : List Err
  result : Option (ℕ × Mode)
  CMNPTR : ℕ
  deriving DecidableEq

/-- An error exit. -/
def Res.fail (rest : List Sym) (s : Side) : Res :=
  { rest, errs := s.errs, result := none, CMNPTR := s.OPCOMN }

/-- `EVAL5`: the operators left are applied and one operand at most may remain. -/
def EVAL5 (s : St) (rest : List Sym) : Res :=
  if s.VOID then
    match EVAL6 s.OPSTK s.vals with
    | (_ :: _, v) => .fail rest (EXPERR v.side)
    | ([], v) =>
      match v.VALSTK with
      | [] => { rest, errs := v.side.errs, result := some (0, .zero), CMNPTR := v.side.OPCOMN }
      | [x] => { rest, errs := v.side.errs, result := some x, CMNPTR := v.side.OPCOMN }
      | _ :: _ :: _ => .fail rest (EXPERR v.side)
  else .fail rest { s.vals.side with errs := .O :: s.vals.side.errs }

/-- `EVL27B`: the operator is pushed, and the next sign is a prefix. -/
def EVL27B (e : Entry) (s : St) : St :=
  { s with OPSTK := (STKPUSH e s.OPSTK).1, UNARY := true }

/-- A binary operator: what does not bind less tight is applied before it is pushed. -/
def binary (o : BOp) (s : St) : St :=
  let r := EVAL27 o.prec s.OPSTK s.vals
  EVL27B (.bin o) { s with OPSTK := r.1, vals := r.2 }

/-- `EVAL1`: the symbols one after the other. -/
def EVAL1 : List Sym → St → Res
  | [], s => EVAL5 s []
  | .comma :: ts, s => EVAL5 s (.comma :: ts)
  | .other :: ts, s => EVAL5 { s with VOID := true } (.other :: ts)
  | .val a :: ts, s =>
      let r := a.store s.vals.side
      let p := STKPUSH r.1 s.vals.VALSTK
      if p.2 then .fail ts (EXPERR r.2)
      else EVAL1 ts { s with VOID := true, UNARY := false, vals := { VALSTK := p.1, side := r.2 } }
  | .plus :: ts, s =>
      if s.UNARY then EVAL1 ts { s with VOID := true }
      else EVAL1 ts (binary .BADD { s with VOID := true })
  | .minus :: ts, s =>
      if s.UNARY then EVAL1 ts (EVL27B (.un .UMIN) { s with VOID := true })
      else EVAL1 ts (binary .BSUB { s with VOID := true })
  | .un o :: ts, s =>
      if s.UNARY then EVAL1 ts (EVL27B (.un o) { s with VOID := true })
      else .fail ts (EXPERR s.vals.side)
  | .bin o :: ts, s => EVAL1 ts (binary o { s with VOID := true })
  | .lpar :: ts, s => EVAL1 ts (EVL27B .lpar { s with VOID := true })
  | .rpar :: ts, s =>
      match EVAL6 s.OPSTK s.vals with
      | (_ :: S, v) => EVAL1 ts { OPSTK := S, vals := v, UNARY := false, VOID := true }
      -- one bracket too many ends the expression
      | ([], v) => EVAL5 { s with OPSTK := [], vals := v, VOID := true } (.rpar :: ts)

/-- `EVAL`. -/
def EVAL (ts : List Sym) : Res :=
  EVAL1 ts
    { OPSTK := [], vals := { VALSTK := [], side := { OPMODE := .zero, OPCOMN := 0, errs := [] } },
      UNARY := true, VOID := false }

end RSX280.Eval
