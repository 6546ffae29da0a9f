import RSX280.EvalArith
import Mathlib.Data.Nat.ModEq

/-!
# Expressions of command procedures

`EVAL` of the indirect command processor evaluates a numeric expression from the command line. It
goes down from `!` over `&`, `+` and `*` to the factors, one symbol ahead, and into brackets. Here
`.OVERFLOW` reporting is in force: `ERROVF` does not come back.
-/

namespace RSX280.Icp

open Eval

/-- The characters of a line, as far as it goes. -/
abbrev Line := List ℕ

/-- The messages: syntax error, numeric overflow, undefined symbol, type mismatch. `fuel` is none of
them: it is there for a descent that does not end. -/
inductive Err
  | CMDERR
  | ERROVF
  | ERRUDF
  | ERRTYP
  | fuel
  deriving DecidableEq

/-! ### Symbols -/

/-- The operators in `ops`. -/
inductive Op
  | or
  | and
  | add
  | sub
  | mul
  | div
  | mod
  | not
  | lpar
  | rpar
  deriving DecidableEq

/-- `ops`: `!&+-*/%#()` -/
def ops : ℕ → Option Op
  | 33 => some .or
  | 38 => some .and
  | 43 => some .add
  | 45 => some .sub
  | 42 => some .mul
  | 47 => some .div
  | 37 => some .mod
  | 35 => some .not
  | 40 => some .lpar
  | 41 => some .rpar
  | _ => none

/-- `symtyp` and what `idname` has for it. When `VNAME` finds no name, the one that was there before
is taken. -/
inductive Sym
  | null
  | var (name : Line) (special : Bool)
  | stale
  | num (v : ℕ)
  | op (o : Op)
  | err
  deriving DecidableEq

def ISDIG (c : ℕ) : Bool := 48 ≤ c && c ≤ 57

def isletr (c : ℕ) : Bool := (65 ≤ c && c ≤ 90) || (97 ≤ c && c ≤ 122)

/-- `isvs`: a letter, `$` or `_` -/
def isvs (c : ℕ) : Bool := isletr c || c == 36 || c == 95

def isvok (c : ℕ) : Bool := ISDIG c || isvs c

/-- `ISBLNK`: the end of the line is a blank, too. -/
def ISBLNK (c : ℕ) : Bool := c == 0 || c == 32 || c == 9 || c == 13

def SKIPBL : Line → Line
  | [] => []
  | c :: l => if c ≠ 0 ∧ ISBLNK c then SKIPBL l else c :: l

def UCASE (c : ℕ) : ℕ := if 97 ≤ c ∧ c ≤ 122 then c - 32 else c

/-- `VNAME`: the name, whether it is a special one, and the rest of the line. The missing `>` behind a
special name is an error that `gsvar` does not look at. -/
def VNAME (line : Line) : Option (Line × Bool × Line) :=
  let special := line.head? == some 60
  let l := if special then line.tail else line
  match l with
  | [] => none
  | c :: _ =>
    if isvs c then
      let rest := l.dropWhile isvok
      some (((l.takeWhile isvok).take 12).map UCASE, special,
        if special ∧ rest.head? = some 62 then rest.tail else rest)
    else none

/-- `adddig`, or none on overflow -/
def adddig (hl a : ℕ) : Option ℕ :=
  if 65536 ≤ 2 * hl then none
  else if 65536 ≤ 4 * hl then none
  else if 65536 ≤ 4 * hl + hl then none
  else if 65536 ≤ 2 * (4 * hl + hl) then none
  else if 65536 ≤ 2 * (4 * hl + hl) + a then none
  else some (2 * (4 * hl + hl) + a)

/-- `atoi1`: the number, or none on overflow, and the rest of the line. -/
def atoi1 (hl : ℕ) : Line → Option (ℕ × Line)
  | [] => some (hl, [])
  | c :: l =>
    if ISDIG c then
      match adddig hl (c - 48) with
      | none => none
      | some hl => atoi1 hl l
    else some (hl, c :: l)

/-- `getsym` -/
def getsym (line : Line) : Except Err (Sym × Line) :=
  match line with
  | [] => .ok (.null, line)
  | c :: l =>
    -- `[`, `:` and `]`
    if ISBLNK c ∨ c = 91 ∨ c = 58 ∨ c = 93 then .ok (.null, line)
    else if isvs c ∨ c = 60 then
      match VNAME line with
      | some (name, special, rest) => .ok (.var name special, rest)
      | none => .ok (.stale, l)
    else if ISDIG c then
      match atoi1 0 line with
      | some (v, rest) => .ok (.num v, rest)
      | none => .error .ERROVF
    else
      match ops c with
      | some o => .ok (.op o, l)
      | none => .ok (.err, line)

/-! ### Arithmetic -/

/-- `mult`, with `a` bits of `DE` to go -/
def mu1 (bc : ℕ) : ℕ → ℕ → ℕ → ℕ
  | 0, _, hl => hl
  | a + 1, de, hl =>
    let hl := 2 * hl % 65536
    if 65536 ≤ 2 * de then mu1 bc a (2 * de % 65536) ((hl + bc) % 65536) else mu1 bc a (2 * de % 65536) hl

/-- `mult` -/
def mult (de bc : ℕ) : ℕ := mu1 bc 16 de 0

/-- `div`, the loop of the assembler's division. The carry flag is what the comparison of the operator
with `/` left. -/
def div (cy de bc : ℕ) : ℕ × ℕ := DIV1 bc 16 cy de 0

def HLNEG (hl : ℕ) : ℕ := (65535 - hl + 1) % 65536

/-- An operator with `n` before and `m` behind it, as `term`, `aexp`, `lterm` and `EVAL` compute it. -/
def Op.apply (o : Op) (n m : ℕ) : Except Err ℕ :=
  match o with
  | .mul => .ok (mult n m)
  | .div => if m = 0 then .error .ERROVF else .ok (Icp.div 0 n m).1
  | .mod => if m = 0 then .error .ERROVF else .ok (Icp.div 1 n m).2
  | .add => if 65536 ≤ n + m then .error .ERROVF else .ok (n + m)
  | .sub => if n < m then .error .ERROVF else .ok (n - m)
  | .and => .ok (n &&& m)
  | .or => .ok (n ||| m)
  | .not | .lpar | .rpar => .error .CMDERR

/-- The operators before an expression -/
def Op.leads (o : Op) : Bool := o == .add || o == .sub || o == .not

/-- One of them applied -/
def Op.sign (o : Op) (n : ℕ) : ℕ :=
  match o with
  | .sub => HLNEG n
  | .not => (HLNEG n + 65535) % 65536
  | _ => n

/-! ### The descent -/

/-- A variable is a number, or of another type. -/
inductive Var
  | num (v : UInt16)
  | other

/-- What `GETVAR` finds, also for the name that `idname` may have from before. -/
structure Vars where
  get : Line → Bool → Option Var
  stale : Line → Option Var

/-- The last symbol and the pointer behind it. -/
structure St where
  sym : Sym
  LNPTR : Line

/-- The value in `DE` and the state, or a message. -/
abbrev R := Except Err (ℕ × St)

/-- The next symbol. -/
def next (s : St) : Except Err St := (getsym s.LNPTR).map fun p => { sym := p.1, LNPTR := p.2 }

/-- The next symbol behind an operator, which is not the end. -/
def nextOperand (s : St) : Except Err St := do
  let s ← next s
  if s.sym = .null then .error .CMDERR else .ok s

/-- `fcv1` -/
def fcv1 (v : ℕ) (s : St) : R := do
  let s ← next s
  .ok (v, s)

/-- `fvar` -/
def fvar (found : Option Var) (s : St) : R :=
  match found with
  | none => .error .ERRUDF
  | some .other => .error .ERRTYP
  | some (.num v) => fcv1 v.toNat s

/-- `factor`; at the end of the expression it leaves `DE` as it was. -/
def factor (vars : Vars) (eval : ℕ → Line → R) (de : ℕ) (s : St) : R :=
  match s.sym with
  | .null => .ok (de, s)
  | .var name special => fvar (vars.get name special) s
  | .stale => fvar (vars.stale s.LNPTR) s
  | .num v => fcv1 v s
  | .op .lpar => do
    let (de, s) ← eval de s.LNPTR
    if s.sym = .op .rpar then fcv1 de s else .error .CMDERR
  | .op _ => .error .CMDERR
  | .err => .error .CMDERR

/-- The loops `term0`, `aexp0`, `lterm0` and `exp3`: as long as an operator of the level follows, its
second operand is evaluated. The line is long enough for the rounds. -/
def loop (takes : Op → Bool) (operand : ℕ → St → R) : ℕ → ℕ → St → R
  | 0, _, _ => .error .fuel
  | k + 1, n, s =>
    match s.sym with
    | .op o =>
      if takes o then do
        let s ← nextOperand s
        let (m, s) ← operand n s
        let v ← o.apply n m
        loop takes operand k v s
      else .ok (n, s)
    | _ => .ok (n, s)

/-- An operand and the loop. -/
def level (takes : Op → Bool) (operand : ℕ → St → R) (de : ℕ) (s : St) : R := do
  let (n, s) ← operand de s
  loop takes operand (s.LNPTR.length + 1) n s

/-- The operators of `term`, `aexp`, `lterm` and `EVAL`: those that bind tighter have more. -/
def Op.level (o : Op) : Option ℕ :=
  match o with
  | .or => some 0
  | .and => some 1
  | .add | .sub => some 2
  | .mul | .div | .mod => some 3
  | .not | .lpar | .rpar => none

def Op.on (j : ℕ) (o : Op) : Bool := o.level == some j

section

variable (vars : Vars) (eval : ℕ → Line → R)

def term : ℕ → St → R := level (Op.on 3) (factor vars eval)

def aexp : ℕ → St → R := level (Op.on 2) (term vars eval)

def lterm : ℕ → St → R := level (Op.on 1) (aexp vars eval)

/-- `exp3`: the loop ends with the expression or with a right bracket. -/
def exp3 (n : ℕ) (s : St) : R := do
  let (n, s) ← loop (Op.on 0) (lterm vars eval) (s.LNPTR.length + 1) n s
  if s.sym = .null ∨ s.sym = .op .rpar then .ok (n, s) else .error .CMDERR

/-- `EVAL`, with the evaluation of what is in brackets. -/
def expr (de : ℕ) (line : Line) : R := do
  let s ← next { sym := .null, LNPTR := SKIPBL line }
  match s.sym with
  | .op o =>
    if o.leads then do
      let s ← nextOperand s
      let (n, s) ← lterm vars eval de s
      exp3 vars eval (o.sign n) s
    else do
      let (n, s) ← lterm vars eval de s
      exp3 vars eval n s
  | _ => do
    let (n, s) ← lterm vars eval de s
    exp3 vars eval n s

end

/-- `EVAL` with brackets of at most `k` levels. -/
def EVALn (vars : Vars) : ℕ → ℕ → Line → R
  | 0 => fun _ _ => .error .fuel
  | k + 1 => expr vars (EVALn vars k)

/-- `EVAL` of the expression at `line`, with `de` in the register before. -/
def EVAL (vars : Vars) (de : ℕ) (line : Line) : R := EVALn vars (line.length + 1) de line

/-! ### The machine's arithmetic -/

/-- The multiplier bits still to come are `d`. -/
theorem mu1_eq {bc a m d hl : ℕ} (hm : 2 ^ a * m = 65536) (hd : d < 2 ^ a) (hh : hl < 65536) :
    mu1 bc a (d * m) hl = (hl * 2 ^ a + d * bc) % 65536 := by
  induction a generalizing m d hl with
  | zero =>
    obtain rfl : d = 0 := by omega
    rw [mu1, Nat.pow_zero, Nat.mul_one, Nat.zero_mul, Nat.add_zero, Nat.mod_eq_of_lt hh]
  | succ a ih =>
    rw [Nat.pow_succ] at hm hd
    have m2 : 2 ^ a * (2 * m) = 65536 := by
      rw [← hm]
      ring
    obtain ⟨b, d', hb, hd', rfl⟩ : ∃ b d', b ≤ 1 ∧ d' < 2 ^ a ∧ d = b * 2 ^ a + d' := by
      rcases Nat.lt_or_ge d (2 ^ a) with h | h
      · exact ⟨0, d, by omega, h, by omega⟩
      · exact ⟨1, d - 2 ^ a, by omega, by omega, by omega⟩
    have low : d' * (2 * m) + 2 * m ≤ 65536 := by
      have le := Nat.mul_le_mul_right (2 * m) (Nat.succ_le_of_lt hd')
      rw [m2, Nat.succ_mul] at le
      exact le
    have positive : 0 < m := Nat.pos_of_ne_zero fun zero => by
      rw [zero, Nat.mul_zero] at hm
      exact absurd hm (by decide)
    have twice : 2 * ((b * 2 ^ a + d') * m) = b * 65536 + d' * (2 * m) := by
      rw [← m2]
      ring
    rw [mu1, twice]
    rcases Nat.le_one_iff_eq_zero_or_eq_one.mp hb with rfl | rfl
    · have rest : (0 * 65536 + d' * (2 * m)) % 65536 = d' * (2 * m) := by omega
      have sum : 2 * hl % 65536 * 2 ^ a + d' * bc ≡ hl * 2 ^ (a + 1) + (0 * 2 ^ a + d') * bc [MOD 65536] := by
        have double : hl * 2 ^ (a + 1) + (0 * 2 ^ a + d') * bc = 2 * hl * 2 ^ a + d' * bc := by ring
        rw [double]
        exact ((Nat.mod_modEq _ _).mul_right _).add_right _
      rw [if_neg (by omega), rest, ih m2 hd' (Nat.mod_lt _ (by decide))]
      exact sum
    · have rest : (1 * 65536 + d' * (2 * m)) % 65536 = d' * (2 * m) := by omega
      have sum : (2 * hl % 65536 + bc) % 65536 * 2 ^ a + d' * bc
          ≡ hl * 2 ^ (a + 1) + (1 * 2 ^ a + d') * bc [MOD 65536] := by
        have double : hl * 2 ^ (a + 1) + (1 * 2 ^ a + d') * bc = (2 * hl + bc) * 2 ^ a + d' * bc := by ring
        rw [double]
        exact (((Nat.mod_modEq _ _).trans ((Nat.mod_modEq _ _).add_right _)).mul_right _).add_right _
      rw [if_pos (by omega), rest, ih m2 hd' (Nat.mod_lt _ (by decide))]
      exact sum

theorem mult_eq {de : ℕ} (bc : ℕ) (hd : de < 65536) : mult de bc = de * bc % 65536 := by
  have product : mu1 bc 16 (de * 1) 0 = (0 * 2 ^ 16 + de * bc) % 65536 := mu1_eq rfl hd (by decide)
  rw [Nat.mul_one, Nat.zero_mul, Nat.zero_add] at product
  exact product

/-- The remainder depends on the dividend bits only, not on what comes in behind them. -/
theorem DIV1_snd {bc a e de de' : ℕ} (cy cy' hl : ℕ) (hm : 2 ^ a * 2 ^ e = 65536) (hc : cy ≤ 1)
    (hc' : cy' ≤ 1) (h : de / 2 ^ e = de' / 2 ^ e) :
    (DIV1 bc a cy de hl).2 = (DIV1 bc a cy' de' hl).2 := by
  induction a generalizing e de de' cy cy' hl with
  | zero => rfl
  | succ a ih =>
    have m2 : 2 ^ (e + 1) * 2 ^ a = 65536 := by
      rw [← hm]
      ring
    have shift (x c : ℕ) (hc : c ≤ 1) : (2 * x + c) / 2 ^ (e + 1) = x / 2 ^ e := by
      have half : (2 * x + c) / 2 = x := by omega
      rw [Nat.pow_succ', ← Nat.div_div_eq_div_mul, half]
    have out : (2 * de + cy) / 65536 = (2 * de' + cy') / 65536 := by
      rw [← m2, ← Nat.div_div_eq_div_mul, ← Nat.div_div_eq_div_mul, shift de cy hc, shift de' cy' hc', h]
    have rest : (2 * de + cy) % 65536 / 2 ^ (e + 1) = (2 * de' + cy') % 65536 / 2 ^ (e + 1) := by
      rw [← m2, Nat.mod_mul_right_div_self, Nat.mod_mul_right_div_self, shift de cy hc,
        shift de' cy' hc', h]
    have m2' : 2 ^ a * 2 ^ (e + 1) = 65536 := by rw [Nat.mul_comm, m2]
    rw [DIV1, DIV1]
    dsimp only
    rw [out]
    split
    · exact ih _ _ _ m2' (Nat.sub_le _ _) (Nat.sub_le _ _) rest
    · exact ih _ _ _ m2' (Nat.le_refl _) (Nat.le_refl _) rest

theorem div_fst {n m : ℕ} (hn : n < 65536) (hm : m < 65536) (h : 0 < m) : (div 0 n m).1 = n / m :=
  congrArg Prod.fst (BDIV0_eq hn hm h)

theorem div_snd {n m : ℕ} (hn : n < 65536) (hm : m < 65536) (h : 0 < m) : (div 1 n m).2 = n % m := by
  have same : (div 1 n m).2 = (div 0 n m).2 :=
    DIV1_snd (e := 0) 1 0 0 (by decide) (Nat.le_refl 1) (Nat.zero_le 1) rfl
  exact same.trans (congrArg Prod.snd (BDIV0_eq hn hm h))

theorem adddig_eq {hl a : ℕ} : adddig hl a = if 10 * hl + a < 65536 then some (10 * hl + a) else none := by
  have tens : 2 * (4 * hl + hl) = 10 * hl := by omega
  rw [adddig, tens]
  split_ifs <;> first | rfl | omega

end RSX280.Icp
