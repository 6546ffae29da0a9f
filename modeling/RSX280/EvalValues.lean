import RSX280.EvalRuns
import Mathlib.Tactic.SplitIfs

/-!
# The value of an expression

The routines of the operators compute 16-bit arithmetic that wraps around, so the value `EVAL`
returns is that of the tree. With what the two stacks do, this settles which sequences of symbols
are expressions for `EVAL` and what they are worth, as long as operands and operators alternate and
the operator stack does not overflow.
-/

namespace RSX280.Eval

open Precedence

/-- The value of an operand. External and undefined symbols count as zero. -/
def Operand.value : Operand → ℕ
  | num v | pcref v _ _ | qconst v => v
  | ident v m _ => if m.undef || m.ext then 0 else v

/-- A word read as a signed number. -/
def signed (v : ℕ) : ℤ := if v < 32768 then v else (v : ℤ) - 65536

/-- What the operators mean: arithmetic that wraps around at 16 bits. -/
def UOp.sem (o : UOp) (a : ℕ) : ℕ :=
  match o with
  | UMIN => (65536 - a) % 65536
  | UNOT => 65535 - a
  | ULOW => a % 256
  | UHIGH => a / 256

def BOp.sem (o : BOp) (a b : ℕ) : ℕ :=
  match o with
  | BADD => (a + b) % 65536
  | BSUB => (a + 65536 - b) % 65536
  | BMULT => a * b % 65536
  | BDIV => a / b
  | BMOD => a % b
  | BSHR => a / 2 ^ b
  | BSHL => a * 2 ^ b % 65536
  | BAND => a &&& b
  | BOR => a ||| b
  | BXOR => a ^^^ b
  | BEQ => flag (a == b)
  | BNE => flag (a != b)
  | BLT => flag (decide (a < b))
  | BLE => flag (decide (a ≤ b))
  | BGT => flag (decide (b < a))
  | BGE => flag (decide (b ≤ a))
  | BLESS => flag (decide (signed a < signed b))

/-- The value of an expression. -/
def value : Expr → ℕ
  | .leaf a => a.value
  | .par t => value t
  | .pre none t => value t
  | .pre (some o) t => o.sem (value t)
  | .bin o l r => o.sem (value l) (value r)

/-- The operands are words. -/
def Words : Expr → Prop
  | .leaf a => a.value < 65536
  | .par t => Words t
  | .pre _ t => Words t
  | .bin _ l r => Words l ∧ Words r

theorem run_value {o : UOp} {a : ℕ} {s : Side} (h : a < 65536) :
    (o.run a s).1 = o.sem a ∧ o.sem a < 65536 := by
  cases o <;> dsimp only [UOp.run, UOp.sem, cpl] <;> omega

theorem flag_lt (b : Bool) : flag b < 65536 := by
  cases b <;> decide

theorem cpl_flag (b : Bool) : cpl (flag b) = flag (!b) := by
  cases b <;> rfl

/-- The difference is zero exactly for equal words. -/
theorem BSUB_eq_zero {a b : ℕ} (ha : a < 65536) (hb : b < 65536) : BSUB a b = 0 ↔ a = b := by
  unfold BSUB
  omega

/-- The sign of the difference is wrong exactly when it overflows. -/
theorem BLESS_value {a b : ℕ} (ha : a < 65536) (hb : b < 65536) :
    BOp.value .BLESS a b = BOp.sem .BLESS a b := by
  have sign : (if overflow a b then !minus (BSUB a b) else minus (BSUB a b))
      = decide (signed a < signed b) := by
    rw [Bool.eq_iff_iff, decide_eq_true_eq, overflow]
    cases h₁ : minus a <;> cases h₂ : minus b <;> cases h₃ : minus (BSUB a b) <;>
      simp only [minus, decide_eq_true_eq, decide_eq_false_iff_not] at h₁ h₂ h₃ <;>
      simp [signed, BSUB] at h₃ ⊢ <;> split_ifs <;> omega
  rw [BOp.value, BOp.sem, ← sign]
  split <;> rfl

theorem value_eq {o : BOp} {a b : ℕ} (ha : a < 65536) (hb : b < 65536) :
    o.value a b = o.sem a b ∧ o.sem a b < 65536 := by
  have zero := BSUB_eq_zero ha hb
  have same : (BSUB a b == 0) = (a == b) := by
    rw [Bool.eq_iff_iff, beq_iff_eq, beq_iff_eq]
    exact zero
  cases o with
  | BADD => exact ⟨by rw [BOp.value, BOp.sem, Nat.add_comm], Nat.mod_lt _ (by decide)⟩
  | BSUB => exact ⟨rfl, Nat.mod_lt _ (by decide)⟩
  | BMULT => exact ⟨MULT_eq ha hb, Nat.mod_lt _ (by decide)⟩
  | BDIV =>
    refine ⟨?_, Nat.lt_of_le_of_lt (Nat.div_le_self a b) ha⟩
    rw [BOp.value, BOp.sem]
    split
    · next h => rw [h, Nat.div_zero]
    · next h => rw [BDIV0_eq ha hb (Nat.pos_of_ne_zero h)]
  | BMOD =>
    refine ⟨?_, Nat.lt_of_le_of_lt (Nat.mod_le a b) ha⟩
    rw [BOp.value, BOp.sem]
    split
    · next h => rw [h, Nat.mod_zero]
    · next h => rw [BDIV0_eq ha hb (Nat.pos_of_ne_zero h)]
  | BSHR => exact ⟨BSHR1_eq b a, Nat.lt_of_le_of_lt (Nat.div_le_self a _) ha⟩
  | BSHL => exact ⟨BSHL1_eq b ha, Nat.mod_lt _ (by decide)⟩
  | BAND => exact ⟨rfl, Nat.lt_of_le_of_lt Nat.and_le_left ha⟩
  | BOR => exact ⟨rfl, Nat.or_lt_two_pow (n := 16) ha hb⟩
  | BXOR => exact ⟨rfl, Nat.xor_lt_two_pow (n := 16) ha hb⟩
  | BEQ => exact ⟨congrArg flag same, flag_lt _⟩
  | BNE => exact ⟨(cpl_flag _).trans (congrArg (fun c => flag (!c)) same), flag_lt _⟩
  | BLT => exact ⟨rfl, flag_lt _⟩
  | BLE =>
    refine ⟨?_, flag_lt _⟩
    rw [BOp.value, BOp.sem, same, carry]
    rcases Nat.lt_trichotomy a b with h | h | h
    · simp [flag, h, Nat.le_of_lt h]
    · simp [flag, h]
    · simp [flag, Nat.not_lt_of_gt h, Nat.ne_of_gt h, Nat.not_le_of_lt h]
  | BGT =>
    refine ⟨?_, flag_lt _⟩
    rw [BOp.value, BOp.sem, carry]
    rcases Nat.lt_trichotomy a b with h | h | h
    · simp [flag, h, Nat.not_lt_of_gt h]
    · simp [flag, h, (BSUB_eq_zero hb hb).mpr rfl]
    · simp [flag, h, Nat.not_lt_of_gt h, zero, Nat.ne_of_gt h]
  | BGE =>
    refine ⟨?_, flag_lt _⟩
    rw [BOp.value, BOp.sem, carry]
    rcases Nat.lt_or_ge a b with h | h <;> simp [flag, h]
  | BLESS => exact ⟨BLESS_value ha hb, flag_lt _⟩

/-- Evaluating an expression gives its value. -/
theorem eval_value {t : Expr} (hw : Words t) (s : Side) :
    (eval t s).1.1 = value t ∧ value t < 65536 := by
  induction t generalizing s with
  | leaf a =>
    refine ⟨?_, hw⟩
    cases a with
    | num v | pcref v seg common | qconst v => rfl
    | ident v m common =>
      simp only [eval, Operand.store, value, Operand.value]
      cases m.undef <;> cases m.ext <;> rfl
  | par t ih => exact ih hw s
  | pre o t ih =>
    cases o with
    | none => exact ih hw s
    | some o =>
      obtain ⟨same, word⟩ := ih hw s
      rw [eval, value]
      dsimp only
      rw [same]
      exact run_value word
  | bin o l r ihl ihr =>
    obtain ⟨left, wordl⟩ := ihl hw.1 s
    obtain ⟨right, wordr⟩ := ihr hw.2 (eval l s).2
    rw [eval, value]
    dsimp only
    rw [left, right]
    exact value_eq wordl wordr

/-! ### The errors of an expression -/

theorem store_adds (a : Operand) (s : Side) : Adds s (a.store s).2 := by
  cases a with
  | num v => exact .refl s
  | pcref v seg common =>
    simp only [Operand.store]
    split
    · exact COMNM_adds common { s with OPMODE := { Mode.zero with seg } }
    · exact .refl s
  | ident v m common =>
    simp only [Operand.store]
    split
    · exact COMNM_adds common { s with OPMODE := m }
    · exact COMNM_adds common { s with OPMODE := m }
  | qconst v => exact .refl s

theorem eval_adds (t : Expr) (s : Side) : Adds s (eval t s).2 := by
  induction t generalizing s with
  | leaf a => exact store_adds a s
  | par t ih => exact ih s
  | pre o t ih =>
    cases o with
    | none => exact ih s
    | some o => exact (ih s).trans (run_adds o _ { (eval t s).2 with OPMODE := _ })
  | bin o l r ihl ihr =>
    exact ((ihl s).trans (ihr _)).trans (mode_adds o _ _ { (eval r _).2 with OPMODE := _ })

/-- The mode of an absolute operand. -/
def Mode.Plain (m : Mode) : Prop := m.seg = .abs ∧ m.ext = false

/-- An expression over absolute operands in which nothing is divided by zero. -/
def Plain : Expr → Prop
  | .leaf (.num _) | .leaf (.qconst _) => True
  | .leaf (.pcref _ seg _) => seg = .abs
  | .leaf (.ident _ m _) => m.Plain
  | .par t => Plain t
  | .pre _ t => Plain t
  | .bin o l r => Plain l ∧ Plain r ∧ (o = .BDIV ∨ o = .BMOD → value r ≠ 0)

/-- Absolute operands obey every rule. -/
theorem mode_plain {o : BOp} {hl : ℕ} {ev : Mode} {s : Side} (he : ev.Plain) (hs : s.OPMODE.Plain)
    (hz : o = .BDIV ∨ o = .BMOD → hl ≠ 0) : o.mode hl ev s = (ev, s) := by
  obtain ⟨segs, exts⟩ := hs
  have add : ADDM ev s = (ev, s) := by
    simp [ADDM, ADDEX, segs, exts]
  have sub : SUBM ev s = (ev, s) := by
    simp [SUBM, SUBEX, segs, exts]
  have unary : UNARYM s = s := if_pos ⟨segs, exts⟩
  have mix : MIXM ev s = s := if_pos ⟨segs, exts, he.1, he.2⟩
  cases o with
  | BADD => exact add
  | BSUB | BEQ | BNE | BLT | BLE | BGT | BGE | BLESS => exact sub
  | BSHR | BSHL => exact congrArg (Prod.mk ev) unary
  | BMULT | BAND | BOR | BXOR => exact congrArg (Prod.mk ev) mix
  | BDIV | BMOD =>
    simp only [BOp.mode, mix]
    rw [if_neg (hz (by simp))]

/-- An absolute expression keeps the modes absolute and sets no error. -/
theorem eval_plain {t : Expr} {s : Side} (ht : Plain t) (hw : Words t) (hs : s.OPMODE.Plain) :
    (eval t s).1.2.Plain ∧ (eval t s).2.OPMODE.Plain ∧ (eval t s).2.errs = s.errs := by
  induction t generalizing s with
  | leaf a =>
    cases a with
    | num v => exact ⟨⟨rfl, rfl⟩, ⟨rfl, rfl⟩, rfl⟩
    | qconst v => exact ⟨hs, hs, rfl⟩
    | pcref v seg common =>
      obtain rfl : seg = .abs := ht
      exact ⟨⟨rfl, rfl⟩, ⟨rfl, rfl⟩, rfl⟩
    | ident v m common =>
      have plain : m.Plain := ht
      have no_common : COMNM common { s with OPMODE := m } = { s with OPMODE := m } := by
        rw [COMNM, if_pos]
        rw [plain.1]
        decide
      simp only [eval, Operand.store, no_common]
      split
      · exact ⟨⟨rfl, rfl⟩, ⟨rfl, rfl⟩, rfl⟩
      · exact ⟨plain, plain, rfl⟩
  | par t ih => exact ih ht hw hs
  | pre o t ih =>
    cases o with
    | none => exact ih ht hw hs
    | some o =>
      obtain ⟨plain, _, errs⟩ := ih ht hw hs
      have unary : UNARYM { (eval t s).2 with OPMODE := (eval t s).1.2 }
          = { (eval t s).2 with OPMODE := (eval t s).1.2 } := if_pos plain
      have run : (o.run (eval t s).1.1 { (eval t s).2 with OPMODE := (eval t s).1.2 }).2
          = { (eval t s).2 with OPMODE := (eval t s).1.2 } := by
        cases o <;> exact unary
      simp only [eval, run]
      exact ⟨⟨rfl, rfl⟩, plain, errs⟩
  | bin o l r ihl ihr =>
    obtain ⟨plainl, plainr, divisor⟩ := ht
    obtain ⟨pl, ol, el⟩ := ihl plainl hw.1 hs
    obtain ⟨pr, _, er⟩ := ihr plainr hw.2 ol
    have right := (eval_value hw.2 (eval l s).2).1
    have mode : o.mode (eval r (eval l s).2).1.1 (eval l s).1.2
        { (eval r (eval l s).2).2 with OPMODE := (eval r (eval l s).2).1.2 }
        = ((eval l s).1.2,
          { (eval r (eval l s).2).2 with OPMODE := (eval r (eval l s).2).1.2 }) :=
      mode_plain pl pr (right ▸ divisor)
    simp only [eval, mode]
    exact ⟨pl, pr, er.trans el⟩

/-! ### What `EVAL` accepts -/

/-- A sequence settled as it should be. An expression that fits the operand stack is read up to its
end, its value is that of the tree, the only errors are those of relocation and division, and there
are none over absolute operands without a division by zero. Anything else sets an error. -/
structure Settled (ts : List Sym) : Prop where
  found : ∀ t rest, Parses ts t rest → need t ≤ OSTKSZ →
    (EVAL ts).rest = rest ∧ (EVAL ts).result.map Prod.fst = some (value t) ∧ ¬ Failed (EVAL ts)
      ∧ (Plain t → (EVAL ts).errs = [])
  failed : (∀ t rest, Parses ts t rest → OSTKSZ < need t) → Failed (EVAL ts)

/-- The operands of an expression are those of the symbols it was read from. -/
theorem words_of_reads {us : List Sym} {b : Bool} {ks : List Symbol}
    (hr : readsAll b us = some ks) (hw : ∀ a, Sym.val a ∈ us → a.value < 65536) :
    ∀ a, Tok.val a ∈ ks → a.value < 65536 := by
  induction us generalizing b ks with
  | nil =>
    obtain rfl := Option.some.inj hr
    exact fun a h => nomatch h
  | cons x us ih =>
    obtain ⟨k, first, more⟩ := Option.bind_eq_some_iff.mp hr
    obtain ⟨ks, all, rfl⟩ := Option.map_eq_some_iff.mp more
    intro a ha
    rcases List.mem_cons.mp ha with rfl | ha
    · refine hw a ?_
      cases b <;> cases x <;> simp [reads] at first
      rw [first]
      exact List.mem_cons_self
    · exact ih all (fun a h => hw a (List.mem_cons_of_mem _ h)) a ha

theorem words_of_print {t : Expr} (h : ∀ a, Tok.val a ∈ t.print → a.value < 65536) : Words t := by
  induction t with
  | leaf a => exact h a List.mem_cons_self
  | par t ih => exact ih fun a ha => h a (by simp [Tree.print, ha])
  | pre o t ih => exact ih fun a ha => h a (by simp [Tree.print, ha])
  | bin o l r ihl ihr =>
    exact ⟨ihl fun a ha => h a (by simp [Tree.print, ha]), ihr fun a ha => h a (by simp [Tree.print, ha])⟩

/-- When operands and operators alternate and `OPSTK` does not overflow, `EVAL` settles the
sequence as it should be. -/
theorem settled_of_careful {ts : List Sym} (hw : ∀ a, Sym.val a ∈ ts → a.value < 65536)
    (hc : careful ts false ([], none) = true) : Settled ts := by
  have outcome : Outcome ts ([], none) { OPMODE := .zero, OPCOMN := 0, errs := [] } (EVAL ts) :=
    EVAL1_outcome ⟨rfl, rfl, rfl⟩ ⟨Nat.zero_le _, Nat.zero_le _, fun _ h => nomatch h⟩ hc nofun
  refine ⟨fun t rest hp fits => ?_, fun h => outcome.failed fun t rest hp =>
    h t rest (parses_iff.mpr hp)⟩
  have ok := outcome.found t rest (parses_iff.mp hp) fits
  have words : Words t := by
    obtain ⟨us, rfl, read⟩ := hp.read
    exact words_of_print (words_of_reads read fun a h => hw a (List.mem_append_left _ h))
  have adds := eval_adds t { OPMODE := .zero, OPCOMN := 0, errs := [] }
  rw [ok]
  refine ⟨rfl, congrArg some (eval_value words _).1, ?_, fun plain => ?_⟩
  · rintro (h | h) <;> rcases adds.of_mem h with h | h | h <;> cases h
  · exact (eval_plain plain words ⟨rfl, rfl⟩).2.2

/-- `( 1 + 2 * 3 ) - 7 ,` -/
theorem settled_product :
    Settled [.lpar, .val (.num 1), .plus, .val (.num 2), .bin .BMULT, .val (.num 3), .rpar, .minus,
      .val (.num 7), .comma] :=
  settled_of_careful (by simp [Operand.value]) (by decide)

/-- `1 2 +` is no expression, and passes for one. -/
theorem not_settled_postfix : ¬ Settled [.val (.num 1), .val (.num 2), .plus] := by
  intro h
  have none : ∀ t rest, ¬ Parses [.val (.num 1), .val (.num 2), .plus] t rest :=
    fun t rest hp => nomatch parses_iff.mp hp
  rcases h.failed fun t rest hp => absurd hp (none t rest) with h | h <;> revert h <;> decide

end RSX280.Eval
