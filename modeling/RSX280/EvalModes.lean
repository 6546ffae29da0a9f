import RSX280.EvalValues

/-!
# The relocation rules

`eval.mac` states which modes an operator may meet and which mode results. The checks behind the
operators are compared with these rules: an addition takes an external symbol for absolute as long
as its chain is in no segment, a difference cancels an external symbol against a segment its chain
happens to be in, the comparisons use the check of the difference, the shifts look at the count
only, and a character constant is pushed with the mode of the operand before it. Where none of this
happens the rules hold for every part of the expression, and nowhere else.
-/

namespace RSX280.Eval

open Precedence

/-- The bits of a mode that matter for relocation. The segment of an external symbol is that of its
chain, which says nothing of the symbol. -/
structure Kind where
  seg : Seg
  ext : Bool
  deriving DecidableEq

/-- The absolute mode. -/
def Kind.abs : Kind := { seg := .abs, ext := false }

def Mode.kind (m : Mode) : Kind := { seg := m.seg, ext := m.ext }

/-- The mode an operand should have. -/
def Operand.kind : Operand → Kind
  | num _ | qconst _ => .abs
  | pcref _ seg _ => { seg, ext := false }
  | ident _ m _ => if m.undef then .abs else m.kind

/-- The rules for two operands: one of a sum is absolute; a difference keeps the mode when the
second is absolute and is absolute when the modes are the same and not external; everything else is
for absolute operands only. -/
def rule (o : BOp) (a b : Kind) : Option Kind :=
  match o with
  | .BADD => if a = .abs then some b else if b = .abs then some a else none
  | .BSUB => if b = .abs then some a else if a = b ∧ a.ext = false then some .abs else none
  | _ => if a = .abs ∧ b = .abs then some .abs else none

/-- The mode an expression has by the rules, if it obeys them. -/
def mode : Expr → Option Kind
  | .leaf a => some a.kind
  | .par t => mode t
  | .pre none t => mode t
  | .pre (some _) t => (mode t).bind fun a => if a = .abs then some .abs else none
  | .bin o l r => (mode l).bind fun a => (mode r).bind fun b => rule o a b

/-! ### What the checks let through -/

/-- A violation that the check of the operator does not see. -/
def slips (o : BOp) (a b : Kind) : Bool :=
  match o with
  | .BADD =>
      -- an external symbol without a chain in a segment and a relocatable operand
      (a.ext && !b.ext && a.seg == .abs && b.seg != .abs)
        || (!a.ext && b.ext && b.seg == .abs && a.seg != .abs)
  | .BSUB =>
      -- an external symbol and a relocatable operand of the segment its chain is in
      a.ext && !b.ext && a.seg == b.seg && b.seg != .abs
  | .BEQ | .BNE | .BLT | .BLE | .BGT | .BGE | .BLESS =>
      -- what a difference may have
      (b == .abs && a != .abs) || (!b.ext && b.seg != .abs && a.seg == b.seg)
  | .BSHR | .BSHL =>
      -- anything shifted
      b == .abs && a != .abs
  | _ => false

/-- The mode the next character constant would get: the one `OPMODE` has after an expression. -/
def stale : Expr → Kind → Option Kind
  | .leaf (.qconst _), k => some k
  | .leaf a, _ => some a.kind
  | .par t, k => stale t k
  | .pre none t, k => stale t k
  | .pre (some _) t, _ => mode t
  | .bin _ _ r, _ => mode r

/-- No operator meets a violation its check does not see, and no character constant is read after a
mode that is not absolute; `k` is the mode in `OPMODE`. Behind the first violation that is seen
nothing is asked. -/
def Safe : Expr → Kind → Prop
  | .leaf (.qconst _), k => k = .abs
  | .leaf _, _ => True
  | .par t, k => Safe t k
  | .pre _ t, k => Safe t k
  | .bin o l r, k =>
    Safe l k ∧ (∀ a, mode l = some a → ∀ k', stale l k = some k' → Safe r k')
      ∧ ∀ a b, mode l = some a → mode r = some b → slips o a b = false

/-- What the check of an operator does, in terms of the bits: the mode it leaves and whether it
refuses. -/
def check (o : BOp) (a b : Kind) : Kind × Bool :=
  match o with
  | .BADD =>
      let ext := a.ext || b.ext
      if b.seg = .abs then ({ a with ext }, a.ext && b.ext)
      else if a.seg ≠ .abs then ({ a with ext }, true)
      else ({ seg := b.seg, ext }, a.ext && b.ext)
  | .BSUB | .BEQ | .BNE | .BLT | .BLE | .BGT | .BGE | .BLESS =>
      if b.seg = .abs then (a, b.ext)
      else if a.seg ≠ b.seg then (a, true)
      else (.abs, b.ext)
  | .BSHR | .BSHL => (a, b != .abs)
  | _ => (a, b != .abs || a != .abs)

/-- The check of an operator either refuses a violation or lets it slip, and obeys the rule
otherwise. -/
def Exact (o : BOp) (a b : Kind) : Bool :=
  match rule o a b with
  | some k => decide (slips o a b = false ∧ check o a b = (k, false))
  | none => (check o a b).2 == !slips o a b

theorem exact_all (o : BOp) (a b : Kind) : Exact o a b = true := by
  obtain ⟨sa, ea⟩ := a
  obtain ⟨sb, eb⟩ := b
  have add : Exact .BADD ⟨sa, ea⟩ ⟨sb, eb⟩ = true := by
    cases sa <;> cases ea <;> cases sb <;> cases eb <;> rfl
  have sub : Exact .BSUB ⟨sa, ea⟩ ⟨sb, eb⟩ = true := by
    cases sa <;> cases ea <;> cases sb <;> cases eb <;> rfl
  have compare : Exact .BEQ ⟨sa, ea⟩ ⟨sb, eb⟩ = true := by
    cases sa <;> cases ea <;> cases sb <;> cases eb <;> rfl
  have shift : Exact .BSHR ⟨sa, ea⟩ ⟨sb, eb⟩ = true := by
    cases sa <;> cases ea <;> cases sb <;> cases eb <;> rfl
  have mix : Exact .BMULT ⟨sa, ea⟩ ⟨sb, eb⟩ = true := by
    cases sa <;> cases ea <;> cases sb <;> cases eb <;> rfl
  cases o with
  | BADD => exact add
  | BSUB => exact sub
  | BEQ | BNE | BLT | BLE | BGT | BGE | BLESS => exact compare
  | BSHR | BSHL => exact shift
  | BMULT | BDIV | BMOD | BAND | BOR | BXOR => exact mix

section check

variable {o : BOp} {a b k : Kind}

theorem check_of_rule (h : rule o a b = some k) : check o a b = (k, false) := by
  have exact := exact_all o a b
  rw [Exact, h] at exact
  exact (of_decide_eq_true exact).2

theorem check_of_none (h : rule o a b = none) : (check o a b).2 = !slips o a b := by
  have exact := exact_all o a b
  rw [Exact, h] at exact
  exact eq_of_beq exact

/-- What slips is a violation. -/
theorem rule_of_slips (h : slips o a b = true) : rule o a b = none := by
  cases hr : rule o a b with
  | none => rfl
  | some k =>
    have exact := exact_all o a b
    rw [Exact, hr] at exact
    exact absurd ((of_decide_eq_true exact).1.symm.trans h) nofun

end check

/-! ### The checks of the code -/

/-- A step leaves the mode `k`, and sets `R` exactly when `b`; the last operand's mode and the
COMMON block stay. -/
structure Leaves (m : Mode) (s s' : Side) (k : Kind) (b : Bool) : Prop where
  kind : m.kind = k
  errs : .R ∈ s'.errs ↔ .R ∈ s.errs ∨ b = true
  opmode : s'.OPMODE = s.OPMODE
  opcomn : s'.OPCOMN = s.OPCOMN

section leaves

variable {ev : Mode} {s : Side}

theorem ADDM_leaves : Leaves (ADDM ev s).1 s (ADDM ev s).2 (check .BADD ev.kind s.OPMODE.kind).1
    (check .BADD ev.kind s.OPMODE.kind).2 := by
  obtain ⟨sa, ea, ga, ua⟩ := ev
  obtain ⟨⟨sb, eb, gb, ub⟩, c, errs⟩ := s
  cases sa <;> cases ea <;> cases sb <;> cases eb <;> constructor <;>
    simp [ADDM, ADDEX, RELERR, check, Mode.kind]

theorem SUBM_leaves : Leaves (SUBM ev s).1 s (SUBM ev s).2 (check .BSUB ev.kind s.OPMODE.kind).1
    (check .BSUB ev.kind s.OPMODE.kind).2 := by
  obtain ⟨sa, ea, ga, ua⟩ := ev
  obtain ⟨⟨sb, eb, gb, ub⟩, c, errs⟩ := s
  cases sa <;> cases ea <;> cases sb <;> cases eb <;> constructor <;>
    simp [SUBM, SUBEX, RELERR, check, Mode.kind, Mode.zero, Kind.abs]

theorem UNARYM_leaves :
    Leaves ev s (UNARYM s) ev.kind (s.OPMODE.kind != .abs) := by
  obtain ⟨⟨sb, eb, gb, ub⟩, c, errs⟩ := s
  cases sb <;> cases eb <;> constructor <;> simp [UNARYM, RELERR, Mode.kind, Kind.abs]

theorem MIXM_leaves :
    Leaves ev s (MIXM ev s) ev.kind (s.OPMODE.kind != .abs || ev.kind != .abs) := by
  obtain ⟨sa, ea, ga, ua⟩ := ev
  obtain ⟨⟨sb, eb, gb, ub⟩, c, errs⟩ := s
  cases sa <;> cases ea <;> cases sb <;> cases eb <;> constructor <;>
    simp [MIXM, RELERR, Mode.kind, Kind.abs]

/-- The division by zero is another error. -/
theorem Leaves.zero {m : Mode} {s' : Side} {k : Kind} {b : Bool} (h : Leaves m s s' k b) :
    Leaves m s { s' with errs := .Z :: s'.errs } k b := by
  refine ⟨h.kind, ?_, h.opmode, h.opcomn⟩
  rw [← h.errs, List.mem_cons]
  exact ⟨fun h => h.resolve_left nofun, .inr⟩

theorem mode_leaves (o : BOp) (hl : ℕ) (ev : Mode) (s : Side) :
    Leaves (o.mode hl ev s).1 s (o.mode hl ev s).2 (check o ev.kind s.OPMODE.kind).1
      (check o ev.kind s.OPMODE.kind).2 := by
  cases o with
  | BADD => exact ADDM_leaves
  | BSUB | BEQ | BNE | BLT | BLE | BGT | BGE | BLESS => exact SUBM_leaves
  | BSHR | BSHL => exact UNARYM_leaves
  | BMULT | BAND | BOR | BXOR => exact MIXM_leaves
  | BDIV | BMOD =>
    simp only [BOp.mode]
    split
    · exact MIXM_leaves.zero
    · exact MIXM_leaves

theorem run_leaves (o : UOp) (hl : ℕ) (s : Side) :
    Leaves .zero s (o.run hl s).2 .abs (s.OPMODE.kind != .abs) := by
  obtain ⟨_, errs, opmode, opcomn⟩ : Leaves .zero s (UNARYM s) .abs _ := UNARYM_leaves
  cases o <;> exact ⟨rfl, errs, opmode, opcomn⟩

end leaves

/-! ### COMMON blocks -/

/-- The COMMON block an operand refers to, zero for none. -/
def Operand.block : Operand → ℕ
  | pcref _ seg common => if seg = .common then common else 0
  | ident _ m common => if m.seg = .common then common else 0
  | num _ | qconst _ => 0

/-- An expression refers to the COMMON block `c` at most. -/
def Meets (c : ℕ) : Expr → Prop
  | .leaf a => a.block = 0 ∨ a.block = c
  | .par t => Meets c t
  | .pre _ t => Meets c t
  | .bin _ l r => Meets c l ∧ Meets c r

/-- The only COMMON pointer the evaluator keeps is enough. -/
def OneBlock (t : Expr) : Prop := ∃ c, Meets c t

/-- The side of an evaluation that went well so far. -/
structure Clean (c : ℕ) (k : Kind) (s : Side) : Prop where
  opmode : s.OPMODE.kind = k
  errs : .R ∉ s.errs
  opcomn : s.OPCOMN = 0 ∨ s.OPCOMN = c

theorem COMNM_clean {c : ℕ} (de : ℕ) {k : Kind} {s : Side} (hs : Clean c k s)
    (hd : s.OPMODE.seg = .common → de = 0 ∨ de = c) : Clean c k (COMNM de s) := by
  obtain ⟨opmode, errs, opcomn⟩ := hs
  unfold COMNM
  by_cases seg : s.OPMODE.seg = .common
  · rw [if_neg (not_not_intro seg)]
    by_cases zero : de = 0
    · rw [if_pos zero]
      exact ⟨opmode, errs, opcomn⟩
    · have here : de = c := (hd seg).resolve_left zero
      rw [if_neg zero]
      by_cases first : s.OPCOMN = 0
      · rw [if_pos first]
        exact ⟨opmode, errs, .inr here⟩
      · rw [if_neg first, if_pos ((opcomn.resolve_left first).trans here.symm)]
        exact ⟨opmode, errs, opcomn⟩
  · rw [if_pos seg]
    exact ⟨opmode, errs, opcomn⟩

/-- An operand stores its mode; a character constant stores the one it finds. -/
theorem store_clean {c : ℕ} {k : Kind} {a : Operand} {s : Side} (hs : Clean c k s)
    (ha : a.block = 0 ∨ a.block = c) :
    ∃ k', stale (.leaf a) k = some k' ∧ (a.store s).1.2.kind = k' ∧ Clean c k' (a.store s).2 := by
  obtain ⟨opmode, errs, opcomn⟩ := hs
  cases a with
  | num v => exact ⟨.abs, rfl, rfl, rfl, errs, opcomn⟩
  | qconst v => exact ⟨k, rfl, opmode, opmode, errs, opcomn⟩
  | pcref v seg common =>
    refine ⟨_, rfl, rfl, ?_⟩
    have start : Clean c { seg, ext := false } { s with OPMODE := { Mode.zero with seg } } :=
      ⟨rfl, errs, opcomn⟩
    simp only [Operand.store, Operand.kind]
    split
    · next h =>
      refine COMNM_clean _ start fun _ => ?_
      rwa [Operand.block, if_pos h] at ha
    · exact start
  | ident v m common =>
    refine ⟨_, rfl, ?_⟩
    have start : Clean c m.kind { s with OPMODE := m } := ⟨rfl, errs, opcomn⟩
    have met := COMNM_clean common start fun h => by rwa [Operand.block, if_pos h] at ha
    simp only [Operand.store, Operand.kind]
    split
    · exact ⟨rfl, rfl, met.errs, met.opcomn⟩
    · exact ⟨rfl, met⟩

/-- Where nothing slips and no constant takes a stale mode, the rules hold. -/
theorem eval_safe {c : ℕ} {k : Kind} {t : Expr} {s : Side} (hm : Meets c t) (hs : Clean c k s)
    (safe : Safe t k) :
    (∀ a, mode t = some a → (eval t s).1.2.kind = a
      ∧ ∃ k', stale t k = some k' ∧ Clean c k' (eval t s).2)
    ∧ (mode t = none → .R ∈ (eval t s).2.errs) := by
  induction t generalizing k s with
  | leaf a =>
    refine ⟨?_, fun h => by cases h⟩
    rintro _ ⟨⟩
    obtain ⟨k', last, kind, clean⟩ := store_clean hs hm
    refine ⟨?_, k', last, clean⟩
    cases a with
    | qconst v =>
      obtain rfl : k = .abs := safe
      exact kind.trans (Option.some.inj last).symm
    | num v | pcref v seg common | ident v m common =>
      exact kind.trans (Option.some.inj last).symm
  | par t ih => exact ih hm hs safe
  | pre o t ih =>
    cases o with
    | none => exact ih hm hs safe
    | some o =>
      obtain ⟨found, violated⟩ := ih hm hs safe
      have step := run_leaves o (eval t s).1.1 { (eval t s).2 with OPMODE := (eval t s).1.2 }
      cases ht : mode t with
      | none =>
        refine ⟨fun a h => ?_, fun _ => step.errs.mpr (.inl (violated ht))⟩
        rw [mode, ht] at h
        cases h
      | some a =>
        obtain ⟨kind, k', _, clean⟩ := found a ht
        have same : ({ (eval t s).2 with OPMODE := (eval t s).1.2 } : Side).OPMODE.kind = a := kind
        rw [same] at step
        by_cases absolute : a = .abs
        · rw [mode, ht, Option.bind_some, if_pos absolute]
          refine ⟨?_, fun h => by cases h⟩
          rintro _ ⟨⟩
          refine ⟨step.kind, a, ht, (congrArg Mode.kind step.opmode).trans kind, fun h => ?_, ?_⟩
          swap
          · rw [eval, step.opcomn]
            exact clean.opcomn
          rcases step.errs.mp h with h | h
          · exact clean.errs h
          · rw [absolute] at h
            exact absurd h (by decide)
        · rw [mode, ht, Option.bind_some, if_neg absolute]
          exact ⟨by rintro _ ⟨⟩, fun _ => step.errs.mpr (.inr (bne_iff_ne.mpr absolute))⟩
  | bin o l r ihl ihr =>
    obtain ⟨safel, safer, no_slip⟩ := safe
    obtain ⟨foundl, violatedl⟩ := ihl hm.1 hs safel
    have step := mode_leaves o (eval r (eval l s).2).1.1 (eval l s).1.2
      { (eval r (eval l s).2).2 with OPMODE := (eval r (eval l s).2).1.2 }
    have seen (h : .R ∈ (eval r (eval l s).2).2.errs) : .R ∈ (eval (.bin o l r) s).2.errs :=
      step.errs.mpr (.inl h)
    cases hl : mode l with
    | none =>
      refine ⟨fun a h => ?_, fun _ => seen ((eval_adds r _).mem (violatedl hl))⟩
      rw [mode, hl] at h
      cases h
    | some a =>
      obtain ⟨kindl, k₁, last, clean₁⟩ := foundl a hl
      obtain ⟨foundr, violatedr⟩ := ihr hm.2 clean₁ (safer a hl k₁ last)
      cases hr : mode r with
      | none =>
        refine ⟨fun b h => ?_, fun _ => seen (violatedr hr)⟩
        rw [mode, hl, Option.bind_some, hr] at h
        cases h
      | some b =>
        obtain ⟨kindr, k₂, _, clean₂⟩ := foundr b hr
        have second : ({ (eval r (eval l s).2).2 with
            OPMODE := (eval r (eval l s).2).1.2 } : Side).OPMODE.kind = b := kindr
        rw [second, kindl] at step
        have ruled : mode (.bin o l r) = rule o a b := by
          rw [mode, hl, Option.bind_some, hr, Option.bind_some]
        rw [ruled]
        cases obeyed : rule o a b with
        | none =>
          refine ⟨by rintro _ ⟨⟩, fun _ => step.errs.mpr (.inr ?_)⟩
          rw [check_of_none obeyed, no_slip a b hl hr]
          rfl
        | some k =>
          rw [check_of_rule obeyed] at step
          refine ⟨?_, fun h => by cases h⟩
          rintro _ ⟨⟩
          refine ⟨step.kind, b, hr, (congrArg Mode.kind step.opmode).trans kindr, fun h => ?_, ?_⟩
          · rcases step.errs.mp h with h | h
            · exact clean₂.errs h
            · cases h
          · rw [eval, step.opcomn]
            exact clean₂.opcomn

/-! ### Every part in its place -/

/-- The rules for an expression evaluated in the state `s`: a violation sets `R`, and without one
there is no `R` and the mode is as the rules say. -/
def Obeys (t : Expr) (s : Side) : Prop :=
  (mode t = none → .R ∈ (eval t s).2.errs)
    ∧ ∀ a, mode t = some a → .R ∉ (eval t s).2.errs ∧ (eval t s).1.2.kind = a

/-- An expression behind an error is not asked. -/
def Fine (t : Expr) (s : Side) : Prop := .R ∉ s.errs → Obeys t s

/-- The expression and all its parts obey the rules in the state they are evaluated in. -/
def Throughout : Expr → Side → Prop
  | .leaf a, s => Fine (.leaf a) s
  | .par t, s => Throughout t s
  | .pre o t, s => Throughout t s ∧ Fine (.pre o t) s
  | .bin o l r, s => Throughout l s ∧ Throughout r (eval l s).2 ∧ Fine (.bin o l r) s

theorem throughout_of_mem {t : Expr} {s : Side} (h : .R ∈ s.errs) : Throughout t s := by
  induction t generalizing s with
  | leaf a => exact (absurd h ·)
  | par t ih => exact ih h
  | pre o t ih => exact ⟨ih h, (absurd h ·)⟩
  | bin o l r ihl ihr => exact ⟨ihl h, ihr ((eval_adds l s).mem h), (absurd h ·)⟩

theorem fine_of_safe {c : ℕ} {k : Kind} {t : Expr} {s : Side} (hm : Meets c t) (hs : Clean c k s)
    (safe : Safe t k) : Fine t s := by
  intro _
  obtain ⟨found, violated⟩ := eval_safe hm hs safe
  refine ⟨violated, fun a ha => ?_⟩
  obtain ⟨kind, _, _, clean⟩ := found a ha
  exact ⟨clean.errs, kind⟩

theorem Throughout.fine {t : Expr} {s : Side} (h : Throughout t s) : Fine t s := by
  induction t generalizing s with
  | leaf a => exact h
  | par t ih => exact ih h
  | pre o t ih => exact h.2
  | bin o l r ihl ihr => exact h.2.2

/-- All parts obey the rules exactly when nothing slips and no constant takes a stale mode. -/
theorem throughout_iff {c : ℕ} {k : Kind} {t : Expr} {s : Side} (hm : Meets c t)
    (hs : Clean c k s) : Throughout t s ↔ Safe t k := by
  induction t generalizing k s with
  | leaf a =>
    refine ⟨fun h => ?_, fun safe => fine_of_safe hm hs safe⟩
    obtain ⟨_, all⟩ := h hs.errs
    cases a with
    | qconst v =>
      obtain ⟨_, kind⟩ := all .abs rfl
      exact hs.opmode.symm.trans kind
    | num v | pcref v seg common | ident v m common => trivial
  | par t ih => exact ih hm hs
  | pre o t ih =>
    refine ⟨fun h => (ih hm hs).mp h.1, fun safe => ⟨(ih hm hs).mpr safe, ?_⟩⟩
    exact fine_of_safe hm hs safe
  | bin o l r ihl ihr =>
    constructor
    · rintro ⟨left, right, whole⟩
      have safel : Safe l k := (ihl hm.1 hs).mp left
      obtain ⟨foundl, _⟩ := eval_safe hm.1 hs safel
      have safer : ∀ a, mode l = some a → ∀ k', stale l k = some k' → Safe r k' := by
        intro a hl k' last
        obtain ⟨_, k₁, last₁, clean₁⟩ := foundl a hl
        obtain rfl : k₁ = k' := Option.some.inj (last₁.symm.trans last)
        exact (ihr hm.2 clean₁).mp right
      refine ⟨safel, safer, fun a b hl hr => ?_⟩
      obtain ⟨kindl, k₁, last, clean₁⟩ := foundl a hl
      obtain ⟨kindr, _, _, clean₂⟩ := (eval_safe hm.2 clean₁ (safer a hl k₁ last)).1 b hr
      have step := mode_leaves o (eval r (eval l s).2).1.1 (eval l s).1.2
        { (eval r (eval l s).2).2 with OPMODE := (eval r (eval l s).2).1.2 }
      have second : ({ (eval r (eval l s).2).2 with
          OPMODE := (eval r (eval l s).2).1.2 } : Side).OPMODE.kind = b := kindr
      rw [second, kindl] at step
      by_contra slip
      have slipped := Bool.eq_true_of_not_eq_false slip
      have ruled : mode (.bin o l r) = none := by
        rw [mode, hl, Option.bind_some, hr, Option.bind_some, rule_of_slips slipped]
      -- the rules ask for an `R` here, and the check sets none
      rcases step.errs.mp ((whole hs.errs).1 ruled) with h | h
      · exact clean₂.errs h
      · rw [check_of_none (rule_of_slips slipped), slipped] at h
        cases h
    · intro safe
      refine ⟨(ihl hm.1 hs).mpr safe.1, ?_, fine_of_safe hm hs safe⟩
      obtain ⟨foundl, violatedl⟩ := eval_safe hm.1 hs safe.1
      cases hl : mode l with
      | none => exact throughout_of_mem (violatedl hl)
      | some a =>
        obtain ⟨_, k₁, last, clean₁⟩ := foundl a hl
        exact (ihr hm.2 clean₁).mpr (safe.2.1 a hl k₁ last)

/-! ### More than one COMMON block -/

/-- Without an error the block in `OPCOMN` stays once it is known, and is the only one met. -/
structure Blocks (c c' : ℕ) (t : Expr) : Prop where
  meets : Meets c' t
  keeps : c ≠ 0 → c' = c

theorem Meets.keep {c c' : ℕ} {t : Expr} (h : Meets c t) (hc : c ≠ 0 → c' = c) : Meets c' t := by
  induction t with
  | leaf a =>
    refine h.elim .inl fun same => ?_
    by_cases zero : c = 0
    · exact .inl (same.trans zero)
    · exact .inr (same.trans (hc zero).symm)
  | par t ih => exact ih h
  | pre o t ih => exact ih h
  | bin o l r ihl ihr => exact ⟨ihl h.1, ihr h.2⟩

theorem COMNM_blocks {de : ℕ} {s : Side} (h : .R ∉ (COMNM de s).errs) :
    (s.OPMODE.seg = .common → de = 0 ∨ de = (COMNM de s).OPCOMN)
      ∧ (s.OPCOMN ≠ 0 → (COMNM de s).OPCOMN = s.OPCOMN) := by
  unfold COMNM at h ⊢
  by_cases seg : s.OPMODE.seg = .common
  · rw [if_neg (not_not_intro seg)] at h ⊢
    by_cases zero : de = 0
    · rw [if_pos zero]
      exact ⟨fun _ => .inl zero, fun _ => rfl⟩
    · rw [if_neg zero] at h ⊢
      by_cases first : s.OPCOMN = 0
      · rw [if_pos first]
        exact ⟨fun _ => .inr rfl, (absurd first ·)⟩
      · rw [if_neg first] at h ⊢
        by_cases same : s.OPCOMN = de
        · rw [if_pos same]
          exact ⟨fun _ => .inr same.symm, fun _ => rfl⟩
        · rw [if_neg same] at h
          exact absurd List.mem_cons_self h
  · rw [if_pos seg]
    exact ⟨(absurd · seg), fun _ => rfl⟩

theorem store_blocks {a : Operand} {s : Side} (h : .R ∉ (a.store s).2.errs) :
    Blocks s.OPCOMN (a.store s).2.OPCOMN (.leaf a) := by
  cases a with
  | num v | qconst v => exact ⟨.inl rfl, fun _ => rfl⟩
  | pcref v seg common =>
    simp only [Operand.store] at h ⊢
    by_cases here : seg = .common
    · rw [if_pos here] at h ⊢
      obtain ⟨met, keeps⟩ := COMNM_blocks h
      refine ⟨?_, keeps⟩
      rw [Meets, Operand.block, if_pos here]
      exact met here
    · rw [if_neg here]
      exact ⟨.inl (if_neg here), fun _ => rfl⟩
  | ident v m common =>
    have known (h : .R ∉ (COMNM common { s with OPMODE := m }).errs) :
        Blocks s.OPCOMN (COMNM common { s with OPMODE := m }).OPCOMN (.leaf (.ident v m common)) := by
      obtain ⟨met, keeps⟩ := COMNM_blocks h
      refine ⟨?_, keeps⟩
      rw [Meets, Operand.block]
      split
      · next here => exact met here
      · exact .inl rfl
    simp only [Operand.store] at h ⊢
    split at h
    · next undefined =>
      rw [if_pos undefined]
      exact known h
    · next defined =>
      rw [if_neg defined]
      exact known h

theorem eval_blocks {t : Expr} {s : Side} (h : .R ∉ (eval t s).2.errs) :
    Blocks s.OPCOMN (eval t s).2.OPCOMN t := by
  induction t generalizing s with
  | leaf a => exact store_blocks h
  | par t ih =>
    obtain ⟨meets, keeps⟩ := ih h
    exact ⟨meets, keeps⟩
  | pre o t ih =>
    cases o with
    | none =>
      obtain ⟨meets, keeps⟩ := ih h
      exact ⟨meets, keeps⟩
    | some o =>
      have step := run_leaves o (eval t s).1.1 { (eval t s).2 with OPMODE := (eval t s).1.2 }
      obtain ⟨meets, keeps⟩ := ih fun he => h (step.errs.mpr (.inl he))
      rw [eval, step.opcomn]
      exact ⟨meets, keeps⟩
  | bin o l r ihl ihr =>
    have step := mode_leaves o (eval r (eval l s).2).1.1 (eval l s).1.2
      { (eval r (eval l s).2).2 with OPMODE := (eval r (eval l s).2).1.2 }
    have right : .R ∉ (eval r (eval l s).2).2.errs := fun he => h (step.errs.mpr (.inl he))
    obtain ⟨meetsr, keepsr⟩ := ihr right
    obtain ⟨meetsl, keepsl⟩ := ihl fun he => right ((eval_adds r _).mem he)
    rw [eval, step.opcomn]
    refine ⟨⟨meetsl.keep keepsr, meetsr⟩, fun hc => ?_⟩
    have first := keepsl hc
    exact (keepsr (first.symm ▸ hc)).trans first

/-! ### What `EVAL` returns -/

/-- The state `EVAL` starts in. -/
def start : Side := { OPMODE := .zero, OPCOMN := 0, errs := [] }

/-- An expression `EVAL` accepts, with the tree it reads. -/
structure Accepts (ts : List Sym) (t : Expr) (rest : List Sym) : Prop where
  parses : Parses ts t rest
  fits : need t ≤ OSTKSZ
  careful : careful ts false ([], none) = true

/-- The rules for an expression of a line. With more than one COMMON block it is refused. -/
structure Ruled (ts : List Sym) (t : Expr) : Prop where
  blocks : ¬ OneBlock t → .R ∈ (EVAL ts).errs
  violated : OneBlock t → mode t = none → .R ∈ (EVAL ts).errs
  obeyed : OneBlock t → ∀ k, mode t = some k →
    .R ∉ (EVAL ts).errs ∧ (EVAL ts).result.map (Mode.kind ∘ Prod.snd) = some k

theorem Accepts.eval {ts rest : List Sym} {t : Expr} (h : Accepts ts t rest) :
    EVAL ts = .ok t start rest := by
  have outcome : Outcome ts ([], none) start (EVAL ts) :=
    EVAL1_outcome ⟨rfl, rfl, rfl⟩ ⟨Nat.zero_le _, Nat.zero_le _, fun _ h => nomatch h⟩ h.careful
      nofun
  exact outcome.found t rest (parses_iff.mp h.parses) h.fits

/-- The rules hold for an accepted expression and for all its parts exactly when nothing slips and
no constant takes a stale mode. -/
theorem ruled_iff {ts rest : List Sym} {t : Expr} (h : Accepts ts t rest) :
    (Ruled ts t ∧ (OneBlock t → Throughout t start)) ↔ (OneBlock t → Safe t .abs) := by
  have fresh (c : ℕ) : Clean c .abs start := ⟨rfl, nofun, .inl rfl⟩
  constructor
  · rintro ⟨_, parts⟩ one
    obtain ⟨c, meets⟩ := one
    exact (throughout_iff meets (fresh c)).mp (parts ⟨c, meets⟩)
  · intro safe
    have parts : OneBlock t → Throughout t start := by
      rintro ⟨c, meets⟩
      exact (throughout_iff meets (fresh c)).mpr (safe ⟨c, meets⟩)
    have obeys (one : OneBlock t) : Obeys t start := (parts one).fine nofun
    refine ⟨⟨fun many => ?_, fun one none => ?_, fun one k hk => ?_⟩, parts⟩
    · rw [h.eval]
      by_contra no_error
      exact many ⟨_, (eval_blocks no_error).meets⟩
    · rw [h.eval]
      exact (obeys one).1 none
    · rw [h.eval]
      obtain ⟨no_error, kind⟩ := (obeys one).2 k hk
      exact ⟨no_error, congrArg some kind⟩

/-- A label of the code segment. -/
def label (v : ℕ) : Sym := .val (.ident v { Mode.zero with seg := .code } 0)

/-- An external symbol without a chain. -/
def external : Sym := .val (.ident 0 { Mode.zero with ext := true } 0)

/-- `external + ( label - label )` obeys the rules. -/
theorem ruled_external :
    Accepts [external, .plus, .lpar, label 8, .minus, label 2, .rpar]
        (.bin .BADD (.leaf (.ident 0 { Mode.zero with ext := true } 0))
          (.par (.bin .BSUB (.leaf (.ident 8 { Mode.zero with seg := .code } 0))
            (.leaf (.ident 2 { Mode.zero with seg := .code } 0))))) []
      ∧ Ruled [external, .plus, .lpar, label 8, .minus, label 2, .rpar]
        (.bin .BADD (.leaf (.ident 0 { Mode.zero with ext := true } 0))
          (.par (.bin .BSUB (.leaf (.ident 8 { Mode.zero with seg := .code } 0))
            (.leaf (.ident 2 { Mode.zero with seg := .code } 0))))) := by
  have accepts : Accepts [external, .plus, .lpar, label 8, .minus, label 2, .rpar]
      (.bin .BADD (.leaf (.ident 0 { Mode.zero with ext := true } 0))
        (.par (.bin .BSUB (.leaf (.ident 8 { Mode.zero with seg := .code } 0))
          (.leaf (.ident 2 { Mode.zero with seg := .code } 0))))) [] :=
    ⟨parses_iff.mpr rfl, by decide, by decide⟩
  refine ⟨accepts, ((ruled_iff accepts).mpr fun _ => ?_).1⟩
  refine ⟨trivial, fun _ _ _ _ => ⟨trivial, fun _ _ _ _ => trivial, ?_⟩, ?_⟩
  · rintro _ _ ⟨⟩ ⟨⟩
    rfl
  · rintro _ _ ⟨⟩ ⟨⟩
    rfl

/-- `label EQ 0` is refused by the rules, and passes with a truth value that is relocated. -/
theorem not_ruled_equal :
    Accepts [label 8, .bin .BEQ, .val (.num 0)]
        (.bin .BEQ (.leaf (.ident 8 { Mode.zero with seg := .code } 0)) (.leaf (.num 0))) []
      ∧ ¬ Ruled [label 8, .bin .BEQ, .val (.num 0)]
        (.bin .BEQ (.leaf (.ident 8 { Mode.zero with seg := .code } 0)) (.leaf (.num 0))) := by
  refine ⟨⟨parses_iff.mpr rfl, by decide, by decide⟩, fun h => ?_⟩
  have error := h.violated ⟨0, .inl rfl, .inl rfl⟩ rfl
  revert error
  decide

end RSX280.Eval
