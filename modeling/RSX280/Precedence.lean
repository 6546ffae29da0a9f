import Mathlib.Data.List.Basic
import Mathlib.Tactic.Common

/-!
# Operator precedence

Infix expressions with prefix operators, and the parser that keeps the operators it has not applied
yet on a stack. A tree is `Good` when it is the one the precedences ask for: what is left of a
binary operator binds at least as tight at its open right edge, what is right of an operator binds
tighter at its open left edge, so that equal precedences associate to the left. The stack of the
parser is a list of frames, trees with a hole, and the operand read last fills the upper one.

`steps_print` is one half: the parser finds a good tree again in its print. `Inv.step` is the other:
whatever it reads, it has read the print of a good tree.
-/

namespace RSX280.Precedence

variable {A P B : Type}

/-- The symbols of an expression over operands `A`, prefix operators `P` and binary
operators `B`. -/
inductive Tok (A P B : Type)
  | val (a : A)
  | lpar
  | rpar
  | pre (o : P)
  | bin (o : B)

/-- An expression, its parentheses kept. -/
inductive Tree (A P B : Type)
  | leaf (a : A)
  | par (t : Tree A P B)
  | pre (o : P) (t : Tree A P B)
  | bin (o : B) (l r : Tree A P B)

/-- An expression whose last operand is missing. -/
inductive Frame (A P B : Type)
  | par
  | pre (o : P)
  | bin (o : B) (l : Tree A P B)

namespace Tree

/-- The symbols in reading order. -/
def print : Tree A P B → List (Tok A P B)
  | leaf a => [.val a]
  | par t => .lpar :: (t.print ++ [.rpar])
  | pre o t => .pre o :: t.print
  | bin o l r => l.print ++ .bin o :: r.print

variable (prec : P ⊕ B → ℕ)

/-- The operators open at the right edge bind at least as tight as `h`. -/
def Closes (h : ℕ) : Tree A P B → Prop
  | leaf _ => True
  | par _ => True
  | pre o t => h ≤ prec (.inl o) ∧ Closes h t
  | bin o _ r => h ≤ prec (.inr o) ∧ Closes h r

/-- The binary operators open at the left edge bind tighter than `h`. -/
def Opens (h : ℕ) : Tree A P B → Prop
  | leaf _ => True
  | par _ => True
  | pre _ _ => True
  | bin o l _ => h < prec (.inr o) ∧ Opens h l

/-- The tree the precedences ask for. -/
def Good : Tree A P B → Prop
  | leaf _ => True
  | par t => Good t
  | pre o t => Good t ∧ Opens prec (prec (.inl o)) t
  | bin o l r => Good l ∧ Good r ∧ Closes prec (prec (.inr o)) l ∧ Opens prec (prec (.inr o)) r

theorem closes_zero (t : Tree A P B) : Closes prec 0 t := by
  induction t with
  | leaf a => trivial
  | par t _ => trivial
  | pre o t ih => exact ⟨Nat.zero_le _, ih⟩
  | bin o l r _ ih => exact ⟨Nat.zero_le _, ih⟩

/-- The operators that wait for what follows the tree, the innermost first. -/
def pend : Tree A P B → List (Frame A P B)
  | leaf _ => []
  | par _ => []
  | pre o t => pend t ++ [.pre o]
  | bin o l r => pend r ++ [.bin o l]

/-- The operand read last. -/
def last : Tree A P B → Tree A P B
  | leaf a => leaf a
  | par t => par t
  | pre _ t => last t
  | bin _ _ r => last r

end Tree

namespace Frame

/-- The symbols read before the hole. -/
def print : Frame A P B → List (Tok A P B)
  | par => [.lpar]
  | pre o => [.pre o]
  | bin o l => l.print ++ [.bin o]

/-- The operators open above binary operators bind tighter than `h`. -/
def Opens (prec : P ⊕ B → ℕ) (h : ℕ) : Frame A P B → Prop
  | par => True
  | pre _ => True
  | bin o l => h < prec (.inr o) ∧ l.Opens prec h

def Good (prec : P ⊕ B → ℕ) : Frame A P B → Prop
  | par => True
  | pre _ => True
  | bin o l => l.Good prec ∧ l.Closes prec (prec (.inr o))

end Frame

variable (prec : P ⊕ B → ℕ)

/-- The operators of the stack that bind at least as tight as `h` are applied. -/
def reduce (h : ℕ) : List (Frame A P B) → Tree A P B → List (Frame A P B) × Tree A P B
  | [], t => ([], t)
  | .par :: F, t => (.par :: F, t)
  | .pre o :: F, t => if h ≤ prec (.inl o) then reduce h F (.pre o t) else (.pre o :: F, t)
  | .bin o l :: F, t => if h ≤ prec (.inr o) then reduce h F (.bin o l t) else (.bin o l :: F, t)

/-- With no bound everything up to a bracket is applied. -/
theorem reduce_zero (F : List (Frame A P B)) (t : Tree A P B) :
    (reduce prec 0 F t).1 = [] ∨ ∃ G, (reduce prec 0 F t).1 = .par :: G := by
  induction F generalizing t with
  | nil => exact .inl rfl
  | cons f F ih =>
    cases f with
    | par => exact .inr ⟨F, rfl⟩
    | pre o =>
      rw [reduce, if_pos (Nat.zero_le _)]
      exact ih _
    | bin o l =>
      rw [reduce, if_pos (Nat.zero_le _)]
      exact ih _

/-- A symbol read: an operand is expected (`none`), or one has been read. -/
def step : List (Frame A P B) × Option (Tree A P B) → Tok A P B →
    Option (List (Frame A P B) × Option (Tree A P B))
  | (F, none), .val a => some (F, some (.leaf a))
  | (F, none), .lpar => some (.par :: F, none)
  | (F, none), .pre o => some (.pre o :: F, none)
  | (F, some t), .bin o =>
      let R := reduce prec (prec (.inr o)) F t
      some (.bin o R.2 :: R.1, none)
  | (F, some t), .rpar =>
      match reduce prec 0 F t with
      | (.par :: F, t) => some (F, some (.par t))
      | _ => none
  | _, _ => none

/-- The symbols read one after the other. -/
def steps (s : List (Frame A P B) × Option (Tree A P B)) (ts : List (Tok A P B)) :
    Option (List (Frame A P B) × Option (Tree A P B)) := ts.foldlM (step prec) s

theorem steps_cons (s : List (Frame A P B) × Option (Tree A P B)) (k : Tok A P B) (ts : List (Tok A P B)) :
    steps prec s (k :: ts) = (step prec s k).bind fun s => steps prec s ts := by
  rw [steps, List.foldlM_cons]
  rfl

theorem steps_append (s : List (Frame A P B) × Option (Tree A P B)) (ts us : List (Tok A P B)) :
    steps prec s (ts ++ us) = (steps prec s ts).bind fun s => steps prec s us := by
  rw [steps, List.foldlM_append]
  rfl

theorem step_rpar {F F' : List (Frame A P B)} {t t' : Tree A P B}
    (h : reduce prec 0 F t = (.par :: F', t')) :
    step prec (F, some t) .rpar = some (F', some (.par t')) := by
  rw [step, h]

/-! ### The parser finds a good tree -/

section complete

variable {prec}

/-- A tree may stand in the hole of the upper frame. -/
def FitsTop (prec : P ⊕ B → ℕ) : List (Frame A P B) → Tree A P B → Prop
  | .pre o :: _, t => t.Opens prec (prec (.inl o))
  | .bin o _ :: _, t => t.Opens prec (prec (.inr o))
  | _, _ => True

/-- What waits at the right edge is applied when the tree closes. -/
theorem reduce_pend {h : ℕ} {t : Tree A P B} (F : List (Frame A P B)) (ht : t.Closes prec h) :
    reduce prec h (t.pend ++ F) t.last = reduce prec h F t := by
  induction t generalizing F with
  | leaf a => rfl
  | par t _ => rfl
  | pre o t ih =>
    rw [Tree.pend, Tree.last, List.append_assoc, ih _ ht.2, List.singleton_append, reduce,
      if_pos ht.1]
  | bin o l r _ ih =>
    rw [Tree.pend, Tree.last, List.append_assoc, ih _ ht.2, List.singleton_append, reduce,
      if_pos ht.1]

/-- A binary operator of the left edge does not reach below the frame the tree stands in. -/
theorem reduce_top {o : B} {l r : Tree A P B} {F : List (Frame A P B)}
    (hF : FitsTop prec F (.bin o l r)) : reduce prec (prec (.inr o)) F l = (F, l) := by
  match F, hF with
  | [], _ => rfl
  | .par :: _, _ => rfl
  | .pre p :: _, hF => rw [reduce, if_neg (Nat.not_le_of_lt hF.1)]
  | .bin p _ :: _, hF => rw [reduce, if_neg (Nat.not_le_of_lt hF.1)]

theorem FitsTop.left {o : B} {l r : Tree A P B} {F : List (Frame A P B)}
    (hF : FitsTop prec F (.bin o l r)) : FitsTop prec F l := by
  match F, hF with
  | [], _ => trivial
  | .par :: _, _ => trivial
  | .pre p :: _, hF => exact hF.2
  | .bin p _ :: _, hF => exact hF.2

/-- Reading the print of a good tree leaves its open operators on the stack. -/
theorem steps_print {t : Tree A P B} {F : List (Frame A P B)} (ht : t.Good prec)
    (hF : FitsTop prec F t) :
    steps prec (F, none) t.print = some (t.pend ++ F, some t.last) := by
  induction t generalizing F with
  | leaf a => rfl
  | par t ih =>
    have inner := ih (F := .par :: F) ht trivial
    have closed := reduce_pend (h := 0) (.par :: F) (t.closes_zero prec)
    rw [Tree.print, steps_cons, step, Option.bind_some, steps_append, inner, Option.bind_some,
      steps_cons, step_rpar prec closed]
    rfl
  | pre o t ih =>
    have inner := ih (F := .pre o :: F) ht.1 ht.2
    rw [Tree.print, steps_cons, step, Option.bind_some, inner, Tree.pend, Tree.last,
      List.append_assoc, List.singleton_append]
  | bin o l r ihl ihr =>
    obtain ⟨goodl, goodr, closes, opens⟩ := ht
    have left := ihl goodl hF.left
    have right := ihr (F := .bin o l :: F) goodr opens
    have applied : reduce prec (prec (.inr o)) (l.pend ++ F) l.last = (F, l) :=
      (reduce_pend F closes).trans (reduce_top hF)
    rw [Tree.print, steps_append, left, Option.bind_some, steps_cons, step, applied,
      Option.bind_some, right, Tree.pend, Tree.last, List.append_assoc, List.singleton_append]

/-- At the end the whole tree is there. -/
theorem reduce_print {t : Tree A P B} : reduce prec 0 t.pend t.last = ([], t) := by
  have whole := reduce_pend (h := 0) [] (t.closes_zero prec)
  rwa [List.append_nil] at whole

end complete

/-! ### The parser finds nothing else -/

/-- A frame may stand above the upper one. -/
def Frame.FitsTop (prec : P ⊕ B → ℕ) : List (Frame A P B) → Frame A P B → Prop
  | .pre o :: _, f => f.Opens prec (prec (.inl o))
  | .bin o _ :: _, f => f.Opens prec (prec (.inr o))
  | _, _ => True

/-- Frames with good trees, each of which fits into the one below. -/
def Stacked : List (Frame A P B) → Prop
  | [] => True
  | f :: F => f.Good prec ∧ f.FitsTop prec F ∧ Stacked F

/-- A state of the parser: the operand read last is closed, and fits. -/
structure Inv (s : List (Frame A P B) × Option (Tree A P B)) : Prop where
  stacked : Stacked prec s.1
  good : ∀ t ∈ s.2, t.Good prec ∧ FitsTop prec s.1 t ∧ ∀ h, t.Closes prec h

/-- The symbols read so far. -/
def printed : List (Frame A P B) → List (Tok A P B)
  | [] => []
  | f :: F => printed F ++ f.print

/-- The symbols of a state. -/
def read (s : List (Frame A P B) × Option (Tree A P B)) : List (Tok A P B) :=
  printed s.1 ++ (s.2.map Tree.print).getD []

section sound

variable {prec}

/-- The upper frame, if it is an operator, binds less tight than `h`. -/
def Below (prec : P ⊕ B → ℕ) (h : ℕ) : List (Frame A P B) → Prop
  | .pre o :: _ => prec (.inl o) < h
  | .bin o _ :: _ => prec (.inr o) < h
  | _ => True

theorem fitsTop_of_opens (F : List (Frame A P B)) {t : Tree A P B} (h : ∀ n, t.Opens prec n) :
    FitsTop prec F t := by
  match F with
  | [] => trivial
  | .par :: _ => trivial
  | .pre p :: _ => exact h _
  | .bin p _ :: _ => exact h _

theorem frame_fitsTop_of_opens (F : List (Frame A P B)) {f : Frame A P B} (h : ∀ n, f.Opens prec n) :
    f.FitsTop prec F := by
  match F with
  | [] => trivial
  | .par :: _ => trivial
  | .pre p :: _ => exact h _
  | .bin p _ :: _ => exact h _

/-- A frame that fits is as good as the tree it becomes. -/
theorem fitsTop_bin {F : List (Frame A P B)} {o : B} {l : Tree A P B} (r : Tree A P B)
    (h : (Frame.bin o l).FitsTop prec F) : FitsTop prec F (.bin o l r) := by
  match F, h with
  | [], _ => trivial
  | .par :: _, _ => trivial
  | .pre p :: _, h => exact h
  | .bin p _ :: _, h => exact h

theorem frame_fitsTop {F : List (Frame A P B)} {o : B} {l : Tree A P B} (h : FitsTop prec F l)
    (below : Below prec (prec (.inr o)) F) : (Frame.bin o l).FitsTop prec F := by
  match F, h, below with
  | [], _, _ => trivial
  | .par :: _, _, _ => trivial
  | .pre p :: _, h, below => exact ⟨below, h⟩
  | .bin p _ :: _, h, below => exact ⟨below, h⟩

/-- What applying the operators of the stack keeps. -/
structure Reduced (prec : P ⊕ B → ℕ) (h : ℕ) (F : List (Frame A P B)) (t : Tree A P B) : Prop where
  stacked : Stacked prec F
  good : t.Good prec
  fits : FitsTop prec F t
  closes : t.Closes prec h

theorem reduce_reduced {h : ℕ} {F : List (Frame A P B)} {t : Tree A P B}
    (hr : Reduced prec h F t) :
    Reduced prec h (reduce prec h F t).1 (reduce prec h F t).2
      ∧ Below prec h (reduce prec h F t).1
      ∧ printed (reduce prec h F t).1 ++ (reduce prec h F t).2.print = printed F ++ t.print := by
  induction F generalizing t with
  | nil => exact ⟨hr, trivial, rfl⟩
  | cons f F ih =>
    obtain ⟨⟨goodf, fitsf, stacked⟩, good, fits, closes⟩ := hr
    cases f with
    | par => exact ⟨⟨⟨goodf, fitsf, stacked⟩, good, fits, closes⟩, trivial, rfl⟩
    | pre o =>
      unfold reduce
      split
      · next le =>
        have applied := ih (t := .pre o t) ⟨stacked, ⟨good, fits⟩, fitsTop_of_opens F fun _ => trivial,
          ⟨le, closes⟩⟩
        refine ⟨applied.1, applied.2.1, applied.2.2.trans ?_⟩
        simp only [printed, Frame.print, Tree.print, List.append_assoc, List.singleton_append]
      · next lt =>
        exact ⟨⟨⟨goodf, fitsf, stacked⟩, good, fits, closes⟩, Nat.lt_of_not_le lt, rfl⟩
    | bin o l =>
      unfold reduce
      split
      · next le =>
        have applied := ih (t := .bin o l t) ⟨stacked, ⟨goodf.1, good, goodf.2, fits⟩,
          fitsTop_bin t fitsf, ⟨le, closes⟩⟩
        refine ⟨applied.1, applied.2.1, applied.2.2.trans ?_⟩
        simp only [printed, Frame.print, Tree.print, List.append_assoc, List.singleton_append]
      · next lt =>
        exact ⟨⟨⟨goodf, fitsf, stacked⟩, good, fits, closes⟩, Nat.lt_of_not_le lt, rfl⟩

/-- A closed operand just read fits any stack. -/
theorem Inv.operand {F : List (Frame A P B)} {t : Tree A P B} (hs : Stacked prec F)
    (hg : t.Good prec) (ho : ∀ n, t.Opens prec n) (hc : ∀ n, t.Closes prec n) :
    Inv prec (F, some t) := by
  refine ⟨hs, ?_⟩
  rintro _ ⟨⟩
  exact ⟨hg, fitsTop_of_opens F ho, hc⟩

/-- A frame pushed. -/
theorem Inv.push {F : List (Frame A P B)} {f : Frame A P B} (hs : Stacked prec F)
    (hg : f.Good prec) (hf : f.FitsTop prec F) : Inv prec (f :: F, none) := by
  refine ⟨⟨hg, hf, hs⟩, ?_⟩
  rintro _ ⟨⟩

/-- The step: the state stays one of good trees, and the symbol is appended to what was read. -/
theorem Inv.step {s s' : List (Frame A P B) × Option (Tree A P B)} {k : Tok A P B} (hi : Inv prec s)
    (h : step prec s k = some s') : Inv prec s' ∧ read s' = read s ++ [k] := by
  obtain ⟨F, c⟩ := s
  obtain ⟨stacked, good⟩ := hi
  cases c with
  | none =>
    cases k with
    | val a =>
      obtain rfl := Option.some.inj h
      exact ⟨.operand stacked trivial (fun _ => trivial) fun _ => trivial, by simp [read, Tree.print]⟩
    | lpar =>
      obtain rfl := Option.some.inj h
      exact ⟨.push stacked trivial (frame_fitsTop_of_opens F fun _ => trivial),
        by simp [read, printed, Frame.print]⟩
    | pre o =>
      obtain rfl := Option.some.inj h
      exact ⟨.push stacked trivial (frame_fitsTop_of_opens F fun _ => trivial),
        by simp [read, printed, Frame.print]⟩
    | rpar => cases h
    | bin o => cases h
  | some t =>
    obtain ⟨goodt, fits, closes⟩ := good t rfl
    cases k with
    | bin o =>
      obtain rfl := Option.some.inj h
      obtain ⟨⟨stacked', good', fits', closes'⟩, below, same⟩ :=
        reduce_reduced ⟨stacked, goodt, fits, closes (prec (.inr o))⟩
      refine ⟨.push stacked' ⟨good', closes'⟩ (frame_fitsTop fits' below), ?_⟩
      simp only [read, printed, Frame.print, Option.map_none, Option.getD_none, List.append_nil,
        Option.map_some, Option.getD_some, ← same, List.append_assoc]
    | rpar =>
      obtain ⟨⟨stacked', good', _, _⟩, _, same⟩ :=
        reduce_reduced ⟨stacked, goodt, fits, closes 0⟩
      unfold Precedence.step at h
      dsimp only at h
      rcases hR : reduce prec 0 F t with ⟨F', t'⟩
      rw [hR] at h stacked' good' same
      match F', h with
      | .par :: F', h =>
        obtain rfl := Option.some.inj h
        refine ⟨.operand stacked'.2.2 good' (fun _ => trivial) fun _ => trivial, ?_⟩
        simp only [read, Option.map_some, Option.getD_some, ← same, printed, Frame.print,
          Tree.print, List.append_assoc, List.cons_append, List.nil_append]
    | val a => cases h
    | lpar => cases h
    | pre o => cases h

/-- The run. -/
theorem Inv.steps {s s' : List (Frame A P B) × Option (Tree A P B)} {ts : List (Tok A P B)}
    (hi : Inv prec s) (h : steps prec s ts = some s') : Inv prec s' ∧ read s' = read s ++ ts := by
  induction ts generalizing s with
  | nil =>
    obtain rfl := Option.some.inj h
    exact ⟨hi, (List.append_nil _).symm⟩
  | cons k ts ih =>
    rw [steps_cons] at h
    obtain ⟨t, first, more⟩ := Option.bind_eq_some_iff.mp h
    obtain ⟨hi', once⟩ := hi.step first
    obtain ⟨hi'', all⟩ := ih hi' more
    exact ⟨hi'', by rw [all, once, List.append_assoc, List.singleton_append]⟩

theorem Inv.start : Inv prec (([], none) : List (Frame A P B) × Option (Tree A P B)) :=
  ⟨trivial, fun _ h => nomatch h⟩

/-- What is left when all operators are applied is a good tree, and its print was read. -/
theorem Inv.tree {F : List (Frame A P B)} {t t' : Tree A P B} (hi : Inv prec (F, some t))
    (h : reduce prec 0 F t = ([], t')) : t'.Good prec ∧ read (F, some t) = t'.print := by
  obtain ⟨stacked, good⟩ := hi
  obtain ⟨goodt, fits, closes⟩ := good t rfl
  obtain ⟨⟨_, good', _, _⟩, _, same⟩ := reduce_reduced ⟨stacked, goodt, fits, closes 0⟩
  rw [h] at good' same
  exact ⟨good', same.symm⟩

end sound

end RSX280.Precedence
