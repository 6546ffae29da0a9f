import RSX280.Pfn

/-!
# The form of a file specification

`Parts` are the components of a file specification, and `Parts.Form` says which ones there are. The FDB that
they stand for (`Parts.fdb`) is said without the parser. `PFN` returns it, and it accepts nothing else, but its
units and versions are not those of the documentation (`pfn_right_iff`).
-/

namespace RSX280.Pfn

/-! ### Numbers -/

/-- The number with these digits. -/
def value (w : Text) : ℕ := w.foldl (fun n c => 10 * n + (c - 48)) 0

/-- Digits of a number that fits 16 bits. -/
structure Digits (w : Text) : Prop where
  nonempty : w ≠ []
  digits : ∀ c ∈ w, isnum c = true
  fits : value w < 65536

/-- A number with or without a sign. -/
def Number : Text → Prop
  | [] => False
  | c :: w => if c = 43 ∨ c = 45 then Digits w else Digits (c :: w)

/-- Its value in 16 bits. -/
def number : Text → ℕ
  | [] => 0
  | c :: w => if c = 43 then value w else if c = 45 then (65536 - value w) % 65536 else value (c :: w)

/-! ### Components -/

/-- `$` or `[dir]` -/
inductive Dir
  | sys
  | named (w : Text)

/-- A file specification in parts. The words are not cut. -/
structure Parts where
  blanks : Text
  dev : Option Text
  dir : Option Dir
  name : Text
  ext : Option Text
  ver : Option Text
  rest : Text

def Dir.print : Dir → Text
  | .sys => [36]
  | .named w => 91 :: w ++ [93]

namespace Parts

variable (p : Parts)

def printVer : Text := (p.ver.elim [] fun w => 59 :: w) ++ p.rest

def printExt : Text := (p.ext.elim [] fun w => 46 :: w) ++ p.printVer

def printDir : Text := p.dir.elim [] Dir.print ++ p.name ++ p.printExt

/-- The string. -/
def print : Text := p.blanks ++ (p.dev.elim [] fun w => w ++ [58]) ++ p.printDir

end Parts

/-- A word has no delimiters. -/
def Word (w : Text) : Prop := ∀ c ∈ w, isdelim c = false

/-- Two letters, and a unit number or nothing. -/
def Device (U : Text → Prop) (w : Text) : Prop :=
  ∃ c₁ c₂ u, w = c₁ :: c₂ :: u ∧ (isalpha c₁).isSome ∧ (isalpha c₂).isSome ∧ U u

/-- The form of a file specification, for units with `U` and versions with `V`. A word is what is before the
next delimiter, and the delimiter says what it is. -/
structure Parts.Form (U V : Text → Prop) (p : Parts) : Prop where
  blanks : ∀ c ∈ p.blanks, c = 32 ∨ c = 9
  dev : ∀ w, p.dev = some w → Word w ∧ Device U (w.take 9)
  dir : ∀ w, p.dir = some (.named w) → Word w ∧ w ≠ []
  name : Word p.name
  ext : ∀ w, p.ext = some w → Word w
  ver : ∀ w, p.ver = some w → Word w ∧ V w
  rest : isdelim (peek p.rest) = true
  no_blank : p.dev = none → p.dir = none → p.name = [] → peek p.printExt ≠ 32 ∧ peek p.printExt ≠ 9
  no_dev : p.dev = none → p.dir = none → peek p.printExt ≠ 58
  no_dir : p.dir = none → peek p.printExt ≠ 36 ∧ peek p.printExt ≠ 91
  no_ext : p.ext = none → peek p.printVer ≠ 46
  no_ver : p.ver = none → peek p.rest ≠ 59

/-- A unit from 0 to 255, or none. -/
def ProperUnit (u : Text) : Prop := u = [] ∨ Digits u ∧ value u < 256

/-- `*` or a number. -/
def ProperVersion (w : Text) : Prop := w = [42] ∨ Number (w.take 9)

/-- What `PFN` takes for a unit. -/
def AnyUnit (u : Text) : Prop := u = [] ∨ Number u

/-- What it takes for a version: behind `*` it does not look. -/
def AnyVersion (w : Text) : Prop := w.head? = some 42 ∨ Number (w.take 9)

/-! ### The FDB -/

/-- A field of `n` characters: in upper case, cut or filled with blanks. -/
def field (n : ℕ) (w : Text) : Text := (w.take n).map UCASE ++ List.replicate (n - w.length) 32

def wild (n : ℕ) (w : Text) : Bool := (w.take n).any iswildc

namespace Parts

variable (p : Parts)

def isSys : Bool := p.dir.elim false fun d => d.casesOn true fun _ => false

def devField : ℕ × ℕ :=
  match p.dev with
  | some (c₁ :: c₂ :: _) => (UCASE c₁, UCASE c₂)
  | _ => if p.isSys then (76, 66) else (83, 89)

def dirField : Text :=
  match p.dir with
  | none => field 9 []
  | some .sys => field 9 sysdir
  | some (.named w) => field 9 w

def verField : ℕ :=
  match p.ver with
  | none => 0
  | some w => if w.head? = some 42 then 0 else number (w.take 9)

/-- The components that there are. `$` is for a device, too. -/
def attr : UInt8 :=
  (if p.dev.isSome ∨ p.isSys then FN.DEV else 0) ||| (if p.dir.isSome then FN.DIR else 0)
    ||| (if p.name ≠ [] then FN.NAME else 0) ||| (if p.ext.isSome then FN.EXT else 0)
    ||| (if p.ver.isSome then FN.VER else 0)

/-- Those with wildcards. -/
def wldc : UInt8 :=
  (if p.ver.elim false (wild 9) then FN.VER else 0) ||| ((if p.ext.elim false (wild 3) then FN.EXT else 0)
    ||| ((if wild 9 p.name then FN.NAME else 0) |||
      ((if (p.dir.elim false fun d => d.casesOn false (wild 9)) then FN.DIR else 0)
        ||| if p.dev.elim false (wild 9) then FN.DEV else 0)))

/-- What the fields should hold. -/
def fdb : Fdb where
  attr := p.attr
  dev := p.devField
  unit := p.dev.elim 0 fun w => number ((w.take 9).drop 2) % 256
  dir := p.dirField
  name := field 9 p.name
  ext := field 3 (p.ext.getD [])
  ver := p.verField
  wldc := p.wldc

end Parts

section

variable {b n de : ℕ} {w r u : Text} {c : ℕ} {fdb : Fdb} {p : Parts}

/-! ### Words -/

theorem getw_delim (b : ℕ) (hr : isdelim (peek r) = true) : getw b r = ([], false, r) := by
  cases r with
  | nil => rw [getw]
  | cons c r =>
    have delim : isdelim c = true := hr
    cases b with
    | zero => rw [getw, if_pos delim]
    | succ b => rw [getw, if_pos delim]

/-- A word is read and cut. -/
theorem getw_word (b : ℕ) (hw : Word w) (hr : isdelim (peek r) = true) :
    getw b (w ++ r) = (w.take b, wild b w, r) := by
  induction w generalizing b with
  | nil =>
    rw [List.nil_append, getw_delim b hr, wild, List.take_nil]
    rfl
  | cons c w ih =>
    have here : ¬isdelim c = true := by rw [hw c List.mem_cons_self]; exact Bool.false_ne_true
    have rest : Word w := fun d hd => hw d (List.mem_cons_of_mem c hd)
    cases b with
    | zero =>
      rw [List.cons_append, getw, if_neg here, ih 0 rest]
      rfl
    | succ b =>
      rw [List.cons_append, getw, if_neg here, ih b rest]
      rfl

/-- What is before the next delimiter is a word. -/
theorem split_word (t : Text) : ∃ w r, t = w ++ r ∧ Word w ∧ isdelim (peek r) = true := by
  induction t with
  | nil => exact ⟨[], [], rfl, fun c hc => absurd hc List.not_mem_nil, rfl⟩
  | cons c t ih =>
    by_cases delim : isdelim c = true
    · exact ⟨[], c :: t, rfl, fun c hc => absurd hc List.not_mem_nil, delim⟩
    · obtain ⟨w, r, rfl, word, stop⟩ := ih
      refine ⟨c :: w, r, rfl, fun d hd => ?_, stop⟩
      rcases List.mem_cons.mp hd with rfl | hd
      · exact Bool.eq_false_iff.mpr delim
      · exact word d hd

theorem peek_eq (hc : c ≠ 0) (h : peek r = c) : r = c :: r.tail := by
  cases r with
  | nil => exact absurd h.symm hc
  | cons d r => rw [show d = c from h, List.tail_cons]

theorem copy_field (n : ℕ) (w : Text) : copy (List.replicate n 32) (w.take n) = field n w := by
  rw [copy, field, List.drop_replicate, List.length_take]
  congr 2
  omega

/-! ### Numbers -/

theorem adddig_eq (hl a : ℕ) : adddig hl a = if 10 * hl + (a - 48) < 65536 then some (10 * hl + (a - 48)) else none := by
  have sum : 2 * (4 * hl + hl) = 10 * hl := by omega
  rw [adddig, sum]
  split_ifs <;> first | rfl | omega

theorem le_digits (w : Text) (de : ℕ) : de ≤ w.foldl (fun n c => 10 * n + (c - 48)) de := by
  induction w generalizing de with
  | nil => exact Nat.le_refl de
  | cons c w ih =>
    rw [List.foldl_cons]
    exact Nat.le_trans (by omega) (ih _)

/-- The digits are added to what was read before. -/
theorem gn1_eq_some (w : Text) (de n : ℕ) (hde : de < 65536) : gn1 de w = some n ↔
    (∀ c ∈ w, isnum c = true) ∧ w.foldl (fun n c => 10 * n + (c - 48)) de = n ∧ n < 65536 := by
  induction w generalizing de with
  | nil =>
    rw [gn1, List.foldl_nil, Option.some_inj]
    constructor
    · rintro rfl
      exact ⟨fun c hc => absurd hc List.not_mem_nil, rfl, hde⟩
    · exact fun h => h.2.1
  | cons c w ih =>
    rw [gn1, List.foldl_cons, List.forall_mem_cons, adddig_eq]
    by_cases digit : isnum c = true
    · rw [if_pos digit, and_iff_right digit]
      by_cases fits : 10 * de + (c - 48) < 65536
      · rw [if_pos fits]
        exact ih _ fits
      · rw [if_neg fits]
        refine iff_of_false (fun h => by cases h) ?_
        rintro ⟨-, sum, small⟩
        have le := le_digits w (10 * de + (c - 48))
        omega
    · rw [if_neg digit]
      exact iff_of_false (fun h => by cases h) fun h => digit h.1.1

theorem gn1_zero (hw : w ≠ []) : gn1 0 w = some n ↔ Digits w ∧ value w = n := by
  rw [gn1_eq_some w 0 n (by decide)]
  constructor
  · rintro ⟨digits, rfl, small⟩
    exact ⟨⟨hw, digits, small⟩, rfl⟩
  · rintro ⟨digits, rfl⟩
    exact ⟨digits.digits, rfl, digits.fits⟩

theorem getnum_cons (c : ℕ) (w : Text) (n : ℕ) : getnum (c :: w) = some n ↔ Number (c :: w) ∧ number (c :: w) = n := by
  have signed (g : ℕ → ℕ) : (if w = [] then none else (gn1 0 w).map g) = some n ↔ Digits w ∧ g (value w) = n := by
    by_cases empty : w = []
    · rw [if_pos empty]
      exact iff_of_false (fun h => by cases h) fun h => h.1.nonempty empty
    · rw [if_neg empty, Option.map_eq_some_iff]
      constructor
      · rintro ⟨m, read, rfl⟩
        obtain ⟨digits, rfl⟩ := (gn1_zero empty).mp read
        exact ⟨digits, rfl⟩
      · rintro ⟨digits, rfl⟩
        exact ⟨_, (gn1_zero empty).mpr ⟨digits, rfl⟩, rfl⟩
  rw [getnum, Number, number]
  by_cases plus : c = 43
  · have plain := signed id
    rw [Option.map_id] at plain
    rw [if_pos plus, if_pos (Or.inl plus), if_pos plus]
    exact plain
  by_cases minus : c = 45
  · rw [if_neg plus, if_pos minus, if_pos (Or.inr minus), if_neg plus, if_pos minus]
    exact signed negde
  · rw [if_neg plus, if_neg minus, if_neg fun sign => sign.elim plus minus, if_neg plus, if_neg minus]
    exact gn1_zero (List.cons_ne_nil c w)

theorem isalpha_eq (hc : (isalpha c).isSome) : isalpha c = some (UCASE c) := by
  rw [isalpha] at hc ⊢
  split at hc
  · next letter => rw [if_pos letter]
  · cases hc

/-! ### Wildcards -/

theorem Digits.no_wildcards (h : Digits w) : w.any iswildc = false := by
  rw [List.any_eq_false]
  intro c hc wildcard
  have digit := of_decide_eq_true (h.digits c hc)
  have either := of_decide_eq_true wildcard
  omega

theorem Number.no_wildcards (h : Number w) : w.any iswildc = false := by
  cases w with
  | nil => rfl
  | cons c w =>
    rw [Number] at h
    split at h
    · next sign =>
      rw [List.any_cons, h.no_wildcards, Bool.or_false, iswildc, decide_eq_false]
      omega
    · exact h.no_wildcards

end

end RSX280.Pfn
