import RSX280.PfnForm

/-!
# What `PFN` accepts

`PFN` accepts each file specification of the form, with any number for the unit and anything behind `*`
(`PFN_form`), and it accepts nothing else (`form_of_PFN`).
-/

namespace RSX280.Pfn

/-! ### Components -/

namespace Fdb

def addDev (fdb : Fdb) : Option Text → Fdb
  | some (c₁ :: c₂ :: u) => { fdb with dev := (UCASE c₁, UCASE c₂), unit := number ((c₁ :: c₂ :: u).take 9 |>.drop 2) % 256 }.setbit
    FN.DEV (wild 9 (c₁ :: c₂ :: u))
  | _ => fdb

def addDir (fdb : Fdb) : Option Dir → Fdb
  | none => fdb
  | some .sys =>
    let fdb := if fdb.attr &&& FN.DEV ≠ 0 then fdb
      else { fdb with attr := fdb.attr ||| FN.DEV, dev := (76, 66), unit := 0 }
    { fdb with dir := copy fdb.dir sysdir }.setbit FN.DIR false
  | some (.named w) => { fdb with dir := copy fdb.dir (w.take 9) }.setbit FN.DIR (wild 9 w)

def addName (fdb : Fdb) (w : Text) : Fdb :=
  if w = [] then fdb else { fdb with name := copy fdb.name (w.take 9) }.setbit FN.NAME (wild 9 w)

def addExt (fdb : Fdb) : Option Text → Fdb
  | none => fdb
  | some w => { fdb with ext := copy fdb.ext (w.take 3) }.setbit FN.EXT (wild 3 w)

def addVer (fdb : Fdb) : Option Text → Fdb
  | none => fdb
  | some w => { fdb with ver := if w.head? = some 42 then fdb.ver else number (w.take 9) }.setbit FN.VER (wild 9 w)

end Fdb

section

variable {b n de : ℕ} {w r u t buf hl : Text} {c : ℕ} {wcflg : Bool} {fdb fdb' : Fdb} {p : Parts}

/-! ### What is accepted -/

theorem peek_cons (c : ℕ) (r : Text) : peek (c :: r) = c := rfl

theorem star_cons (star : w.head? = some 42) : ∃ v, w = 42 :: v := by
  cases w with
  | nil => cases star
  | cons c v => exact ⟨v, by rw [Option.some.inj star]⟩

theorem pfn4_form (h : p.Form AnyUnit AnyVersion) (fdb : Fdb) :
    ∃ hl, pfn4 fdb p.printVer = some (fdb.addVer p.ver, hl) := by
  rw [Parts.printVer]
  cases ver : p.ver with
  | none => exact ⟨p.rest, if_neg (h.no_ver ver)⟩
  | some w =>
    obtain ⟨word, any⟩ := h.ver w ver
    rw [Option.elim_some, pfn4, List.cons_append, peek_cons, if_pos rfl, List.tail_cons, pfn5]
    rcases any with star | num
    · obtain ⟨w, rfl⟩ := star_cons star
      rw [List.cons_append, peek_cons, if_pos rfl]
      exact ⟨_, rfl⟩
    · cases w with
      | nil => exact num.elim
      | cons c w =>
        have no_star : ¬c = 42 := by
          rintro rfl
          cases num.no_wildcards
        have read := (getnum_cons c (w.take 8) _).mpr ⟨num, rfl⟩
        have cut : (c :: w).take 9 = c :: w.take 8 := rfl
        rw [List.cons_append, peek_cons, if_neg no_star, ← List.cons_append, getw_word 9 word h.rest, cut]
        dsimp only
        rw [if_neg (List.cons_ne_nil c _), read, Fdb.addVer, List.head?_cons,
          if_neg fun star => no_star (Option.some.inj star)]
        exact ⟨_, rfl⟩

theorem Parts.Form.delim_ver (h : p.Form AnyUnit AnyVersion) : isdelim (peek p.printVer) = true := by
  rw [Parts.printVer]
  cases p.ver with
  | none => exact h.rest
  | some w => rfl

theorem Parts.Form.delim_ext (h : p.Form AnyUnit AnyVersion) : isdelim (peek p.printExt) = true := by
  rw [Parts.printExt]
  cases p.ext with
  | none => exact h.delim_ver
  | some w => rfl

theorem pfn22_form (h : p.Form AnyUnit AnyVersion) (fdb : Fdb) :
    ∃ hl, pfn22 fdb p.printExt = some ((fdb.addExt p.ext).addVer p.ver, hl) := by
  rw [Parts.printExt]
  cases ext : p.ext with
  | none =>
    rw [Option.elim_none, List.nil_append, pfn22, if_neg (h.no_ext ext)]
    exact pfn4_form h fdb
  | some w =>
    have same : (if w.take 3 = [] then fdb else { fdb with ext := copy fdb.ext (w.take 3) })
        = { fdb with ext := copy fdb.ext (w.take 3) } := by
      split
      · next empty => rw [empty, copy, List.map_nil, List.nil_append, List.length_nil, List.drop_zero]
      · rfl
    rw [Option.elim_some, pfn22, List.cons_append, peek_cons, if_pos rfl, List.tail_cons,
      getw_word 3 (h.ext w ext) h.delim_ver]
    dsimp only
    rw [same]
    exact pfn4_form h _

theorem pfn2_form (h : p.Form AnyUnit AnyVersion) (fdb : Fdb) :
    ∃ hl, pfn2 fdb (p.name.take 9) (wild 9 p.name) p.printExt
      = some (((fdb.addName p.name).addExt p.ext).addVer p.ver, hl) := by
  rw [pfn2, Fdb.addName]
  by_cases empty : p.name = []
  · rw [if_pos empty, empty, List.take_nil, if_pos rfl]
    exact pfn22_form h fdb
  · have some_name : ¬p.name.take 9 = [] := by
      rw [List.take_eq_nil_iff]
      exact fun none => none.elim (by decide) empty
    rw [if_neg empty, if_neg some_name]
    exact pfn22_form h _

/-- The string behind the device is read. -/
theorem pfn1_form (h : p.Form AnyUnit AnyVersion) (fdb : Fdb) : ∃ buf wcflg hl stop,
    getw 9 p.printDir = (buf, wcflg, hl) ∧ (p.dev = none → peek hl ≠ 58) ∧
      pfn1 fdb buf wcflg hl = some ((((fdb.addDir p.dir).addName p.name).addExt p.ext).addVer p.ver, stop) := by
  have word := getw_word 9 h.name h.delim_ext
  rw [Parts.printDir]
  cases dir : p.dir with
  | none =>
    obtain ⟨stop, goes⟩ := pfn2_form h fdb
    refine ⟨_, _, _, stop, word, fun dev => h.no_dev dev dir, ?_⟩
    rw [pfn1, if_neg (h.no_dir dir).1, pfn10, if_neg (h.no_dir dir).2]
    exact goes
  | some d =>
    cases d with
    | sys =>
      obtain ⟨stop, goes⟩ := pfn2_form h (fdb.addDir (some .sys))
      refine ⟨[], false, 36 :: (p.name ++ p.printExt), stop, rfl, fun _ => (by decide : 36 ≠ 58), ?_⟩
      rw [pfn1, peek_cons, if_pos rfl, if_neg (fun some_word => some_word rfl), pfn11, List.tail_cons, word]
      exact goes
    | named w =>
      obtain ⟨word', nonempty⟩ := h.dir w dir
      obtain ⟨stop, goes⟩ := pfn2_form h (fdb.addDir (some (.named w)))
      have some_dir : ¬w.take 9 = [] := by
        rw [List.take_eq_nil_iff]
        exact fun none => none.elim (by decide) nonempty
      refine ⟨[], false, 91 :: (w ++ 93 :: (p.name ++ p.printExt)), stop, ?_, fun _ => (by decide : 91 ≠ 58), ?_⟩
      · have string : 91 :: w ++ [93] ++ p.name ++ p.printExt = 91 :: (w ++ 93 :: (p.name ++ p.printExt)) := by
          simp only [List.cons_append, List.append_assoc, List.nil_append]
        rw [Option.elim_some, Dir.print, string]
        rfl
      · rw [pfn1, peek_cons, if_neg (by decide), pfn10, peek_cons, if_pos rfl, if_neg (fun some_word => some_word rfl),
          List.tail_cons, getw_word 9 word' (by rfl)]
        dsimp only
        rw [peek_cons, if_neg (fun other => other rfl), if_neg some_dir, pfn11, List.tail_cons, word]
        exact goes

theorem skipbl_append {t : Text} (hw : ∀ c ∈ w, c = 32 ∨ c = 9) (ht : peek t ≠ 32 ∧ peek t ≠ 9) :
    skipbl (w ++ t) = t := by
  induction w with
  | nil =>
    cases t with
    | nil => rfl
    | cons c t => exact if_neg fun blank => blank.elim ht.1 ht.2
  | cons c w ih =>
    rw [List.cons_append, skipbl, if_pos (hw c List.mem_cons_self)]
    exact ih fun d hd => hw d (List.mem_cons_of_mem c hd)

/-- A character that is no delimiter is no blank. -/
theorem not_blank (hc : isdelim c = false) : c ≠ 32 ∧ c ≠ 9 := by
  constructor
  · rintro rfl
    cases hc
  · rintro rfl
    cases hc

theorem device_form (fdb : Fdb) (hw : Device AnyUnit (w.take 9)) :
    device fdb (w.take 9) (wild 9 w) = some (fdb.addDev (some w)) := by
  obtain ⟨c₁, c₂, u, cut, first, second, any⟩ := hw
  obtain ⟨v, rfl⟩ : ∃ v, w = c₁ :: c₂ :: v := by
    rcases w with - | ⟨d₁, - | ⟨d₂, v⟩⟩
    · cases cut
    · cases cut
    · cases cut
      exact ⟨v, rfl⟩
  have unit : getnum u = some (number u) := by
    cases u with
    | nil => rfl
    | cons c u => exact (getnum_cons c u _).mpr ⟨any.resolve_left (List.cons_ne_nil c u), rfl⟩
  rw [Fdb.addDev, cut, device, isalpha_eq first, isalpha_eq second, unit]
  rfl

/-! ### The fields -/

theorem Fdb.addName_eq (fdb : Fdb) (w : Text) : fdb.addName w =
    { fdb with
      name := copy fdb.name (w.take 9)
      attr := fdb.attr ||| if w ≠ [] then FN.NAME else 0
      wldc := (if wild 9 w then FN.NAME else 0) ||| fdb.wldc } := by
  rw [Fdb.addName]
  by_cases empty : w = []
  · have none : wild 9 [] = false := rfl
    rw [if_pos empty, empty, if_neg fun some_name => some_name rfl, none, List.take_nil, copy, List.map_nil,
      List.nil_append, List.length_nil, List.drop_zero, UInt8.or_zero]
    exact congrArg (Fdb.mk _ _ _ _ _ _ _) UInt8.zero_or.symm
  · rw [if_neg empty, if_pos empty]
    rfl

theorem Fdb.addExt_eq (fdb : Fdb) (e : Option Text) : fdb.addExt e =
    { fdb with
      ext := copy fdb.ext ((e.getD []).take 3)
      attr := fdb.attr ||| if e.isSome then FN.EXT else 0
      wldc := (if e.elim false (wild 3) then FN.EXT else 0) ||| fdb.wldc } := by
  cases e with
  | none =>
    have empty : copy fdb.ext ((none.getD []).take 3) = fdb.ext := by
      rw [Option.getD_none, List.take_nil, copy, List.map_nil, List.nil_append, List.length_nil, List.drop_zero]
    rw [empty, Option.isSome_none, if_neg Bool.false_ne_true, UInt8.or_zero]
    exact congrArg (Fdb.mk _ _ _ _ _ _ _) UInt8.zero_or.symm
  | some w => rfl

theorem Fdb.addVer_eq (fdb : Fdb) (w : Option Text) : fdb.addVer w =
    { fdb with
      ver := w.elim fdb.ver fun w => if w.head? = some 42 then fdb.ver else number (w.take 9)
      attr := fdb.attr ||| if w.isSome then FN.VER else 0
      wldc := (if w.elim false (wild 9) then FN.VER else 0) ||| fdb.wldc } := by
  cases w with
  | none =>
    rw [Option.isSome_none, if_neg Bool.false_ne_true, UInt8.or_zero]
    exact congrArg (Fdb.mk _ _ _ _ _ _ _) UInt8.zero_or.symm
  | some w => rfl

/-- The device and the directory. -/
theorem Parts.Form.dev_dir (h : p.Form AnyUnit AnyVersion) : (INIFCB.addDev p.dev).addDir p.dir =
    { INIFCB with
      attr := (if p.dev.isSome ∨ p.isSys then FN.DEV else 0) ||| if p.dir.isSome then FN.DIR else 0
      dev := p.devField
      unit := p.dev.elim 0 fun w => number ((w.take 9).drop 2) % 256
      dir := p.dirField
      wldc := (if (p.dir.elim false fun d => d.casesOn false (wild 9)) then FN.DIR else 0)
        ||| if p.dev.elim false (wild 9) then FN.DEV else 0 } := by
  obtain ⟨blanks, dev, dir, name, ext, ver, rest⟩ := p
  have dev_cases : dev = none ∨ ∃ c₁ c₂ u, dev = some (c₁ :: c₂ :: u) := by
    rcases dev with - | w
    · exact Or.inl rfl
    · obtain ⟨c₁, c₂, u, cut, -⟩ := (h.dev w rfl).2
      rcases w with - | ⟨d₁, - | ⟨d₂, v⟩⟩
      · cases cut
      · cases cut
      · exact Or.inr ⟨d₁, d₂, v, rfl⟩
  have field (w : Text) : copy (List.replicate 9 32) (w.take 9) = field 9 w := copy_field 9 w
  have nonzero : FN.DEV ≠ 0 := by decide
  rcases dev_cases with rfl | ⟨c₁, c₂, u, rfl⟩ <;> rcases dir with - | - | w
  · simp [Fdb.addDev, Fdb.addDir, Parts.isSys, Parts.devField, Parts.dirField, INIFCB, Pfn.field]
  · simp [Fdb.addDev, Fdb.addDir, Fdb.setbit, Parts.isSys, Parts.devField, Parts.dirField, INIFCB, Pfn.field, copy, sysdir]
  · simp [Fdb.addDev, Fdb.addDir, Fdb.setbit, Parts.isSys, Parts.devField, Parts.dirField, INIFCB, ← field]
    rfl
  · simp [Fdb.addDev, Fdb.addDir, Fdb.setbit, Parts.isSys, Parts.devField, Parts.dirField, INIFCB, Pfn.field]
    rfl
  · simp [Fdb.addDev, Fdb.addDir, Fdb.setbit, Parts.isSys, Parts.devField, Parts.dirField, INIFCB, Pfn.field, copy,
      sysdir, nonzero]
    rfl
  · simp [Fdb.addDev, Fdb.addDir, Fdb.setbit, Parts.isSys, Parts.devField, Parts.dirField, INIFCB, ← field]
    rfl

/-- The components together give the FDB. -/
theorem Parts.Form.fdb_eq (h : p.Form AnyUnit AnyVersion) :
    ((((INIFCB.addDev p.dev).addDir p.dir).addName p.name).addExt p.ext).addVer p.ver = p.fdb := by
  rw [Fdb.addVer_eq, Fdb.addExt_eq, Fdb.addName_eq, h.dev_dir]
  have name : copy (List.replicate 9 32) (p.name.take 9) = field 9 p.name := copy_field 9 p.name
  have ext : copy (List.replicate 3 32) ((p.ext.getD []).take 3) = field 3 (p.ext.getD []) := copy_field 3 _
  have ver : (p.ver.elim 0 fun w => if w.head? = some 42 then 0 else number (w.take 9)) = p.verField := by
    rw [Parts.verField]
    cases p.ver <;> rfl
  rw [Parts.fdb, ← name, ← ext, ← ver]
  rfl

theorem Parts.Form.print_not_blank (h : p.Form AnyUnit AnyVersion) :
    peek ((p.dev.elim [] fun w => w ++ [58]) ++ p.printDir) ≠ 32 ∧
      peek ((p.dev.elim [] fun w => w ++ [58]) ++ p.printDir) ≠ 9 := by
  cases dev : p.dev with
  | some w =>
    obtain ⟨word, c₁, c₂, u, cut, -⟩ := h.dev w dev
    cases w with
    | nil => cases cut
    | cons c w => exact not_blank (word c List.mem_cons_self)
  | none =>
    rw [Option.elim_none, List.nil_append, Parts.printDir]
    cases dir : p.dir with
    | some d =>
      cases d with
      | sys => exact ⟨(by decide : 36 ≠ 32), (by decide : 36 ≠ 9)⟩
      | named w => exact ⟨(by decide : 91 ≠ 32), (by decide : 91 ≠ 9)⟩
    | none =>
      rw [Option.elim_none, List.nil_append]
      cases name : p.name with
      | nil => exact h.no_blank dev dir name
      | cons c w => exact not_blank (h.name c (name ▸ List.mem_cons_self))

/-- A file specification of the form is accepted. -/
theorem PFN_form (h : p.Form AnyUnit AnyVersion) : ∃ hl, PFN p.print = some (p.fdb, hl) := by
  have skipped := skipbl_append h.blanks h.print_not_blank
  have fdb := h.fdb_eq
  rw [PFN, Parts.print, List.append_assoc, skipped]
  cases dev : p.dev with
  | none =>
    obtain ⟨buf, wcflg, hl, stop, word, no_dev, goes⟩ := pfn1_form h INIFCB
    rw [Option.elim_none, List.nil_append, word]
    dsimp only
    rw [if_neg (no_dev dev), goes, ← fdb, dev]
    exact ⟨stop, rfl⟩
  | some w =>
    obtain ⟨buf, wcflg, hl, stop, next, -, goes⟩ := pfn1_form h (INIFCB.addDev (some w))
    obtain ⟨word, is_dev⟩ := h.dev w dev
    rw [Option.elim_some, List.append_assoc, getw_word 9 word (by rfl)]
    dsimp only
    rw [List.cons_append, List.nil_append, peek_cons, if_pos rfl, device_form INIFCB is_dev, List.tail_cons]
    dsimp only
    rw [next]
    dsimp only
    rw [goes, ← fdb, dev]
    exact ⟨stop, rfl⟩

/-! ### Nothing else is accepted -/

theorem form_of_pfn5 {res : Fdb × Text} (h : pfn5 fdb hl = some res) :
    ∃ w r, hl = w ++ r ∧ Word w ∧ AnyVersion w ∧ isdelim (peek r) = true := by
  obtain ⟨w, r, rfl, word, delim⟩ := split_word hl
  refine ⟨w, r, rfl, word, ?_, delim⟩
  rw [pfn5] at h
  by_cases star : peek (w ++ r) = 42
  · left
    cases w with
    | nil =>
      rw [List.nil_append] at star
      rw [star] at delim
      cases delim
    | cons c w => exact congrArg some star
  · right
    rw [if_neg star, getw_word 9 word delim] at h
    dsimp only at h
    by_cases empty : w.take 9 = []
    · rw [if_pos empty] at h
      cases h
    · rw [if_neg empty] at h
      cases read : getnum (w.take 9) with
      | none =>
        rw [read] at h
        cases h
      | some n =>
        cases cut : w.take 9 with
        | nil => exact absurd cut empty
        | cons c v =>
          rw [cut] at read
          exact ((getnum_cons c v n).mp read).1

/-- What is behind the name has its form. -/
structure Parts.Back (p : Parts) (hl : Text) : Prop where
  print : p.printExt = hl
  ext : ∀ w, p.ext = some w → Word w
  ver : ∀ w, p.ver = some w → Word w ∧ AnyVersion w
  rest : isdelim (peek p.rest) = true
  no_ext : p.ext = none → peek p.printVer ≠ 46
  no_ver : p.ver = none → peek p.rest ≠ 59

theorem form_of_pfn4 {res : Fdb × Text} (h : pfn4 fdb hl = some res) (delim : isdelim (peek hl) = true) :
    ∃ p : Parts, p.ext = none ∧ p.printVer = hl ∧ (∀ w, p.ver = some w → Word w ∧ AnyVersion w) ∧
      isdelim (peek p.rest) = true ∧ (p.ver = none → peek p.rest ≠ 59) := by
  rw [pfn4] at h
  by_cases semi : peek hl = 59
  · rw [if_pos semi] at h
    obtain ⟨w, r, tail, word, any, stop⟩ := form_of_pfn5 h
    refine ⟨⟨[], none, none, [], none, some w, r⟩, rfl, ?_, ?_, stop, fun none => by cases none⟩
    · exact ((peek_eq (by decide) semi).trans (congrArg (59 :: ·) tail)).symm
    · rintro _ ⟨⟩
      exact ⟨word, any⟩
  · exact ⟨⟨[], none, none, [], none, none, hl⟩, rfl, rfl, fun w some_ver => (by cases some_ver), delim, fun _ => semi⟩

theorem form_of_pfn22 {res : Fdb × Text} (h : pfn22 fdb hl = some res) (delim : isdelim (peek hl) = true) :
    ∃ p : Parts, p.Back hl := by
  rw [pfn22] at h
  by_cases dot : peek hl = 46
  · obtain ⟨w, r, tail, word, stop⟩ := split_word hl.tail
    rw [if_pos dot, tail, getw_word 3 word stop] at h
    obtain ⟨p, -, rfl, ver, rest, no_ver⟩ := form_of_pfn4 h stop
    refine ⟨{ p with ext := some w }, ?_, ?_, ver, rest, fun none => (by cases none), no_ver⟩
    · exact ((peek_eq (by decide) dot).trans (congrArg (46 :: ·) tail)).symm
    · rintro _ ⟨⟩
      exact word
  · rw [if_neg dot] at h
    obtain ⟨p, none, rfl, ver, rest, no_ver⟩ := form_of_pfn4 h delim
    refine ⟨p, ?_, fun w some_ext => ?_, ver, rest, fun _ => dot, no_ver⟩
    · rw [Parts.printExt, none]
      rfl
    · rw [none] at some_ext
      cases some_ext

theorem form_of_pfn2 {res : Fdb × Text} (h : pfn2 fdb buf wcflg hl = some res) (delim : isdelim (peek hl) = true) :
    ∃ p : Parts, p.Back hl := by
  rw [pfn2] at h
  split at h
  · exact form_of_pfn22 h delim
  · exact form_of_pfn22 h delim

theorem form_of_pfn11 {res : Fdb × Text} (h : pfn11 fdb t wcflg hl = some res) :
    ∃ (p : Parts) (w r : Text), hl = w ++ r ∧ Word w ∧ p.Back r := by
  obtain ⟨w, r, rfl, word, delim⟩ := split_word hl
  rw [pfn11, getw_word 9 word delim] at h
  obtain ⟨p, back⟩ := form_of_pfn2 h delim
  exact ⟨p, w, r, rfl, word, back⟩

/-- What is behind the device has its form. -/
structure Parts.Front (p : Parts) (w r : Text) : Prop where
  print : p.printDir = w ++ r
  dir : ∀ w, p.dir = some (.named w) → Word w ∧ w ≠ []
  name : Word p.name
  no_dir : p.dir = none → p.name = w ∧ p.printExt = r ∧ peek r ≠ 36 ∧ peek r ≠ 91
  back : p.Back p.printExt

theorem form_of_pfn1 {res : Fdb × Text} (h : pfn1 fdb (w.take 9) wcflg r = some res) (word : Word w)
    (delim : isdelim (peek r) = true) : ∃ p : Parts, p.Front w r := by
  have empty (none : w.take 9 = []) : w = [] := (List.take_eq_nil_iff.mp none).resolve_left (by decide)
  rw [pfn1] at h
  by_cases dollar : peek r = 36
  · rw [if_pos dollar] at h
    by_cases none : w.take 9 = []
    · rw [if_neg fun some_word => some_word none] at h
      obtain ⟨p, v, r', tail, word', back⟩ := form_of_pfn11 h
      have string := (peek_eq (by decide) dollar).trans (congrArg (36 :: ·) tail)
      refine ⟨{ p with dir := some .sys, name := v }, ?_, ?_, word', fun none => (by cases none), rfl, back.ext,
        back.ver, back.rest, back.no_ext, back.no_ver⟩
      · rw [empty none, List.nil_append, string, ← back.print]
        rfl
      · rintro _ ⟨⟩
    · rw [if_pos none] at h
      cases h
  rw [if_neg dollar, pfn10] at h
  by_cases bracket : peek r = 91
  · rw [if_pos bracket] at h
    by_cases none : w.take 9 = []
    · obtain ⟨d, r₁, tail, word₁, delim₁⟩ := split_word r.tail
      rw [if_neg fun some_word => some_word none, tail, getw_word 9 word₁ delim₁] at h
      dsimp only at h
      by_cases close : peek r₁ = 93
      · rw [if_neg fun other => other close] at h
        by_cases no_name : d.take 9 = []
        · rw [if_pos no_name] at h
          cases h
        · rw [if_neg no_name] at h
          obtain ⟨p, v, r', tail', word', back⟩ := form_of_pfn11 h
          have string : r = 91 :: (d ++ 93 :: (v ++ r')) := by
            rw [peek_eq (by decide) bracket, tail, peek_eq (by decide) close, tail']
          refine ⟨{ p with dir := some (.named d), name := v }, ?_, ?_, word', fun none => (by cases none), rfl,
            back.ext, back.ver, back.rest, back.no_ext, back.no_ver⟩
          · have whole : 91 :: d ++ [93] ++ v ++ p.printExt = 91 :: (d ++ 93 :: (v ++ p.printExt)) := by
              simp only [List.cons_append, List.append_assoc, List.nil_append]
            rw [empty none, List.nil_append, string, ← back.print]
            exact whole
          · rintro _ ⟨⟩
            exact ⟨word₁, fun none => no_name (by rw [none, List.take_nil])⟩
      · rw [if_pos close] at h
        cases h
    · rw [if_pos none] at h
      cases h
  · rw [if_neg bracket] at h
    obtain ⟨p, back⟩ := form_of_pfn2 h delim
    refine ⟨{ p with dir := none, name := w }, ?_, ?_, word, fun _ => ⟨rfl, back.print, dollar, bracket⟩, rfl,
      back.ext, back.ver, back.rest, back.no_ext, back.no_ver⟩
    · rw [← back.print]
      rfl
    · rintro _ ⟨⟩

theorem form_of_device (h : device fdb (w.take 9) wcflg = some fdb') : Device AnyUnit (w.take 9) := by
  rcases cut : w.take 9 with - | ⟨c₁, - | ⟨c₂, u⟩⟩
  · rw [cut] at h
    cases h
  · rw [cut] at h
    cases h
  · rw [cut, device] at h
    rcases first : isalpha c₁ with - | d₁
    · rw [first] at h
      cases h
    rcases second : isalpha c₂ with - | d₂
    · rw [first, second] at h
      cases h
    rcases unit : getnum u with - | de
    · rw [first, second, unit] at h
      cases h
    refine ⟨c₁, c₂, u, rfl, by rw [first]; rfl, by rw [second]; rfl, ?_⟩
    cases u with
    | nil => exact Or.inl rfl
    | cons c u => exact Or.inr ((getnum_cons c u de).mp unit).1

theorem split_blanks (s : Text) : ∃ b, s = b ++ skipbl s ∧ (∀ c ∈ b, c = 32 ∨ c = 9) ∧
    peek (skipbl s) ≠ 32 ∧ peek (skipbl s) ≠ 9 := by
  induction s with
  | nil => exact ⟨[], rfl, fun c hc => absurd hc List.not_mem_nil, by decide, by decide⟩
  | cons c s ih =>
    rw [skipbl]
    by_cases blank : c = 32 ∨ c = 9
    · obtain ⟨b, string, blanks, stop⟩ := ih
      rw [if_pos blank]
      refine ⟨c :: b, congrArg (c :: ·) string, fun d hd => ?_, stop⟩
      rcases List.mem_cons.mp hd with rfl | hd
      · exact blank
      · exact blanks d hd
    · rw [if_neg blank]
      exact ⟨[], rfl, fun c hc => absurd hc List.not_mem_nil, fun h => blank (Or.inl h), fun h => blank (Or.inr h)⟩

/-- What is accepted has the form. -/
theorem form_of_PFN {s : Text} {res : Fdb × Text} (h : PFN s = some res) :
    ∃ p : Parts, p.Form AnyUnit AnyVersion ∧ p.print = s := by
  obtain ⟨b, string, blanks, no_blank⟩ := split_blanks s
  obtain ⟨w, r, text, word, delim⟩ := split_word (skipbl s)
  rw [PFN, text, getw_word 9 word delim] at h
  rw [text] at string no_blank
  dsimp only at h
  by_cases colon : peek r = 58
  · rw [if_pos colon] at h
    cases is_dev : device INIFCB (w.take 9) (wild 9 w) with
    | none =>
      rw [is_dev] at h
      cases h
    | some fdb =>
      obtain ⟨w₁, r₁, tail, word₁, delim₁⟩ := split_word r.tail
      rw [is_dev, tail, getw_word 9 word₁ delim₁] at h
      obtain ⟨p, print, dir, name, no_dir, back⟩ := form_of_pfn1 h word₁ delim₁
      refine ⟨{ p with blanks := b, dev := some w }, ⟨blanks, ?_, dir, name, back.ext, back.ver, back.rest,
        fun none => (by cases none), fun none => (by cases none), fun none => ?_, back.no_ext, back.no_ver⟩, ?_⟩
      · rintro _ ⟨⟩
        exact ⟨word, form_of_device is_dev⟩
      · obtain ⟨-, rfl, neither⟩ := no_dir none
        exact neither
      · have whole : b ++ (w ++ [58]) ++ p.printDir = b ++ (w ++ 58 :: p.printDir) := by
          simp only [List.append_assoc, List.cons_append, List.nil_append]
        rw [string, peek_eq (by decide) colon, tail, ← print]
        exact whole
  · rw [if_neg colon] at h
    obtain ⟨p, print, dir, name, no_dir, back⟩ := form_of_pfn1 h word delim
    refine ⟨{ p with blanks := b, dev := none }, ⟨blanks, fun w some_dev => (by cases some_dev), dir, name, back.ext,
      back.ver, back.rest, fun _ none empty => ?_, fun _ none => ?_, fun none => ?_, back.no_ext, back.no_ver⟩, ?_⟩
    · obtain ⟨rfl, rfl, -⟩ := no_dir none
      have nothing : p.name = [] := empty
      rw [nothing] at no_blank
      exact no_blank
    · obtain ⟨-, rfl, -⟩ := no_dir none
      exact colon
    · obtain ⟨-, rfl, neither⟩ := no_dir none
      exact neither
    · rw [string, ← print]
      exact congrArg (· ++ p.printDir) (List.append_nil b)

/-! ### The parts are unique -/

theorem word_unique {w' r' : Text} (hw : Word w) (hw' : Word w') (hr : isdelim (peek r) = true)
    (hr' : isdelim (peek r') = true) (same : w ++ r = w' ++ r') : w = w' ∧ r = r' := by
  induction w generalizing w' with
  | nil =>
    cases w' with
    | nil => exact ⟨rfl, same⟩
    | cons c w' =>
      rw [List.nil_append] at same
      rw [same, List.cons_append, peek_cons, hw' c List.mem_cons_self] at hr
      cases hr
  | cons c w ih =>
    cases w' with
    | nil =>
      rw [List.nil_append] at same
      rw [← same, List.cons_append, peek_cons, hw c List.mem_cons_self] at hr'
      cases hr'
    | cons c' w' =>
      obtain ⟨rfl, tail⟩ := List.cons.inj same
      obtain ⟨rfl, rest⟩ := ih (fun d hd => hw d (List.mem_cons_of_mem _ hd))
        (fun d hd => hw' d (List.mem_cons_of_mem _ hd)) tail
      exact ⟨rfl, rest⟩

section

variable {q : Parts}

theorem Parts.Form.ver_unique (h : p.Form AnyUnit AnyVersion) (h' : q.Form AnyUnit AnyVersion)
    (same : p.printVer = q.printVer) : p.ver = q.ver ∧ p.rest = q.rest := by
  rw [Parts.printVer, Parts.printVer] at same
  cases ver : p.ver with
  | none =>
    cases ver' : q.ver with
    | none =>
      rw [ver, ver'] at same
      exact ⟨rfl, same⟩
    | some w' =>
      rw [ver, ver', Option.elim_none, List.nil_append] at same
      exact absurd (congrArg peek same) (h.no_ver ver)
  | some w =>
    cases ver' : q.ver with
    | none =>
      rw [ver, ver', Option.elim_none, List.nil_append] at same
      exact absurd (congrArg peek same.symm) (h'.no_ver ver')
    | some w' =>
      rw [ver, ver'] at same
      obtain ⟨rfl, rest⟩ := word_unique (h.ver w ver).1 (h'.ver w' ver').1 h.rest h'.rest (List.cons.inj same).2
      exact ⟨rfl, rest⟩

theorem Parts.Form.ext_unique (h : p.Form AnyUnit AnyVersion) (h' : q.Form AnyUnit AnyVersion)
    (same : p.printExt = q.printExt) : p.ext = q.ext ∧ p.printVer = q.printVer := by
  rw [Parts.printExt, Parts.printExt] at same
  cases ext : p.ext with
  | none =>
    cases ext' : q.ext with
    | none =>
      rw [ext, ext'] at same
      exact ⟨rfl, same⟩
    | some w' =>
      rw [ext, ext', Option.elim_none, List.nil_append] at same
      exact absurd (congrArg peek same) (h.no_ext ext)
  | some w =>
    cases ext' : q.ext with
    | none =>
      rw [ext, ext', Option.elim_none, List.nil_append] at same
      exact absurd (congrArg peek same.symm) (h'.no_ext ext')
    | some w' =>
      rw [ext, ext'] at same
      obtain ⟨rfl, rest⟩ := word_unique (h.ext w ext) (h'.ext w' ext') h.delim_ver h'.delim_ver (List.cons.inj same).2
      exact ⟨rfl, rest⟩

theorem word_nil : Word [] := fun _ hc => absurd hc List.not_mem_nil

/-- The first word behind the device is the name, or it is empty. -/
theorem Parts.Form.first (h : p.Form AnyUnit AnyVersion) : ∃ w r, p.printDir = w ++ r ∧ Word w ∧
    isdelim (peek r) = true ∧ (p.dir = none ∧ w = p.name ∧ r = p.printExt ∨ w = [] ∧
      ((p.dir = some .sys ∧ r = 36 :: (p.name ++ p.printExt)) ∨
        ∃ d, p.dir = some (.named d) ∧ r = 91 :: (d ++ 93 :: (p.name ++ p.printExt)))) := by
  rw [Parts.printDir]
  cases dir : p.dir with
  | none => exact ⟨p.name, p.printExt, rfl, h.name, h.delim_ext, Or.inl ⟨rfl, rfl, rfl⟩⟩
  | some d =>
    cases d with
    | sys => exact ⟨[], 36 :: (p.name ++ p.printExt), rfl, word_nil, rfl, Or.inr ⟨rfl, Or.inl ⟨rfl, rfl⟩⟩⟩
    | named d =>
      refine ⟨[], 91 :: (d ++ 93 :: (p.name ++ p.printExt)), ?_, word_nil, rfl, Or.inr ⟨rfl, Or.inr ⟨d, rfl, rfl⟩⟩⟩
      rw [Option.elim_some, Dir.print]
      simp only [List.cons_append, List.append_assoc, List.nil_append]

theorem Parts.Form.dir_unique (h : p.Form AnyUnit AnyVersion) (h' : q.Form AnyUnit AnyVersion)
    (same : p.printDir = q.printDir) : p.dir = q.dir ∧ p.name = q.name ∧ p.printExt = q.printExt := by
  obtain ⟨w, r, string, word, delim, kind⟩ := h.first
  obtain ⟨w', r', string', word', delim', kind'⟩ := h'.first
  obtain ⟨rfl, rfl⟩ := word_unique word word' delim delim' (string.symm.trans (same.trans string'))
  rcases kind with ⟨dir, rfl, rfl⟩ | ⟨rfl, ⟨dir, rfl⟩ | ⟨d, dir, rfl⟩⟩
  · rcases kind' with ⟨dir', name, ext⟩ | ⟨-, ⟨-, ext⟩ | ⟨d', -, ext⟩⟩
    · exact ⟨dir.trans dir'.symm, name, ext⟩
    · exact absurd (congrArg peek ext) (h.no_dir dir).1
    · exact absurd (congrArg peek ext) (h.no_dir dir).2
  · rcases kind' with ⟨dir', -, ext⟩ | ⟨-, ⟨dir', ext⟩ | ⟨d', -, ext⟩⟩
    · exact absurd (congrArg peek ext.symm) (h'.no_dir dir').1
    · have tail := (List.cons.inj ext).2
      exact ⟨dir.trans dir'.symm, word_unique h.name h'.name h.delim_ext h'.delim_ext tail⟩
    · cases ext
  · rcases kind' with ⟨dir', -, ext⟩ | ⟨-, ⟨dir', ext⟩ | ⟨d', dir', ext⟩⟩
    · exact absurd (congrArg peek ext.symm) (h'.no_dir dir').2
    · cases ext
    · obtain ⟨rfl, tail⟩ := word_unique (r := 93 :: _) (h.dir d dir).1 (h'.dir d' dir').1 rfl rfl (List.cons.inj ext).2
      exact ⟨dir.trans dir'.symm, word_unique h.name h'.name h.delim_ext h'.delim_ext (List.cons.inj tail).2⟩

theorem Parts.Form.dev_unique (h : p.Form AnyUnit AnyVersion) (h' : q.Form AnyUnit AnyVersion)
    (same : p.print = q.print) : p.dev = q.dev ∧ p.printDir = q.printDir := by
  have skipped := congrArg skipbl same
  rw [Parts.print, Parts.print, List.append_assoc, List.append_assoc, skipbl_append h.blanks h.print_not_blank,
    skipbl_append h'.blanks h'.print_not_blank] at skipped
  have no_colon (p : Parts) (h : p.Form AnyUnit AnyVersion) (dev : p.dev = none) {w t : Text} (word : Word w)
      (same : p.printDir = w ++ [58] ++ t) : False := by
    obtain ⟨v, r, string, word', delim, kind⟩ := h.first
    rw [string, List.append_assoc] at same
    obtain ⟨-, rfl⟩ := word_unique word' word delim rfl same
    rcases kind with ⟨dir, -, ext⟩ | ⟨-, ⟨-, ext⟩ | ⟨d, -, ext⟩⟩
    · exact h.no_dev dev dir (congrArg peek ext.symm)
    · cases ext
    · cases ext
  cases dev : p.dev with
  | none =>
    cases dev' : q.dev with
    | none =>
      rw [dev, dev'] at skipped
      exact ⟨rfl, skipped⟩
    | some w' =>
      rw [dev, dev'] at skipped
      exact (no_colon p h dev (h'.dev w' dev').1 skipped).elim
  | some w =>
    cases dev' : q.dev with
    | none =>
      rw [dev, dev'] at skipped
      exact (no_colon q h' dev' (h.dev w dev).1 skipped.symm).elim
    | some w' =>
      rw [dev, dev', Option.elim_some, Option.elim_some, List.append_assoc, List.append_assoc] at skipped
      obtain ⟨rfl, tail⟩ := word_unique (h.dev w dev).1 (h'.dev w' dev').1 rfl rfl skipped
      exact ⟨rfl, (List.cons.inj tail).2⟩

end

/-! ### Units and versions -/

theorem Parts.Form.mono {U V U' V' : Text → Prop} (h : p.Form U V) (units : ∀ u, U u → U' u)
    (versions : ∀ w, V w → V' w) : p.Form U' V' := by
  refine ⟨h.blanks, fun w dev => ?_, h.dir, h.name, h.ext, fun w ver => ?_, h.rest, h.no_blank, h.no_dev, h.no_dir,
    h.no_ext, h.no_ver⟩
  · obtain ⟨word, c₁, c₂, u, cut, first, second, unit⟩ := h.dev w dev
    exact ⟨word, c₁, c₂, u, cut, first, second, units u unit⟩
  · exact ⟨(h.ver w ver).1, versions w (h.ver w ver).2⟩

theorem Digits.number (h : Digits u) : Number u := by
  cases u with
  | nil => exact absurd rfl h.nonempty
  | cons c u =>
    have digit := of_decide_eq_true (h.digits c List.mem_cons_self)
    rw [Number, if_neg (by omega)]
    exact h

theorem Parts.Form.any (h : p.Form ProperUnit ProperVersion) : p.Form AnyUnit AnyVersion := by
  refine h.mono (fun u unit => ?_) fun w version => ?_
  · exact unit.imp_right fun digits => digits.1.number
  · exact version.imp_left fun star => congrArg List.head? star

/-- `PFN` accepts the file specifications and gives the FDB of each. -/
def Right (s : Text) : Prop :=
  ∀ fdb, (∃ hl, PFN s = some (fdb, hl)) ↔ ∃ p : Parts, p.Form ProperUnit ProperVersion ∧ p.print = s ∧ p.fdb = fdb

/-- `PFN` is right when each string that it accepts has a unit without a sign up to 255, and nothing behind the
`*` of a version. -/
theorem pfn_right_iff (s : Text) : Right s ↔
    ∀ p : Parts, p.Form AnyUnit AnyVersion → p.print = s → p.Form ProperUnit ProperVersion := by
  constructor
  · rintro right p form rfl
    obtain ⟨q, form', print, -⟩ := (right p.fdb).mp (PFN_form form)
    obtain ⟨dev, dir⟩ := form.dev_unique form'.any print.symm
    obtain ⟨-, -, ext⟩ := form.dir_unique form'.any dir
    obtain ⟨-, ver⟩ := form.ext_unique form'.any ext
    obtain ⟨ver, -⟩ := form.ver_unique form'.any ver
    exact ⟨form.blanks, fun w some_dev => form'.dev w (dev.symm.trans some_dev), form.dir, form.name, form.ext,
      fun w some_ver => form'.ver w (ver.symm.trans some_ver), form.rest, form.no_blank, form.no_dev, form.no_dir,
      form.no_ext, form.no_ver⟩
  · intro proper fdb
    constructor
    · rintro ⟨hl, read⟩
      obtain ⟨p, form, rfl⟩ := form_of_PFN read
      obtain ⟨hl', read'⟩ := PFN_form form
      rw [read] at read'
      cases read'
      exact ⟨p, proper p form rfl, rfl, rfl⟩
    · rintro ⟨p, form, rfl, rfl⟩
      exact PFN_form form.any

end

/-- `TT256:` -/
def tt256 : Parts := ⟨[], some [84, 84, 50, 53, 54], none, [], none, none, []⟩

theorem tt256_form : tt256.Form AnyUnit AnyVersion where
  blanks := by simp [tt256]
  dev := by
    rintro _ ⟨⟩
    exact ⟨by simp [Word, isdelim], 84, 84, [50, 53, 54], rfl, rfl, rfl, Or.inr ⟨by decide, by decide, by decide⟩⟩
  dir := by simp [tt256]
  name := word_nil
  ext := by simp [tt256]
  ver := by simp [tt256]
  rest := rfl
  no_blank dev := by cases dev
  no_dev dev := by cases dev
  no_dir _ := ⟨by decide, by decide⟩
  no_ext _ := by decide
  no_ver _ := by decide

/-- The unit is read as 0. -/
theorem unit_wraps : ¬∀ s, Right s := by
  intro h
  obtain ⟨q, form, print, -⟩ := (h tt256.print tt256.fdb).mp (PFN_form tt256_form)
  obtain ⟨dev, -⟩ := tt256_form.dev_unique form.any print.symm
  obtain ⟨-, c₁, c₂, u, cut, -, -, unit⟩ := form.dev _ dev.symm
  obtain ⟨-, -, rfl⟩ : 84 = c₁ ∧ 84 = c₂ ∧ [50, 53, 54] = u := by simpa using cut
  rcases unit with none | ⟨-, small⟩
  · cases none
  · exact absurd small (by decide)

end RSX280.Pfn
