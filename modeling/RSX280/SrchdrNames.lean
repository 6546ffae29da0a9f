import RSX280.Srchdr

/-!
# The strings of the search

`bldpat` and `fmatch` put two strings together in the stack frame: the pattern (`bldpat_spec`) and the name of an
entry. So `fmatch` says whether the one matches the other (`fmatch_spec`).
-/

namespace RSX280.Srchdr

open Match Pfn Wildcard

/-- A field up to the first blank or null. -/
def word (l : List UInt8) : List UInt8 := l.takeWhile fun c => c ≠ 0 ∧ c ≠ blank

/-- `name.ext` -/
def Entry.text (e : Entry) : List UInt8 := word e.name.toList ++ period :: word e.ext.toList

/-- The name and the extension to search for. What is missing is `*`, but before an extension there is no name
then. -/
def Fnb.pattern (fnb : Fnb) : List UInt8 :=
  (if fnb.Has FN.NAME then word fnb.name.toList else if fnb.Has FN.EXT then [] else [asterisk]) ++
    period :: if fnb.Has FN.EXT then word fnb.ext.toList else [asterisk]

/-- The name of the entry matches. -/
def Fnb.Fits (fnb : Fnb) (e : Entry) : Prop := Matches percent asterisk fnb.pattern e.text

/-! ### Bytes in memory -/

/-- The bytes `l` are at `a`. -/
def Bytes (m : Mem) (a : ℕ) : List UInt8 → Prop
  | [] => True
  | x :: l => m a = x ∧ Bytes m (a + 1) l

/-- Nothing before `a` is changed. -/
def Same (a : ℕ) (m m' : Mem) : Prop := ∀ b < a, m' b = m b

variable {m m' m'' : Mem} {a b c : ℕ} {l l' : List UInt8} {x : UInt8}

theorem Same.rfl : Same a m m := fun _ _ => Eq.refl _

theorem Same.trans (h : Same a m m') (h' : Same a m' m'') : Same a m m'' :=
  fun b hb => (h' b hb).trans (h b hb)

theorem Same.mono (h : Same b m m') (hab : a ≤ b) : Same a m m' := fun _ hc => h _ (hc.trans_le hab)

theorem same_wr8 (m : Mem) (a : ℕ) (x : UInt8) : Same a m (m.wr8 a x) := fun _ hb => Mem.wr8_ne m x hb.ne

theorem Bytes.same (h : Bytes m a l) (hs : Same (a + l.length) m m') : Bytes m' a l := by
  induction l generalizing a with
  | nil => trivial
  | cons x l ih =>
    rw [List.length_cons, Nat.add_comm l.length, ← Nat.add_assoc] at hs
    exact ⟨(hs a (by omega)).trans h.1, ih h.2 hs⟩

theorem bytes_append : Bytes m a (l ++ l') ↔ Bytes m a l ∧ Bytes m (a + l.length) l' := by
  induction l generalizing a with
  | nil => exact iff_of_eq (true_and _).symm
  | cons x l ih =>
    rw [List.cons_append, Bytes, Bytes, ih, List.length_cons, and_assoc, Nat.add_comm l.length,
      ← Nat.add_assoc]

/-- The bytes, and one more. -/
theorem Bytes.wr8 (h : Bytes m a l) (e : b = a + l.length) (x : UInt8) : Bytes (m.wr8 b x) a (l ++ [x]) := by
  subst e
  exact bytes_append.mpr ⟨h.same (same_wr8 m _ x), Mem.wr8_self m _ x, trivial⟩

theorem inc_of_lt (h : a + 1 < 65536) : inc a = a + 1 := Nat.mod_eq_of_lt h

theorem str_of_bytes (h : Bytes m a (l ++ [0])) (hl : ∀ x ∈ l, x ≠ 0) (ha : a + l.length < 65536) :
    Str m a l := by
  induction l generalizing a with
  | nil => exact h.1
  | cons x l ih =>
    rw [List.length_cons] at ha
    refine ⟨h.1, hl x List.mem_cons_self, ?_⟩
    rw [inc_of_lt (by omega)]
    exact ih h.2 (fun y hy => hl y (List.mem_cons_of_mem x hy)) (by omega)

theorem Str.same (h : Str m a l) (hs : Same (a + l.length + 1) m m') (ha : a + l.length < 65536) :
    Str m' a l := by
  induction l generalizing a with
  | nil => exact (hs a (by simp)).trans h
  | cons x l ih =>
    rw [List.length_cons] at ha hs
    obtain ⟨hx, hne, h⟩ := h
    refine ⟨(hs a (by omega)).trans hx, hne, ?_⟩
    rw [inc_of_lt (by omega)] at h ⊢
    exact ih h (hs.mono (by omega)) (by omega)

/-! ### `CPNAME` and `CPEXT` -/

theorem mem_word (h : x ∈ word l) : x ≠ 0 ∧ x ≠ blank := by
  have := List.mem_takeWhile_imp h
  simpa using this

theorem length_word (l : List UInt8) : (word l).length ≤ l.length := (List.takeWhile_prefix _).length_le

theorem word_cons_of (h : x = 0 ∨ x = blank) (l : List UInt8) : word (x :: l) = [] := by
  rw [word, List.takeWhile_cons_of_neg]
  simpa [or_iff_not_imp_left] using h

theorem word_cons (h : ¬(x = 0 ∨ x = blank)) (l : List UInt8) : word (x :: l) = x :: word l := by
  rw [word, List.takeWhile_cons_of_pos, word]
  simpa using h

/-- What the routines leave: the word and a null, and the registers behind the word. -/
structure Copied (m : Mem) (de c : ℕ) (w : List UInt8) (r : Mem × ℕ × ℕ) : Prop where
  same : Same de m r.1
  bytes : Bytes r.1 de (w ++ [0])
  de : r.2.1 = de + w.length
  c : r.2.2 = c + w.length

theorem cpn1_spec (m : Mem) {de : ℕ} (c : ℕ) (h : de + l.length < 65536) :
    Copied m de c (word l) (cpn1 m de c l) := by
  induction l generalizing m de c with
  | nil => exact ⟨same_wr8 m de 0, ⟨Mem.wr8_self m de 0, trivial⟩, rfl, rfl⟩
  | cons x l ih =>
    rw [List.length_cons] at h
    rw [cpn1]
    split
    · next hx =>
      rw [word_cons_of hx]
      exact ⟨same_wr8 m de 0, ⟨Mem.wr8_self m de 0, trivial⟩, rfl, rfl⟩
    · next hx =>
      have room : de + 1 + l.length < 65536 := by omega
      have step := ih (m.wr8 de x) (c + 1) room
      rw [inc_of_lt (by omega), word_cons hx]
      refine ⟨(same_wr8 m de x).trans (step.same.mono (Nat.le_succ de)), ⟨?_, step.bytes⟩, ?_, ?_⟩
      · exact (step.same de (Nat.lt_succ_self de)).trans (Mem.wr8_self m de x)
      · rw [step.de, List.length_cons]
        omega
      · rw [step.c, List.length_cons]
        omega

theorem CPNAME_spec (m : Mem) (de : ℕ) (hl : Vector UInt8 9) (h : de < 256) :
    Copied m de 0 (word hl.toList) (CPNAME m de hl) :=
  cpn1_spec m 0 (by rw [Vector.length_toList]; omega)

theorem CPEXT_spec (m : Mem) (de : ℕ) (hl : Vector UInt8 3) (h : de < 256) :
    Copied m de 0 (word hl.toList) (CPEXT m de hl) :=
  cpn1_spec m 0 (by rw [Vector.length_toList]; omega)

theorem length_name (hl : Vector UInt8 9) : (word hl.toList).length ≤ 9 :=
  (length_word _).trans_eq hl.length_toList

theorem length_ext (hl : Vector UInt8 3) : (word hl.toList).length ≤ 3 :=
  (length_word _).trans_eq hl.length_toList

/-! ### `bldpat` -/

variable {fnb : Fnb} {de : ℕ}

theorem has_or (fnb : Fnb) (c d : UInt8) : fnb.Has (c ||| d) ↔ fnb.Has c ∨ fnb.Has d := by
  have split : fnb.attr &&& (c ||| d) = fnb.attr &&& c ||| fnb.attr &&& d :=
    UInt8.toBitVec_inj.mp BitVec.and_or_distrib_left
  rw [Fnb.Has, Fnb.Has, Fnb.Has, split, Ne, UInt8.or_eq_zero_iff, not_and_or]

/-- The begin of the pattern, and `DE` behind it. -/
structure Built (l : List UInt8) (m : Mem) (de : ℕ) : Prop where
  bytes : Bytes m pattrn l
  de : de = pattrn + l.length
  short : l.length ≤ 9
  ne : ∀ x ∈ l, x ≠ 0

theorem Built.nil (m : Mem) : Built [] m pattrn :=
  ⟨trivial, rfl, Nat.zero_le 9, fun _ h => absurd h List.not_mem_nil⟩

theorem Built.star (m : Mem) : Built [asterisk] (m.wr8 pattrn asterisk) (inc pattrn) where
  bytes := ⟨Mem.wr8_self m _ _, trivial⟩
  de := rfl
  short := Nat.le_add_left 1 8
  ne _ h := by
    rw [List.mem_singleton.mp h]
    decide

/-- The pattern is complete. -/
theorem Built.str (h : Built l m de) (l' : List UInt8)
    (hb : Bytes m' (pattrn + l.length) (period :: (l' ++ [0])))
    (hs : Same (pattrn + l.length) m m') (hl : ∀ x ∈ l', x ≠ 0) (hlen : l'.length ≤ 3) :
    Str m' pattrn (l ++ period :: l') := by
  have short := h.short
  refine str_of_bytes ?_ ?_ ?_
  · rw [List.append_assoc, List.cons_append]
    exact bytes_append.mpr ⟨h.bytes.same hs, hb⟩
  · intro x hx
    rcases List.mem_append.mp hx with hx | hx
    · exact h.ne x hx
    rcases List.mem_cons.mp hx with rfl | hx
    · decide
    · exact hl x hx
  · rw [List.length_append, List.length_cons, pattrn]
    omega

theorem Built.inc_de (h : Built l m de) : inc de = pattrn + l.length + 1 := by
  have short := h.short
  rw [h.de, inc_of_lt]
  rw [pattrn]
  omega

/-- The extension was specified. -/
theorem bp2_ext (h : Built l m de) (hx : fnb.Has FN.EXT) :
    Str (bp2 fnb m de) pattrn (l ++ period :: word fnb.ext.toList) := by
  have short := h.short
  have room : inc de < 256 := by
    rw [h.inc_de, pattrn]
    omega
  have copied := CPEXT_spec (m.wr8 de period) (inc de) fnb.ext room
  have same : Same (pattrn + l.length) m (CPEXT (m.wr8 de period) (inc de) fnb.ext).1 := by
    rw [← h.de]
    exact (same_wr8 m de period).trans (copied.same.mono (by rw [h.inc_de, h.de]; omega))
  have bytes : Bytes (CPEXT (m.wr8 de period) (inc de) fnb.ext).1 (pattrn + l.length)
      (period :: (word fnb.ext.toList ++ [0])) := by
    refine ⟨?_, h.inc_de ▸ copied.bytes⟩
    rw [copied.same _ (by rw [h.inc_de]; omega), ← h.de, Mem.wr8_self]
  have whole := h.str _ bytes same (fun x hx => (mem_word hx).1) (length_ext _)
  rw [bp2, if_pos hx]
  dsimp only
  split
  · exact whole
  · rw [bp3, if_pos ((has_or fnb _ _).mpr (Or.inl hx))]
    exact whole

/-- Neither the name nor the extension was specified. -/
theorem bp2_none (h : Built l m de) (hx : ¬fnb.Has FN.EXT) (hn : ¬fnb.Has FN.NAME) :
    Str (bp2 fnb m de) pattrn (l ++ [period, asterisk]) := by
  have short := h.short
  have none : ¬fnb.Has (FN.EXT ||| FN.NAME) := fun h => ((has_or fnb _ _).mp h).elim hx hn
  rw [bp2, if_neg hx, bp3, if_neg none]
  have next : inc (inc de) = inc de + 1 := by
    rw [h.inc_de, inc_of_lt]
    rw [pattrn]
    omega
  have behind : de < inc de := by
    rw [h.inc_de, h.de]
    omega
  refine h.str [asterisk] ?_ ?_ ?_ (Nat.le_add_left 1 2)
  · rw [← h.de, next]
    have at_de : Bytes (m.wr8 de period) de [period] := ⟨Mem.wr8_self m _ _, trivial⟩
    have two := at_de.wr8 (b := inc de) (by rw [h.inc_de, h.de]; rfl) asterisk
    exact two.wr8 (by rw [h.inc_de, h.de]; rfl) 0
  · rw [← h.de]
    exact ((same_wr8 m de period).trans ((same_wr8 _ _ _).mono behind.le)).trans
      ((same_wr8 _ _ _).mono (next ▸ behind.le.trans (Nat.le_succ _)))
  · intro x hx
    rw [List.mem_singleton.mp hx]
    decide

/-- The pattern has its null: when the name was specified, then the extension was as well. -/
theorem bp0_spec (m : Mem) (h : fnb.Has FN.NAME → fnb.Has FN.EXT) :
    Str (bp0 fnb m) pattrn fnb.pattern := by
  rw [bp0, Fnb.pattern]
  by_cases hn : fnb.Has FN.NAME
  · have hx := h hn
    have copied := CPNAME_spec m pattrn fnb.name (by decide)
    have built : Built (word fnb.name.toList) (CPNAME m pattrn fnb.name).1 (CPNAME m pattrn fnb.name).2.1 :=
      ⟨(bytes_append.mp copied.bytes).1, copied.de, length_name _, fun x hx => (mem_word hx).1⟩
    rw [if_pos hn, if_pos hn, if_pos hx]
    dsimp only
    split
    · exact bp2_ext built hx
    · rw [bp1, if_pos hx]
      exact bp2_ext built hx
  · rw [if_neg hn, if_neg hn, bp1]
    split
    · next hx => exact bp2_ext (Built.nil m) hx
    · next hx => exact bp2_none (Built.star m) hx hn

theorem length_pattern (fnb : Fnb) : fnb.pattern.length ≤ 13 := by
  have name : (if fnb.Has FN.NAME then word fnb.name.toList
      else if fnb.Has FN.EXT then [] else [asterisk]).length ≤ 9 := by
    split_ifs
    · exact length_name fnb.name
    · exact Nat.zero_le 9
    · exact Nat.le_add_left 1 8
  have ext : (if fnb.Has FN.EXT then word fnb.ext.toList else [asterisk]).length ≤ 3 := by
    split_ifs
    · exact length_ext fnb.ext
    · exact Nat.le_add_left 1 2
  rw [Fnb.pattern, List.length_append, List.length_cons]
  omega

/-! ### `fmatch` -/

theorem length_text (e : Entry) : e.text.length ≤ 13 := by
  have name := length_name e.name
  have ext := length_ext e.ext
  rw [Entry.text, List.length_append, List.length_cons]
  omega

theorem entname_spec (m : Mem) (e : Entry) :
    Str (entname m e) fname e.text ∧ Same fname m (entname m e) := by
  have short := length_name e.name
  have shortExt := length_ext e.ext
  have name := CPNAME_spec m fname e.name (by decide)
  rw [entname]
  dsimp only
  have de := name.de
  have next : inc (CPNAME m fname e.name).2.1 = fname + (word e.name.toList).length + 1 := by
    rw [de, inc_of_lt]
    rw [fname, pattrn]
    omega
  have room : fname + (word e.name.toList).length + 1 < 256 := by
    rw [fname, pattrn]
    omega
  rw [next, de]
  have ext := CPEXT_spec ((CPNAME m fname e.name).1.wr8 (fname + (word e.name.toList).length) period) _ e.ext
    room
  have dot := same_wr8 (CPNAME m fname e.name).1 (fname + (word e.name.toList).length) period
  refine ⟨str_of_bytes ?_ ?_ ?_, ?_⟩
  · rw [Entry.text, List.append_assoc, List.cons_append]
    refine bytes_append.mpr ⟨?_, ?_, ext.bytes⟩
    · exact (bytes_append.mp name.bytes).1.same (dot.trans (ext.same.mono (Nat.le_succ _)))
    · rw [ext.same _ (Nat.lt_succ_self _), Mem.wr8_self]
  · intro x hx
    rcases List.mem_append.mp hx with hx | hx
    · exact (mem_word hx).1
    rcases List.mem_cons.mp hx with rfl | hx
    · decide
    · exact (mem_word hx).1
  · have := length_text e
    rw [fname, pattrn]
    omega
  · exact name.same.trans ((dot.mono (Nat.le_add_right _ _)).trans (ext.same.mono (by omega)))

/-- The pattern of the search is in the frame. -/
abbrev Ready (m : Mem) (fnb : Fnb) : Prop := Str m pattrn fnb.pattern

theorem pattern_ne (fnb : Fnb) : fnb.pattern ≠ [] :=
  List.append_ne_nil_of_right_ne_nil _ (List.cons_ne_nil _ _)

/-- `fmatch` returns, and says whether the entry matches. -/
theorem fmatch_spec {fnb : Fnb} {m : Mem} (h : Ready m fnb) (hs : ¬[asterisk, asterisk] <:+ fnb.pattern)
    (temp : Bool) (e : Entry) : ∃ z, (z = true ↔ fnb.Fits e) ∧ Ready (entname m e) fnb ∧
      ∃ n, ∀ k, n ≤ k → fmatch k fnb temp m e = some (entname m e, z && fm1 fnb temp e) := by
  obtain ⟨name, same⟩ := entname_spec m e
  have short := length_pattern fnb
  have ready : Ready (entname m e) fnb := by
    refine Str.same h (same.mono ?_) ?_
    · rw [fname]
      omega
    · rw [pattrn]
      omega
  obtain ⟨z, ⟨n, hn⟩, hz⟩ := match_of_not_suffix name ready hs
  refine ⟨z, hz, ready, n, fun k hk => ?_⟩
  have nonzero : entname m e pattrn ≠ 0 := fun zero => pattern_ne fnb (Str.nil_of_zero ready zero)
  rw [fmatch, if_neg nonzero, hn k hk]
  rfl

end RSX280.Srchdr
