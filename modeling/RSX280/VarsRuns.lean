import Mathlib.Order.Nat
import RSX280.Scopes
import RSX280.Vars

/-!
# The symbol table is a stack of scopes

The entries of the table, read in order, build a stack of scopes: a marker opens a frame or a block,
and a variable is created where it stands. The searches find in the table what the names denote in
that stack, and every command does to both the same.
-/

namespace RSX280.Vars

open Scopes

/-- A stack of scopes of the command processor. -/
abbrev Scope := Stack Name Val Start

/-- No variables, and the frame of the first file. -/
def bottom : Scope := ⟨fun _ => none, ⟨0, fun _ => none, []⟩, []⟩

/-! ### The model -/

/-- The same levels, and a stack of scopes for the table. -/
structure Model where
  scopes : Scope
  INDLVL : ℕ
  BLKLVL : ℕ
  INDPDL : List ℕ

namespace Model

/-- An assignment. -/
def set (G : Bool) (m : Model) (name : Name) (v : Val) (mem : Bool) : Model × Option Err :=
  match m.scopes.find (isgbl G) name with
  | none =>
    if mem then ({ m with scopes := m.scopes.create (isgbl G) name v }, none) else (m, some .MEM)
  | some w =>
    if w.type = v.type then ({ m with scopes := m.scopes.assign (isgbl G) name v }, none)
    else (m, some .RDF)

/-- A file is opened. It has a frame unless it shares its locals. -/
def opened (m : Model) (loc mem : Bool) : Model × Option Err :=
  if MAXIND ≤ m.INDLVL then (m, some .TMC)
  else
    let inner := { m with INDLVL := m.INDLVL + 1, INDPDL := m.BLKLVL :: m.INDPDL }
    if loc then (inner, none)
    else if mem then ({ inner with scopes := m.scopes.openFrame m.INDLVL }, none)
    else (inner, some .MEM)

/-- A file ends, and with it its frame and the blocks opened in it. -/
def close (m : Model) : Model :=
  { scopes := (m.scopes.closeFrame (m.INDLVL - 1)).pop (m.INDPDL.headD 0 + 1)
    INDLVL := m.INDLVL - 1, BLKLVL := m.INDPDL.headD 0, INDPDL := m.INDPDL.tail }

/-- A block begins. -/
def begin (m : Model) (pos : Pos) : Model × Option Err :=
  if m.BLKLVL = 255 then (m, some .TMB)
  else ({ m with
    scopes := m.scopes.push (m.BLKLVL + 1) ⟨pos, m.INDLVL⟩, BLKLVL := m.BLKLVL + 1 }, none)

/-- What a command does to the scopes. -/
def step (G : Bool) (m : Model) : Op → Model × Out
  | .open loc mem => ((m.opened loc mem).1, .err (m.opened loc mem).2)
  | .close => (m.close, .err none)
  | .begin pos _ => ((m.begin pos).1, .err (m.begin pos).2)
  | .bend => ({ m with scopes := m.scopes.pop m.BLKLVL, BLKLVL := m.BLKLVL - 1 }, .err none)
  | .onerr _ mem => (m, .err (if mem then none else some .MEM))
  | .set name v mem => ((m.set G name v mem).1, .err (m.set G name v mem).2)
  | .get name => (m, .val (m.scopes.find (isgbl G) name))
  | .goto => (m, .start ((m.scopes.cur.block m.BLKLVL).map Block.data))

/-- What a list of commands sees. -/
def trace (G : Bool) : Model → List Op → List Out
  | _, [] => []
  | m, op :: l => (m.step G op).2 :: trace G (m.step G op).1 l

/-- The model of the first file. -/
def start : Model := ⟨bottom, 1, 0, []⟩

end Model

/-! ### The scopes of a table -/

/-- What an entry does to the scopes. -/
def enterEntry (G : Bool) (s : Scope) : Entry → Scope
  | .var n v => s.enter (isgbl G) n v
  | .blk l st => s.push l st
  | .fil l => s.openFrame l
  | .err .. => s

/-- The scopes of a list of entries, behind the scopes `s`. -/
def scopes (G : Bool) (s : Scope) (l : List Entry) : Scope := l.foldl (enterEntry G) s

/-- There is no file marker among the entries. -/
def Flat (l : List Entry) : Prop := ∀ lvl, .fil lvl ∉ l

variable {G : Bool} {s t : Scope} {l l' : List Entry} {n : Name} {v w : Val}

@[simp] theorem scopes_nil : scopes G s [] = s := rfl

@[simp] theorem scopes_cons (x : Entry) :
    scopes G s (x :: l) = scopes G (enterEntry G s x) l := rfl

theorem scopes_append : scopes G s (l ++ l') = scopes G (scopes G s l) l' :=
  List.foldl_append

theorem Flat.tail {x : Entry} (h : Flat (x :: l)) : Flat l := fun lvl hm =>
  h lvl (List.mem_cons_of_mem _ hm)

theorem flat_append : Flat (l ++ l') ↔ Flat l ∧ Flat l' :=
  ⟨fun h => ⟨fun lvl hm => h lvl (List.mem_append_left _ hm),
    fun lvl hm => h lvl (List.mem_append_right _ hm)⟩,
    fun h lvl hm => (List.mem_append.mp hm).elim (h.1 lvl) (h.2 lvl)⟩

/-! ### Variables -/

/-- The value of the first variable of a name. -/
def firstVal (n : Name) : List Entry → Option Val
  | [] => none
  | .var m v :: l => if m = n then some v else firstVal n l
  | _ :: l => firstVal n l

/-- A name denotes what it did before, or else the first variable of that name. -/
theorem find_scopes (h : isgbl G n = true ∨ Flat l) :
    (scopes G s l).find (isgbl G) n = (s.find (isgbl G) n).or (firstVal n l) := by
  induction l generalizing s with
  | nil => exact (Option.or_none).symm
  | cons x l ih =>
    rw [scopes_cons, ih (h.imp_right Flat.tail)]
    cases x with
    | var m v =>
      rw [enterEntry, Stack.find_enter, firstVal]
      by_cases hm : n = m
      · rw [if_pos hm, if_pos hm.symm, Option.or_assoc]
        rfl
      · rw [if_neg hm, if_neg (Ne.symm hm)]
    | blk lvl st => rfl
    | fil lvl =>
      have hn := h.resolve_right fun hf => hf lvl (List.mem_cons_self ..)
      simp [enterEntry, Stack.find, Stack.openFrame, firstVal, hn]
    | err label lvl => rfl

/-- `fv1` finds the first variable of the name. -/
theorem fv1_spec (n : Name) (l : List Entry) (hl : ℕ) :
    (fv1 n l hl = none ∧ firstVal n l = none) ∨
      ∃ a v c, l = a ++ .var n v :: c ∧ fv1 n l hl = some (hl + a.length) ∧ firstVal n a = none ∧
        firstVal n l = some v := by
  induction l generalizing hl with
  | nil => exact .inl ⟨rfl, rfl⟩
  | cons x l ih =>
    have skip (hv : ∀ v, x ≠ .var n v) (hf : ∀ hl, fv1 n (x :: l) hl = fv1 n l (hl + 1))
        (hx : ∀ l, firstVal n (x :: l) = firstVal n l) :
        (fv1 n (x :: l) hl = none ∧ firstVal n (x :: l) = none) ∨
          ∃ a v c, x :: l = a ++ .var n v :: c ∧ fv1 n (x :: l) hl = some (hl + a.length) ∧
            firstVal n a = none ∧ firstVal n (x :: l) = some v := by
      rw [hf, hx]
      refine (ih (hl + 1)).imp_right ?_
      rintro ⟨a, v, c, rfl, hi, ha, hv⟩
      exact ⟨x :: a, v, c, rfl, by rw [hi, List.length_cons]; congr 1; omega, (hx a).trans ha, hv⟩
    cases x with
    | var m v =>
      by_cases hm : m = n
      · subst hm
        exact .inr ⟨[], v, l, rfl, by simp [fv1], rfl, by simp [firstVal]⟩
      · exact skip (fun v h => hm (by cases h; rfl)) (fun _ => by rw [fv1, if_neg hm])
          fun _ => by rw [firstVal, if_neg hm]
    | blk lvl st => exact skip (fun _ h => by cases h) (fun _ => rfl) fun _ => rfl
    | fil lvl => exact skip (fun _ h => by cases h) (fun _ => rfl) fun _ => rfl
    | err label lvl => exact skip (fun _ h => by cases h) (fun _ => rfl) fun _ => rfl

/-- An assignment may be made before or after the entries behind the variable. -/
theorem assign_scopes (h : isgbl G n = true ∨ Flat l) (hn : s.find (isgbl G) n ≠ none) :
    (scopes G s l).assign (isgbl G) n v = scopes G (s.assign (isgbl G) n v) l := by
  induction l generalizing s with
  | nil => rfl
  | cons x l ih =>
    have hx : (enterEntry G s x).find (isgbl G) n ≠ none := by
      rw [show enterEntry G s x = scopes G s [x] from rfl, find_scopes (h.imp_right ?_)]
      · exact fun hnone => hn (Option.or_eq_none_iff.mp hnone).1
      · exact fun hf lvl hm => hf lvl (List.mem_of_mem_head? (by simp_all))
    rw [scopes_cons, scopes_cons, ih (h.imp_right Flat.tail) hx]
    congr 1
    cases x with
    | var m w => exact Stack.assign_enter hn
    | blk lvl st => exact Stack.assign_push ..
    | fil lvl =>
      exact Stack.assign_openFrame (h.resolve_right fun hf => hf lvl (List.mem_cons_self ..)) _
    | err label lvl => rfl

/-! ### Pops -/

/-- What is kept when a scope is popped. -/
abbrev keeps (G : Bool) (l : List Entry) : List Entry := l.filter fun x => !Icp.cmpla G x

/-- `t` is `s` with blocks from the number `e` on above it. -/
structure Above (e : ℕ) (t s : Scope) : Prop where
  globals : t.globals = s.globals
  outer : t.outer = s.outer
  level : t.cur.level = s.cur.level
  vars : t.cur.vars = s.cur.vars
  blocks : ∃ b B, t.cur.blocks = b :: B ++ s.cur.blocks ∧ ∀ x ∈ b :: B, e ≤ x.level

theorem Above.enterEntry {e : ℕ} (h : Above e t s) {x : Entry} (hf : ∀ lvl, x ≠ .fil lvl)
    (hb : ∀ lvl st, x = .blk lvl st → e ≤ lvl) :
    Above e (enterEntry G t x) (scopes G s (keeps G [x])) := by
  obtain ⟨b, B, hB, hle⟩ := h.blocks
  cases x with
  | fil lvl => exact absurd rfl (hf lvl)
  | err label lvl => exact h
  | blk lvl st =>
    refine ⟨h.globals, h.outer, h.level, h.vars, ⟨lvl, st, fun _ => none⟩, b :: B, ?_, ?_⟩
    · change (⟨lvl, st, fun _ => none⟩ : Scopes.Block Name Val Start) :: t.cur.blocks = _
      rw [hB]
      rfl
    · intro x hx
      rcases List.mem_cons.mp hx with rfl | hx
      · exact hb lvl st rfl
      · exact hle x hx
  | var m v =>
    by_cases hm : isgbl G m
    · have hk : keeps G [.var m v] = [.var m v] := by simp [keeps, Icp.cmpla, hm]
      rw [hk]
      simp only [scopes_cons, scopes_nil, Vars.enterEntry, Stack.enter, Stack.find, hm, if_true,
        h.globals, Stack.create]
      split
      · exact h
      · exact ⟨rfl, h.outer, h.level, h.vars, b, B, hB, hle⟩
    · have hk : keeps G [.var m v] = [] := by simp [keeps, Icp.cmpla, hm]
      rw [hk]
      simp only [scopes_nil, Vars.enterEntry, Stack.enter, Stack.create, hm, Bool.false_eq_true,
        if_false]
      split
      · exact h
      · refine ⟨h.globals, h.outer, ?_, ?_, ?_⟩
        · exact Frame.level_create.trans h.level
        · rw [Frame.create, hB]
          exact h.vars
        · refine ⟨{ b with vars := Function.update b.vars m (some v) }, B, ?_, ?_⟩
          · rw [Frame.create, hB]
            rfl
          · intro x hx
            rcases List.mem_cons.mp hx with rfl | hx
            · exact hle b (List.mem_cons_self ..)
            · exact hle x (List.mem_cons_of_mem _ hx)

theorem Above.scopes {e : ℕ} (h : Above e t s) (hf : Flat l)
    (hb : ∀ lvl st, .blk lvl st ∈ l → e ≤ lvl) :
    Above e (scopes G t l) (scopes G s (keeps G l)) := by
  induction l generalizing s t with
  | nil => exact h
  | cons x l ih =>
    have hx := h.enterEntry (G := G) (x := x) (fun lvl hx => hf lvl (hx ▸ List.mem_cons_self ..))
      fun lvl st hx => hb lvl st (hx ▸ List.mem_cons_self ..)
    have step := ih hx hf.tail fun lvl st hm => hb lvl st (List.mem_cons_of_mem _ hm)
    rw [← scopes_append, ← List.filter_append] at step
    exact step

/-- Closing the blocks above gives what is below. -/
theorem Above.pop {e : ℕ} (h : Above e t s) (hs : ∀ b ∈ s.cur.blocks, b.level < e) :
    t.pop e = s := by
  obtain ⟨globals, outer, level, vars, b, B, hB, hle⟩ := h
  have hdrop : t.cur.blocks.dropWhile (fun b => e ≤ b.level) = s.cur.blocks := by
    rw [hB, List.dropWhile_append_of_pos fun x hx => decide_eq_true (hle x hx)]
    cases hc : s.cur.blocks with
    | nil => rfl
    | cons c C =>
      exact List.dropWhile_cons_of_neg (by simpa using hs c (hc ▸ List.mem_cons_self ..))
  simp only [Stack.pop, Frame.pop, hdrop, globals, outer, level, vars]

/-- What is kept creates nothing in the frames. -/
theorem scopes_keeps (l : List Entry) :
    (scopes G s (keeps G l)).cur = s.cur ∧ (scopes G s (keeps G l)).outer = s.outer := by
  induction l generalizing s with
  | nil => exact ⟨rfl, rfl⟩
  | cons x l ih =>
    by_cases hx : Icp.cmpla G x
    · rw [keeps, List.filter_cons_of_neg (by simp [hx])]
      exact ih
    · rw [keeps, List.filter_cons_of_pos (by simp [hx]), scopes_cons]
      cases x with
      | var m v =>
        have hm : isgbl G m = true := by simpa [Icp.cmpla] using hx
        have hsame : (enterEntry G s (.var m v)).cur = s.cur ∧
            (enterEntry G s (.var m v)).outer = s.outer := by
          simp only [enterEntry, Stack.enter, Stack.create, hm, if_true]
          split <;> exact ⟨rfl, rfl⟩
        exact ⟨ih.1.trans hsame.1, ih.2.trans hsame.2⟩
      | blk lvl st => exact absurd rfl hx
      | fil lvl => exact absurd rfl hx
      | err label lvl => exact absurd rfl hx

/-- The blocks opened by a piece of the table go, and the variables visible everywhere stay. -/
theorem pop_scopes {e : ℕ} {st : Start} (hs : ∀ b ∈ s.cur.blocks, b.level < e) (hf : Flat l)
    (hb : ∀ lvl st, .blk lvl st ∈ l → e ≤ lvl) :
    (scopes G s (.blk e st :: l)).pop e = scopes G s (keeps G l) := by
  have h : Above e (s.push e st) s :=
    ⟨rfl, rfl, rfl, rfl, _, [], rfl, fun x hx =>
      Nat.le_of_eq (congrArg Block.level (List.mem_singleton.mp hx)).symm⟩
  refine (h.scopes hf hb).pop fun b hb => hs b ?_
  rwa [(scopes_keeps l).1] at hb

/-- `t` is `s` with a frame of the level `e` above it. -/
structure Inside (e : ℕ) (t s : Scope) : Prop where
  globals : t.globals = s.globals
  outer : t.outer = s.cur :: s.outer
  level : t.cur.level = e

theorem Inside.enterEntry {e : ℕ} (h : Inside e t s) {x : Entry} (hf : ∀ lvl, x ≠ .fil lvl) :
    Inside e (enterEntry G t x) (scopes G s (keeps G [x])) := by
  cases x with
  | fil lvl => exact absurd rfl (hf lvl)
  | err label lvl => exact h
  | blk lvl st => exact ⟨h.globals, h.outer, h.level⟩
  | var m v =>
    by_cases hm : isgbl G m
    · have hk : keeps G [.var m v] = [.var m v] := by simp [keeps, Icp.cmpla, hm]
      rw [hk]
      simp only [scopes_cons, scopes_nil, Vars.enterEntry, Stack.enter, Stack.find, hm, if_true,
        h.globals, Stack.create]
      split
      · exact h
      · exact ⟨rfl, h.outer, h.level⟩
    · have hk : keeps G [.var m v] = [] := by simp [keeps, Icp.cmpla, hm]
      rw [hk]
      simp only [scopes_nil, Vars.enterEntry, Stack.enter, Stack.create, hm, Bool.false_eq_true,
        if_false]
      split
      · exact h
      · exact ⟨h.globals, h.outer, Frame.level_create.trans h.level⟩

theorem Inside.scopes {e : ℕ} (h : Inside e t s) (hf : Flat l) :
    Inside e (scopes G t l) (scopes G s (keeps G l)) := by
  induction l generalizing s t with
  | nil => exact h
  | cons x l ih =>
    have hx := h.enterEntry (G := G) (x := x) fun lvl hx => hf lvl (hx ▸ List.mem_cons_self ..)
    have step := ih hx hf.tail
    rw [← scopes_append, ← List.filter_append] at step
    exact step

/-- The frame opened by a piece of the table goes, and the variables visible everywhere stay. -/
theorem closeFrame_scopes {e : ℕ} (hf : Flat l) :
    (scopes G s (.fil e :: l)).closeFrame e = scopes G s (keeps G l) := by
  have h : Inside e (scopes G s (.fil e :: l)) (scopes G s (keeps G l)) :=
    Inside.scopes (s := s) (t := s.openFrame e) ⟨rfl, rfl, rfl⟩ hf
  simp only [Stack.closeFrame, h.outer, h.level, h.globals, if_true]

/-! ### The levels -/

/-- The numbers of the blocks of a frame and what is kept with them. -/
def marks (F : Frame Name Val Start) : List (ℕ × Start) := F.blocks.map fun b => (b.level, b.data)

/-- The levels of the frames and the blocks in them, the innermost first. -/
def shape (s : Scope) : List (ℕ × List (ℕ × Start)) :=
  (s.cur :: s.outer).map fun F => (F.level, marks F)

theorem marks_create (F : Frame Name Val Start) : marks (F.create n v) = marks F := by
  unfold Frame.create
  split
  · rfl
  · rename_i hb
    simp [marks, hb]

theorem marks_assignIn (bs : List (Scopes.Block Name Val Start)) :
    (Frame.assignIn n v bs).map (fun b => (b.level, b.data)) =
      bs.map fun b => (b.level, b.data) := by
  induction bs with
  | nil => rfl
  | cons b bs ih =>
    unfold Frame.assignIn
    split
    · rfl
    · rw [List.map_cons, ih, List.map_cons]

theorem marks_assign (F : Frame Name Val Start) : marks (F.assign n v) = marks F := by
  unfold Frame.assign
  split
  · exact marks_assignIn F.blocks
  · rfl

theorem shape_create (g : Name → Bool) : shape (s.create g n v) = shape s := by
  unfold Stack.create
  split
  · rfl
  · simp [shape, marks_create]

theorem shape_assign (g : Name → Bool) : shape (s.assign g n v) = shape s := by
  unfold Stack.assign
  split
  · rfl
  · simp [shape, marks_assign]

/-- The numbers go down from `hi` by one, and end above `lo`. -/
def Descends : ℕ → ℕ → List (ℕ × Start) → Prop
  | hi, lo, [] => hi = lo
  | hi, lo, b :: bs => b.1 = hi ∧ lo < hi ∧ Descends (hi - 1) lo bs

/-- The blocks of every file have the levels from that of the file around it. A file has a frame with
its own level, or its blocks are in the frame of the file around it. -/
def Good : List ℕ → ℕ → List (ℕ × List (ℕ × Start)) → Prop
  | [], blk, sh => ∃ ms, sh = [(0, ms)] ∧ Descends blk 0 ms
  | b :: pdl, blk, sh =>
    (∃ ms sh', sh = (pdl.length + 1, ms) :: sh' ∧ Descends blk b ms ∧ Good pdl b sh') ∨
      ∃ lvl new old sh', sh = (lvl, new ++ old) :: sh' ∧ Descends blk b new ∧
        Good pdl b ((lvl, old) :: sh')

variable {hi lo blk : ℕ} {ms : List (ℕ × Start)} {pdl : List ℕ}
  {sh : List (ℕ × List (ℕ × Start))}

theorem Descends.le (h : Descends hi lo ms) : lo ≤ hi := by
  cases ms with
  | nil => exact Nat.le_of_eq (Eq.symm h)
  | cons b bs => exact h.2.1.le

theorem Descends.bounds (h : Descends hi lo ms) : ∀ m ∈ ms, lo < m.1 ∧ m.1 ≤ hi := by
  induction ms generalizing hi with
  | nil => exact fun m hm => absurd hm List.not_mem_nil
  | cons b bs ih =>
    intro m hm
    obtain ⟨hb, hlt, hbs⟩ := h
    rcases List.mem_cons.mp hm with rfl | hm
    · exact ⟨hb ▸ hlt, hb.le⟩
    · exact ⟨(ih hbs m hm).1, (ih hbs m hm).2.trans (Nat.sub_le ..)⟩

theorem Descends.pairwise (h : Descends hi lo ms) : ms.Pairwise fun a b => b.1 < a.1 := by
  induction ms generalizing hi with
  | nil => exact .nil
  | cons b bs ih =>
    obtain ⟨hb, hlt, hbs⟩ := h
    refine List.pairwise_cons.mpr ⟨fun m hm => ?_, ih hbs⟩
    have := (hbs.bounds m hm).2
    omega

/-- The lowest of the blocks is the one behind `lo`. -/
theorem Descends.last (h : Descends hi lo ms) (hlt : lo < hi) : ∃ st, (lo + 1, st) ∈ ms := by
  induction ms generalizing hi with
  | nil => exact absurd h hlt.ne'
  | cons b bs ih =>
    obtain ⟨hb, -, hbs⟩ := h
    by_cases heq : lo = hi - 1
    · refine ⟨b.2, ?_⟩
      have : (lo + 1, b.2) = b := Prod.ext (by rw [hb]; omega) rfl
      exact this ▸ List.mem_cons_self ..
    · obtain ⟨st, hst⟩ := ih hbs (lt_of_le_of_ne hbs.le heq)
      exact ⟨st, List.mem_cons_of_mem _ hst⟩

/-- What the searches rely on: the levels of the frames go down, and in the current frame those of
the blocks. -/
theorem Good.sorted (h : Good pdl blk sh) : ∃ lvl ms sh', sh = (lvl, ms) :: sh' ∧ lvl ≤ pdl.length ∧
    (∀ p ∈ sh', p.1 < lvl) ∧ (ms.Pairwise fun a b => b.1 < a.1) ∧ ∀ m ∈ ms, 0 < m.1 ∧ m.1 ≤ blk := by
  induction pdl generalizing blk sh with
  | nil =>
    obtain ⟨ms, rfl, hd⟩ := h
    exact ⟨0, ms, [], rfl, Nat.le_refl _, fun p hp => absurd hp List.not_mem_nil, hd.pairwise, hd.bounds⟩
  | cons b pdl ih =>
    rcases h with ⟨ms, sh', rfl, hd, hg⟩ | ⟨lvl, new, old, sh', rfl, hd, hg⟩
    · obtain ⟨lvl, ms', sh'', rfl, hlvl, hlt, -, -⟩ := ih hg
      refine ⟨_, ms, _, rfl, Nat.le_refl _, fun p hp => ?_, hd.pairwise, fun m hm => ?_⟩
      · rcases List.mem_cons.mp hp with rfl | hp
        · exact Nat.lt_succ_of_le hlvl
        · exact (hlt p hp).trans_le (hlvl.trans (Nat.le_succ _))
      · exact ⟨Nat.zero_lt_of_lt (hd.bounds m hm).1, (hd.bounds m hm).2⟩
    · obtain ⟨lvl', old', sh'', heq, hlvl, hlt, hpw, hle⟩ := ih hg
      obtain ⟨⟨rfl, rfl⟩, rfl⟩ : (lvl = lvl' ∧ old = old') ∧ sh' = sh'' := by
        simpa using heq
      refine ⟨_, _, _, rfl, hlvl.trans (Nat.le_succ _), hlt, ?_, fun m hm => ?_⟩
      · refine List.pairwise_append.mpr ⟨hd.pairwise, hpw, fun a ha b hb => ?_⟩
        exact (hle b hb).2.trans_lt (hd.bounds a ha).1
      · rcases List.mem_append.mp hm with hm | hm
        · exact ⟨Nat.zero_lt_of_lt (hd.bounds m hm).1, (hd.bounds m hm).2⟩
        · exact ⟨(hle m hm).1, (hle m hm).2.trans hd.le⟩

/-- Without what the innermost file has opened, the levels are those of the file around it. -/
theorem Good.inner (h : Good pdl blk sh) : ∃ lvl new old sh', sh = (lvl, new ++ old) :: sh' ∧
    Descends blk (pdl.headD 0) new ∧ (∀ m ∈ old, m.1 ≤ pdl.headD 0) ∧
      ∀ k ms, Descends k (pdl.headD 0) ms → Good pdl k ((lvl, ms ++ old) :: sh') := by
  cases pdl with
  | nil =>
    obtain ⟨ms, rfl, hd⟩ := h
    refine ⟨0, ms, [], [], by rw [List.append_nil], hd, fun m hm => absurd hm List.not_mem_nil,
      fun k ms' hk => ⟨ms', ?_, hk⟩⟩
    rw [List.append_nil]
  | cons b pdl =>
    rcases h with ⟨ms, sh', rfl, hd, hg⟩ | ⟨lvl, new, old, sh', rfl, hd, hg⟩
    · refine ⟨_, ms, [], sh', by rw [List.append_nil], hd, fun m hm => absurd hm List.not_mem_nil,
        fun k ms' hk => .inl ⟨ms', sh', ?_, hk, hg⟩⟩
      rw [List.append_nil]
    · refine ⟨lvl, new, old, sh', rfl, hd, fun m hm => ?_,
        fun k ms' hk => .inr ⟨lvl, ms', old, sh', rfl, hk, hg⟩⟩
      obtain ⟨lvl', ms, sh'', heq, -, -, -, hle⟩ := hg.sorted
      obtain ⟨⟨rfl, rfl⟩, rfl⟩ : (lvl = lvl' ∧ old = ms) ∧ sh' = sh'' := by simpa using heq
      exact (hle m hm).2

/-! ### Searches -/

/-- The numbers of the block markers, the last one first. -/
def blks (l : List Entry) : List (ℕ × Start) :=
  (l.filterMap fun | .blk lvl st => some (lvl, st) | _ => none).reverse

theorem shape_enter (g : Name → Bool) : shape (s.enter g n v) = shape s := by
  unfold Stack.enter
  split
  · rfl
  · exact shape_create g

/-- Entries without a file marker open blocks in the current frame. -/
theorem shape_scopes (hf : Flat l) : shape (scopes G s l) =
    (s.cur.level, blks l ++ marks s.cur) :: s.outer.map fun F => (F.level, marks F) := by
  induction l generalizing s with
  | nil => rfl
  | cons x l ih =>
    rw [scopes_cons, ih hf.tail]
    cases x with
    | var m v =>
      have same : shape (enterEntry G s (.var m v)) = shape s := shape_enter _
      obtain ⟨hcur, houter⟩ := List.cons.inj same
      obtain ⟨hlvl, hmarks⟩ := Prod.mk.inj hcur
      rw [hlvl, hmarks, houter]
      rfl
    | blk lvl st => simp [enterEntry, Stack.push, Frame.push, blks, marks]
    | fil lvl => exact absurd (List.mem_cons_self ..) (hf lvl)
    | err label lvl => rfl

/-- The levels of the file markers are those of the frames. -/
theorem fil_mem_shape {lvl : ℕ} (h : .fil lvl ∈ l ∨ ∃ p ∈ shape s, p.1 = lvl) :
    ∃ p ∈ shape (scopes G s l), p.1 = lvl := by
  induction l generalizing s with
  | nil => exact h.resolve_left List.not_mem_nil
  | cons x l ih =>
    rw [scopes_cons]
    refine ih ?_
    rcases h with h | ⟨p, hp, hlvl⟩
    · rcases List.mem_cons.mp h with rfl | h
      · exact .inr ⟨_, List.mem_cons_self .., rfl⟩
      · exact .inl h
    · right
      cases x with
      | var m v => exact ⟨p, (shape_enter (s := s) (n := m) (v := v) (isgbl G)).symm ▸ hp, hlvl⟩
      | blk k st =>
        rcases List.mem_cons.mp hp with rfl | hp
        · exact ⟨_, List.mem_cons_self .., hlvl⟩
        · exact ⟨p, List.mem_cons_of_mem _ hp, hlvl⟩
      | fil k => exact ⟨p, List.mem_cons_of_mem _ hp, hlvl⟩
      | err label k => exact ⟨p, hp, hlvl⟩

/-- The table before and behind the last file marker, or all of it. -/
theorem cut_last (l : List Entry) :
    Flat l ∨ ∃ l₀ lvl l₂, l = l₀ ++ .fil lvl :: l₂ ∧ Flat l₂ := by
  induction l with
  | nil => exact .inl fun lvl hm => List.not_mem_nil hm
  | cons x l ih =>
    rcases ih with hf | ⟨l₀, lvl, l₂, rfl, hf⟩
    · by_cases hx : ∃ lvl, x = .fil lvl
      · obtain ⟨lvl, rfl⟩ := hx
        exact .inr ⟨[], lvl, l, rfl, hf⟩
      · refine .inl fun lvl hm => ?_
        rcases List.mem_cons.mp hm with heq | hm
        · exact hx ⟨lvl, heq.symm⟩
        · exact hf lvl hm
    · exact .inr ⟨x :: l₀, lvl, l₂, rfl, hf⟩

theorem ffm1_flat {e hl bc : ℕ} (hf : Flat l) : ffm1 e l hl bc = (none, bc) := by
  induction l generalizing hl with
  | nil => rfl
  | cons x l ih =>
    cases x with
    | fil lvl => exact absurd (List.mem_cons_self ..) (hf lvl)
    | var m v => exact ih hf.tail
    | blk lvl st => exact ih hf.tail
    | err label lvl => exact ih hf.tail

/-- Markers of lower levels are passed. -/
theorem ffm1_append {e p q : ℕ} (h : ∀ lvl, .fil lvl ∈ l → lvl < e) :
    ∃ q', ∀ l', ffm1 e (l ++ l') p q = ffm1 e l' (p + l.length) q' := by
  induction l generalizing p q with
  | nil => exact ⟨q, fun _ => rfl⟩
  | cons x l ih =>
    have hrest : ∀ lvl, .fil lvl ∈ l → lvl < e := fun lvl hm => h lvl (List.mem_cons_of_mem _ hm)
    have hlen : p + (x :: l).length = p + 1 + l.length := by rw [List.length_cons]; omega
    rw [hlen]
    cases x with
    | fil lvl =>
      have hlt := h lvl (List.mem_cons_self ..)
      obtain ⟨q', hq⟩ := ih (p := p + 1) (q := p) hrest
      refine ⟨q', fun l' => ?_⟩
      rw [List.cons_append, ffm1, if_neg hlt.ne, if_neg (by omega), hq]
    | var m v => exact ih hrest
    | blk lvl st => exact ih hrest
    | err label lvl => exact ih hrest

/-- `fbk1` finds the first block with the level. -/
theorem fbk1_spec (e : ℕ) (l : List Entry) (hl : ℕ) :
    (fbk1 e l hl = none ∧ ∀ st, (e, st) ∉ blks l) ∨
      ∃ a st c, l = a ++ .blk e st :: c ∧ fbk1 e l hl = some (hl + a.length) := by
  induction l generalizing hl with
  | nil => exact .inl ⟨rfl, fun st hm => List.not_mem_nil hm⟩
  | cons x l ih =>
    have skip (hf : ∀ hl, fbk1 e (x :: l) hl = fbk1 e l (hl + 1))
        (hx : ∀ st, (e, st) ∈ blks (x :: l) → (e, st) ∈ blks l) :
        (fbk1 e (x :: l) hl = none ∧ ∀ st, (e, st) ∉ blks (x :: l)) ∨
          ∃ a st c, x :: l = a ++ .blk e st :: c ∧
            fbk1 e (x :: l) hl = some (hl + a.length) := by
      rw [hf]
      refine (ih (hl + 1)).imp (fun h => ⟨h.1, fun st hm => h.2 st (hx st hm)⟩) ?_
      rintro ⟨a, st, c, rfl, hi⟩
      exact ⟨x :: a, st, c, rfl, by rw [hi, List.length_cons]; congr 1; omega⟩
    cases x with
    | blk lvl st =>
      by_cases hm : lvl = e
      · subst hm
        exact .inr ⟨[], st, l, rfl, by simp [fbk1]⟩
      · refine skip (fun _ => by rw [fbk1, if_neg hm]) fun st' h => ?_
        simpa [blks, Ne.symm hm] using h
    | var m v => exact skip (fun _ => rfl) fun st h => h
    | fil lvl => exact skip (fun _ => rfl) fun st h => h
    | err label lvl => exact skip (fun _ => rfl) fun st h => h

/-- `FNDFIL` finds the frame of the current file. Without one it finds the last frame there is. -/
theorem FNDFIL_spec (h : Good pdl blk (shape (scopes G bottom l))) :
    (Flat l ∧ FNDFIL pdl.length l = (none, 0)) ∨
      ∃ l₀ l₂, ∃ lvl ≤ pdl.length, l = l₀ ++ .fil lvl :: l₂ ∧ Flat l₂ ∧
        (scopes G bottom l).cur.level = lvl ∧
        FNDFIL pdl.length l = if lvl = pdl.length then (some (l₀.length + 1), l₀.length + 1)
          else (none, l₀.length) := by
  rcases cut_last l with hf | ⟨l₀, lvl, l₂, rfl, hf⟩
  · exact .inl ⟨hf, ffm1_flat hf⟩
  right
  have hshape : shape (scopes G bottom (l₀ ++ .fil lvl :: l₂)) =
      (lvl, blks l₂ ++ []) :: shape (scopes G bottom l₀) := by
    rw [scopes_append, scopes_cons, shape_scopes hf]
    rfl
  obtain ⟨lvl', ms, sh', heq, hle, hlt, -, -⟩ := h.sorted
  rw [hshape] at heq
  obtain ⟨hhead, rfl⟩ := List.cons.inj heq
  obtain ⟨rfl, -⟩ := Prod.mk.inj hhead
  refine ⟨l₀, l₂, lvl, hle, rfl, hf, (Prod.mk.inj (List.cons.inj hshape).1).1, ?_⟩
  have hlow : ∀ k, .fil k ∈ l₀ → k < pdl.length := by
    intro k hk
    obtain ⟨p, hp, rfl⟩ := fil_mem_shape (G := G) (s := bottom) (.inl hk)
    exact (hlt p hp).trans_le hle
  obtain ⟨bc, hbc⟩ := ffm1_append (p := 0) (q := 0) hlow
  rw [FNDFIL, hbc (.fil lvl :: l₂), ffm1, Nat.zero_add]
  split
  · rfl
  · rw [if_neg (by omega), ffm1_flat hf]

/-- The table before and behind the start of the current frame, where the searches begin. -/
structure Cut (G : Bool) (s : Icp) (l₁ l₂ : List Entry) : Prop where
  vars : s.vars = l₁ ++ l₂
  flat : Flat l₂
  fresh : (scopes G bottom l₁).cur.find = fun _ => none
  blocks : (scopes G bottom l₁).cur.blocks = []
  fv1 : ∀ n, fv1 n (s.vars.drop s.frame) s.frame = Vars.fv1 n l₂ l₁.length
  fbk1 : ∀ e, fbk1 e (s.vars.drop s.frame) s.frame = Vars.fbk1 e l₂ l₁.length

/-- The model of a table. -/
def Icp.model (G : Bool) (s : Icp) : Model :=
  ⟨scopes G bottom s.vars, s.INDLVL, s.BLKLVL, s.INDPDL⟩

/-- The levels are those of the scopes. -/
structure Model.Leveled (m : Model) : Prop where
  depth : m.INDLVL = m.INDPDL.length + 1
  most : m.INDLVL ≤ MAXIND
  top : m.BLKLVL ≤ 255
  good : Good m.INDPDL m.BLKLVL (shape m.scopes)

/-- The levels are those of the table. -/
abbrev Leveled (G : Bool) (s : Icp) : Prop := (s.model G).Leveled

variable {i : Icp}

theorem Leveled.inFile (h : Leveled G i) : i.INDLVL = i.INDPDL.length + 1 := h.depth

theorem Leveled.nested (h : Leveled G i) :
    Good i.INDPDL i.BLKLVL (shape (scopes G bottom i.vars)) := h.good

theorem Leveled.file (h : Leveled G i) : i.file = i.INDPDL.length := by
  have depth := h.inFile
  have most : i.INDLVL ≤ 3 := h.most
  unfold Icp.file
  omega

theorem Leveled.cut (h : Leveled G i) : ∃ l₁ l₂, Cut G i l₁ l₂ := by
  have hframe : i.frame = (FNDFIL i.INDPDL.length i.vars).2 := by rw [Icp.frame, h.file]
  rcases FNDFIL_spec h.nested with ⟨hf, hfnd⟩ | ⟨l₀, l₂, lvl, -, hvars, hf, -, hfnd⟩
  · rw [hfnd] at hframe
    refine ⟨[], i.vars, rfl, hf, rfl, rfl, fun n => ?_, fun e => ?_⟩ <;> rw [hframe] <;> rfl
  · have hlen : (l₀ ++ [Entry.fil lvl]).length = l₀.length + 1 := by simp
    have hcut : i.vars = (l₀ ++ [.fil lvl]) ++ l₂ := by rw [hvars]; simp
    -- the search begins behind the marker, or at it and passes it
    have start : i.frame = l₀.length + 1 ∨ i.frame = l₀.length := by
      rw [hfnd] at hframe
      split at hframe
      · exact .inl hframe
      · exact .inr hframe
    refine ⟨l₀ ++ [.fil lvl], l₂, hcut, hf, ?_, ?_, fun n => ?_, fun e => ?_⟩
    · rw [scopes_append]
      rfl
    · rw [scopes_append]
      rfl
    · rcases start with hs | hs
      · rw [hs, hcut, ← hlen, List.drop_left]
      · rw [hs, hvars, List.drop_left, hlen]
        rfl
    · rcases start with hs | hs
      · rw [hs, hcut, ← hlen, List.drop_left]
      · rw [hs, hvars, List.drop_left, hlen]
        rfl

/-- `FNDVAR` finds the variable its name denotes, or there is none. -/
theorem Leveled.FNDVAR (h : Leveled G i) (n : Name) :
    (i.FNDVAR G n = none ∧ (scopes G bottom i.vars).find (isgbl G) n = none) ∨
      ∃ a v c, i.vars = a ++ .var n v :: c ∧ i.FNDVAR G n = some a.length ∧
        (isgbl G n = true ∨ Flat c) ∧ (scopes G bottom a).find (isgbl G) n = none ∧
        (scopes G bottom i.vars).find (isgbl G) n = some v := by
  by_cases hn : isgbl G n
  · have none_before : (bottom.find (isgbl G) n) = none := by rw [Stack.find, if_pos hn]; rfl
    rw [Icp.FNDVAR, if_pos hn, find_scopes (.inl hn), none_before, Option.none_or]
    rcases fv1_spec n i.vars 0 with hnone | ⟨a, v, c, hvars, hfv, ha, hv⟩
    · exact .inl hnone
    · refine .inr ⟨a, v, c, hvars, by rw [hfv, Nat.zero_add], .inl hn, ?_, hv⟩
      rw [find_scopes (.inl hn), none_before, ha]
      rfl
  · obtain ⟨l₁, l₂, hc⟩ := h.cut
    have none_before : (scopes G bottom l₁).find (isgbl G) n = none := by
      rw [Stack.find, if_neg hn, hc.fresh]
    have hfind : (scopes G bottom i.vars).find (isgbl G) n = firstVal n l₂ := by
      rw [hc.vars, scopes_append, find_scopes (.inr hc.flat), none_before, Option.none_or]
    rw [Icp.FNDVAR, if_neg hn, hc.fv1, hfind]
    rcases fv1_spec n l₂ l₁.length with hnone | ⟨a, v, c, rfl, hfv, ha, hv⟩
    · exact .inl hnone
    · obtain ⟨hf₁, hf₂⟩ := flat_append.mp hc.flat
      refine .inr ⟨l₁ ++ a, v, c, by rw [hc.vars, List.append_assoc],
        by rw [hfv, List.length_append], .inr hf₂.tail, ?_, hv⟩
      rw [scopes_append, find_scopes (.inr hf₁), none_before, ha]
      rfl

/-- What a name denotes is the value that `GETVAR` fetches. -/
theorem Leveled.GETVAR (h : Leveled G i) (n : Name) :
    i.GETVAR G n = (scopes G bottom i.vars).find (isgbl G) n := by
  rcases h.FNDVAR n with ⟨hfv, hfind⟩ | ⟨a, v, c, hvars, hfv, -, -, hfind⟩
  · rw [Icp.GETVAR, hfv, hfind]
  · rw [Icp.GETVAR, hfv, hfind]
    simp [hvars]

/-- `FNDBLK` finds the block with the level in the current frame, or there is none. -/
theorem Leveled.FNDBLK (h : Leveled G i) (e : ℕ) :
    (i.FNDBLK e = none ∧ ∀ b ∈ (scopes G bottom i.vars).cur.blocks, b.level ≠ e) ∨
      ∃ a st c, i.vars = a ++ .blk e st :: c ∧ i.FNDBLK e = some a.length ∧ Flat c ∧
        (∀ b ∈ (scopes G bottom a).cur.blocks, b.level < e) ∧
        (∀ lvl st', .blk lvl st' ∈ c → e < lvl) := by
  obtain ⟨l₁, l₂, hc⟩ := h.cut
  have hshape : marks (scopes G bottom i.vars).cur = blks l₂ := by
    have := (Prod.mk.inj (List.cons.inj (shape_scopes (G := G) (s := scopes G bottom l₁) hc.flat)).1).2
    rw [hc.vars, scopes_append, this, marks, hc.blocks, List.map_nil, List.append_nil]
  rw [Icp.FNDBLK, hc.fbk1]
  rcases fbk1_spec e l₂ l₁.length with ⟨hfb, hnone⟩ | ⟨a, st, c, rfl, hfb⟩
  · refine .inl ⟨hfb, fun b hb hlvl => hnone b.data ?_⟩
    rw [← hshape, ← hlvl]
    exact List.mem_map_of_mem hb
  · obtain ⟨hf₁, hf₂⟩ := flat_append.mp hc.flat
    obtain ⟨lvl, ms, sh', heq, -, -, hpw, -⟩ := h.nested.sorted
    have hms : blks (a ++ .blk e st :: c) = blks c ++ (e, st) :: blks a := by simp [blks]
    have hpw : (blks c ++ (e, st) :: blks a).Pairwise fun a b => b.1 < a.1 := by
      rw [← hms, ← hshape]
      exact (Prod.mk.inj (List.cons.inj heq).1).2 ▸ hpw
    obtain ⟨-, hpa, hpc⟩ := List.pairwise_append.mp hpw
    refine .inr ⟨l₁ ++ a, st, c, by rw [hc.vars, List.append_assoc], by rw [hfb, List.length_append],
      hf₂.tail, fun b hb => ?_, fun lvl st' hm => ?_⟩
    · have hmem : (b.level, b.data) ∈ marks (scopes G bottom (l₁ ++ a)).cur :=
        List.mem_map_of_mem hb
      have := (Prod.mk.inj (List.cons.inj (shape_scopes (G := G) (s := scopes G bottom l₁) hf₁)).1).2
      rw [scopes_append, this, marks, hc.blocks, List.map_nil, List.append_nil] at hmem
      exact (List.pairwise_cons.mp hpa).1 _ hmem
    · refine hpc (lvl, st') ?_ (e, st) (List.mem_cons_self ..)
      exact List.mem_reverse.mpr (List.mem_filterMap.mpr ⟨_, hm, rfl⟩)

theorem block_data (F : Frame Name Val Start) (e : ℕ) :
    (F.block e).map Block.data = ((marks F).find? fun m => m.1 = e).map Prod.snd := by
  rw [Frame.block, marks, List.find?_map, Option.map_map]
  rfl

/-- `.GOTO` finds the start of the block with the level. -/
theorem Leveled.GETBLK (h : Leveled G i) (e : ℕ) :
    i.GETBLK e = ((scopes G bottom i.vars).cur.block e).map Block.data := by
  rcases h.FNDBLK e with ⟨hfb, hnone⟩ | ⟨a, st, c, hvars, hfb, hf, -, hc⟩
  · have : (scopes G bottom i.vars).cur.block e = none :=
      List.find?_eq_none.mpr fun b hb => by simpa using hnone b hb
    rw [Icp.GETBLK, hfb, this]
    rfl
  · have hmarks : marks (scopes G bottom i.vars).cur =
        blks c ++ (e, st) :: marks (scopes G bottom a).cur := by
      rw [hvars, scopes_append, scopes_cons]
      exact (Prod.mk.inj (List.cons.inj (shape_scopes hf)).1).2
    have hpass : (blks c).find? (fun m => decide (m.1 = e)) = none := by
      refine List.find?_eq_none.mpr fun m hm => ?_
      obtain ⟨x, hx, hxm⟩ := List.mem_filterMap.mp (List.mem_reverse.mp hm)
      cases x with
      | blk lvl st' =>
        obtain rfl := Option.some.inj hxm
        simpa using (hc lvl st' hx).ne'
      | var m v => cases hxm
      | fil lvl => cases hxm
      | err label lvl => cases hxm
    rw [Icp.GETBLK, hfb, block_data, hmarks, List.find?_append, hpass]
    simp [hvars]

/-! ### Commands -/

theorem mem_marks {F : Frame Name Val Start} {m : ℕ × Start} :
    m ∈ marks F ↔ ∃ b ∈ F.blocks, (b.level, b.data) = m := List.mem_map

/-- Without a block of the level `POPBLK` does nothing. -/
theorem Leveled.POPBLK_none (h : Leveled G i) {e : ℕ}
    (hnone : ∀ m ∈ marks (scopes G bottom i.vars).cur, m.1 ≠ e) : i.POPBLK G e = i := by
  rcases h.FNDBLK e with ⟨hfb, -⟩ | ⟨a, st, c, hvars, -, hf, -, -⟩
  · rw [Icp.POPBLK, hfb]
  · refine absurd rfl (hnone (e, st) ?_)
    rw [hvars, scopes_append, scopes_cons, (Prod.mk.inj (List.cons.inj (shape_scopes hf)).1).2]
    exact List.mem_append_right _ (List.mem_cons_self ..)

/-- `POPBLK` closes the blocks from the level on. -/
theorem Leveled.POPBLK (h : Leveled G i) {e : ℕ}
    (hsome : ∃ m ∈ marks (scopes G bottom i.vars).cur, m.1 = e) :
    (i.POPBLK G e).model G =
      { i.model G with scopes := (scopes G bottom i.vars).pop e } := by
  rcases h.FNDBLK e with ⟨hfb, hnone⟩ | ⟨a, st, c, hvars, hfb, hf, ha, hc⟩
  · obtain ⟨m, hm, rfl⟩ := hsome
    obtain ⟨b, hb, rfl⟩ := mem_marks.mp hm
    exact absurd rfl (hnone b hb)
  · rw [Icp.POPBLK, hfb]
    have hpop : scopes G bottom (i.vars.take a.length ++
        (i.vars.drop a.length).filter fun x => !Icp.cmpla G x) =
          (scopes G bottom i.vars).pop e := by
      rw [hvars, List.take_left, List.drop_left, scopes_append, scopes_append,
        pop_scopes ha hf fun lvl st' hm => (hc lvl st' hm).le]
      rfl
    exact congrArg (Model.mk · i.INDLVL i.BLKLVL i.INDPDL) hpop

/-- `POPFIL` closes the frame of the current file. -/
theorem Leveled.POPFIL (h : Leveled G i) :
    scopes G bottom (i.POPFIL G i.file).vars =
      (scopes G bottom i.vars).closeFrame (i.INDLVL - 1) := by
  have hlen : i.INDLVL - 1 = i.INDPDL.length := by rw [h.inFile, Nat.add_sub_cancel]
  rw [hlen, Icp.POPFIL, h.file]
  rcases FNDFIL_spec h.nested with ⟨hf, hfnd⟩ | ⟨l₀, l₂, lvl, -, hvars, hf, hlvl, hfnd⟩
  · rw [hfnd]
    have houter : (scopes G bottom i.vars).outer = [] := by
      have := (List.cons.inj (shape_scopes (G := G) (s := bottom) hf)).2
      exact List.map_eq_nil_iff.mp this
    rw [Stack.closeFrame, houter]
  · rw [hfnd]
    by_cases heq : lvl = i.INDPDL.length
    · rw [if_pos heq]
      change scopes G bottom (i.vars.take (l₀.length + 1 - 1) ++ _) = _
      rw [Nat.add_sub_cancel, hvars, List.take_left, List.drop_left, scopes_append, scopes_append,
        ← heq, closeFrame_scopes hf]
      rfl
    · rw [if_neg heq]
      change scopes G bottom i.vars = _
      unfold Stack.closeFrame
      split
      · rfl
      · rw [if_neg fun h => heq (hlvl.symm.trans h)]

/-- An assignment in the table is one in the scopes. -/
theorem Leveled.SETV (h : Leveled G i) (n : Name) (v : Val) (mem : Bool) :
    (i.SETV G n v mem).1.model G = ((i.model G).set G n v mem).1 ∧
      (i.SETV G n v mem).2 = ((i.model G).set G n v mem).2 := by
  rcases h.FNDVAR n with ⟨hfv, hfind⟩ | ⟨a, w, c, hvars, hfv, hc, ha, hfind⟩
  · rw [Icp.SETV, hfv, Model.set, show (i.model G).scopes.find _ n = none from hfind]
    cases mem with
    | false => exact ⟨rfl, rfl⟩
    | true =>
      have happ : scopes G bottom (i.vars ++ [.var n v]) =
          (scopes G bottom i.vars).create (isgbl G) n v := by
        rw [scopes_append, scopes_cons, scopes_nil, enterEntry, Stack.enter, hfind]
        rfl
      exact ⟨congrArg (Model.mk · i.INDLVL i.BLKLVL i.INDPDL) happ, rfl⟩
  · have hget : i.vars[a.length]? = some (.var n w) := by simp [hvars]
    rw [Icp.SETV, hfv, Model.set, show (i.model G).scopes.find _ n = some w from hfind]
    simp only [hget]
    by_cases ht : w.type = v.type
    · rw [if_pos ht, if_pos ht]
      have hcreate : ∀ x, scopes G bottom (a ++ .var n x :: c) =
          scopes G ((scopes G bottom a).create (isgbl G) n x) c := fun x => by
        rw [scopes_append, scopes_cons, enterEntry, Stack.enter, ha]
        rfl
      have hseen : ((scopes G bottom a).create (isgbl G) n w).find (isgbl G) n ≠ none := by
        rw [Stack.find_create ha, if_pos rfl]
        exact Option.some_ne_none w
      have hset : scopes G bottom (i.vars.set a.length (.var n v)) =
          (scopes G bottom i.vars).assign (isgbl G) n v := by
        rw [hvars, List.set_append_right _ _ (Nat.le_refl _), Nat.sub_self, List.set_cons_zero,
          hcreate, hcreate, assign_scopes hc hseen, Stack.assign_create_self ha]
      exact ⟨congrArg (Model.mk · i.INDLVL i.BLKLVL i.INDPDL) hset, rfl⟩
    · rw [if_neg ht, if_neg ht]
      exact ⟨rfl, rfl⟩

/-! ### Runs -/

/-- The commands are nested, as `Icp.Nested` says it. -/
def Model.Nested (m : Model) : Op → Prop
  | .begin _ mem => mem = true ∨ (m.BLKLVL + 1) % 256 = 0
  | .bend => m.INDPDL.headD 0 < m.BLKLVL
  | .close => 2 ≤ m.INDLVL
  | _ => True

variable {m : Model}

theorem marks_pop (F : Frame Name Val Start) (e : ℕ) :
    marks (F.pop e) = (marks F).dropWhile fun m => e ≤ m.1 := by
  rw [marks, marks, List.dropWhile_map]
  rfl

/-- Closing the blocks above `k` ends the descent there. -/
theorem Descends.drop {k : ℕ} (h : Descends hi lo ms) (hk : lo ≤ k) (hle : k ≤ hi)
    {old : List (ℕ × Start)} (hold : ∀ m ∈ old, m.1 ≤ lo) :
    ∃ new, (ms ++ old).dropWhile (fun m => k + 1 ≤ m.1) = new ++ old ∧ Descends k lo new := by
  induction ms generalizing hi with
  | nil =>
    obtain rfl : hi = lo := h
    obtain rfl : k = hi := Nat.le_antisymm hle hk
    refine ⟨[], ?_, rfl⟩
    cases old with
    | nil => rfl
    | cons m old =>
      have := hold m (List.mem_cons_self ..)
      exact List.dropWhile_cons_of_neg (by simpa using Nat.lt_succ_of_le this)
  | cons b bs ih =>
    obtain ⟨hb, hlt, hbs⟩ := h
    by_cases heq : k = hi
    · refine ⟨b :: bs, ?_, heq ▸ ⟨hb, hlt, hbs⟩⟩
      exact List.dropWhile_cons_of_neg (by simp [hb, heq])
    · obtain ⟨new, hdrop, hnew⟩ := ih hbs (by omega)
      refine ⟨new, ?_, hnew⟩
      rw [List.cons_append, List.dropWhile_cons_of_pos (by simp [hb]; omega), hdrop]

theorem Descends.append {mid : ℕ} {ms' : List (ℕ × Start)} (h : Descends hi mid ms)
    (h' : Descends mid lo ms') : Descends hi lo (ms ++ ms') := by
  induction ms generalizing hi with
  | nil =>
    obtain rfl : hi = mid := h
    exact h'
  | cons b bs ih => exact ⟨h.1, h'.le.trans_lt h.2.1, ih h.2.2⟩

theorem shape_pop (e : ℕ) {lvl : ℕ} (h : shape s = (lvl, ms) :: sh) :
    shape (s.pop e) = (lvl, ms.dropWhile fun m => e ≤ m.1) :: sh := by
  obtain ⟨hcur, houter⟩ := List.cons.inj h
  obtain ⟨hlvl, hms⟩ := Prod.mk.inj hcur
  rw [← hlvl, ← hms, ← houter, ← marks_pop]
  rfl

/-- Where the blocks are below the level, closing does nothing. -/
theorem pop_of_lt {e : ℕ} (h : ∀ m ∈ marks s.cur, m.1 < e) : s.pop e = s := by
  have hdrop : s.cur.blocks.dropWhile (fun b => e ≤ b.level) = s.cur.blocks := by
    cases hb : s.cur.blocks with
    | nil => rfl
    | cons b bs =>
      have := h (b.level, b.data) (mem_marks.mpr ⟨b, hb ▸ List.mem_cons_self .., rfl⟩)
      exact List.dropWhile_cons_of_neg (by simpa using this)
  simp only [Stack.pop, Frame.pop, hdrop]

theorem Model.Leveled.of_shape {m' : Model} (h : m.Leveled) (hs : shape m'.scopes = shape m.scopes)
    (h₁ : m'.INDLVL = m.INDLVL) (h₂ : m'.BLKLVL = m.BLKLVL) (h₃ : m'.INDPDL = m.INDPDL) :
    m'.Leveled := by
  refine ⟨by rw [h₁, h₃, h.depth], h₁ ▸ h.most, h₂ ▸ h.top, ?_⟩
  rw [h₂, h₃, hs]
  exact h.good

theorem shape_closeFrame {lvl : ℕ} (h : shape s = (lvl, ms) :: sh) (hne : sh ≠ []) :
    shape (s.closeFrame lvl) = sh := by
  obtain ⟨hcur, houter⟩ := List.cons.inj h
  unfold Stack.closeFrame
  split
  · rename_i hnil
    rw [hnil] at houter
    exact absurd houter.symm hne
  · rename_i f fs hcons
    rw [if_pos (Prod.mk.inj hcur).1, ← houter, hcons]
    rfl

theorem closeFrame_of_ne {lvl : ℕ} (h : s.cur.level ≠ lvl) : s.closeFrame lvl = s := by
  unfold Stack.closeFrame
  split
  · rfl
  · exact if_neg h

/-- The file around the current one. Its levels are those of its scopes, and the blocks above its own
are the ones opened in the file that ends. -/
theorem Model.Leveled.around (h : m.Leveled) (hfile : 2 ≤ m.INDLVL) :
    ∃ k, m.INDPDL.headD 0 ≤ k ∧ k ≤ 255 ∧
      (⟨m.scopes.closeFrame (m.INDLVL - 1), m.INDLVL - 1, k, m.INDPDL.tail⟩ : Model).Leveled ∧
      ((∃ b ∈ marks (m.scopes.closeFrame (m.INDLVL - 1)).cur, b.1 = m.INDPDL.headD 0 + 1) ∨
        ∀ b ∈ marks (m.scopes.closeFrame (m.INDLVL - 1)).cur, b.1 < m.INDPDL.headD 0 + 1) ∧
      m.close.Leveled := by
  obtain ⟨sc, lvl, blk, pdl⟩ := m
  obtain ⟨depth, most, top, good⟩ := h
  cases pdl with
  | nil =>
    have one : lvl = 1 := depth
    exact absurd (one ▸ hfile : 2 ≤ 1) (by decide)
  | cons b pdl =>
    dsimp only at depth most top good
    have hlen : lvl - 1 = pdl.length + 1 := by rw [depth]; rfl
    change ∃ k, b ≤ k ∧ k ≤ 255 ∧
      (⟨sc.closeFrame (lvl - 1), lvl - 1, k, pdl⟩ : Model).Leveled ∧
      ((∃ m ∈ marks (sc.closeFrame (lvl - 1)).cur, m.1 = b + 1) ∨
        ∀ m ∈ marks (sc.closeFrame (lvl - 1)).cur, m.1 < b + 1) ∧
      (⟨(sc.closeFrame (lvl - 1)).pop (b + 1), lvl - 1, b, pdl⟩ : Model).Leveled
    have most' : lvl - 1 ≤ MAXIND := (Nat.sub_le ..).trans most
    rw [hlen] at most' ⊢
    rcases good with ⟨ms, sh', hsh, hd, hg⟩ | ⟨flvl, new, old, sh', hsh, hd, hg⟩
    · -- the file has a frame, and it goes
      obtain ⟨lvl', ms', sh'', rfl, -, -, -, hle⟩ := hg.sorted
      have hclose := shape_closeFrame hsh (List.cons_ne_nil _ _)
      have hlow : ∀ m ∈ marks (sc.closeFrame (pdl.length + 1)).cur, m.1 < b + 1 := by
        intro m hm
        rw [(Prod.mk.inj (List.cons.inj hclose).1).2] at hm
        exact Nat.lt_succ_of_le (hle m hm).2
      refine ⟨b, Nat.le_refl _, hd.le.trans top, ⟨rfl, most', hd.le.trans top, ?_⟩, .inr hlow, ?_⟩
      · exact hclose ▸ hg
      · rw [pop_of_lt hlow]
        exact ⟨rfl, most', hd.le.trans top, hclose ▸ hg⟩
    · -- the blocks of the file are in the frame of the one around it
      obtain ⟨lvl', ms, sh'', heq, hle, -, -, hbound⟩ := hg.sorted
      obtain ⟨⟨rfl, rfl⟩, rfl⟩ : (flvl = lvl' ∧ old = ms) ∧ sh' = sh'' := by simpa using heq
      obtain ⟨hlvl, hms⟩ := Prod.mk.inj (List.cons.inj hsh).1
      rw [closeFrame_of_ne (by omega), hms]
      refine ⟨blk, hd.le, top, ⟨rfl, most', top, ?_⟩, ?_, rfl, most', hd.le.trans top, ?_⟩
      · obtain ⟨_, new', old', _, heq', hd', -, hg'⟩ := hg.inner
        obtain ⟨⟨rfl, rfl⟩, rfl⟩ : (flvl = _ ∧ old = _) ∧ sh' = _ := by simpa using heq'
        rw [hsh, ← List.append_assoc]
        exact hg' blk _ (hd.append hd')
      · rcases Nat.eq_or_lt_of_le hd.le with heq | hlt
        · refine .inr fun m hm => ?_
          rcases List.mem_append.mp hm with hm | hm
          · have := hd.bounds m hm
            omega
          · exact Nat.lt_succ_of_le (hbound m hm).2
        · obtain ⟨st, hst⟩ := hd.last hlt
          exact .inl ⟨_, List.mem_append_left _ hst, rfl⟩
      · rw [shape_pop _ hsh]
        obtain ⟨new', hdrop, hnil⟩ := hd.drop (Nat.le_refl b) hd.le fun m hm => (hbound m hm).2
        have hnew : new' = [] := by
          cases new' with
          | nil => rfl
          | cons m ms => exact absurd hnil.2.1 (Nat.lt_irrefl _)
        rw [hdrop, hnew]
        exact hg

/-- A nested command leaves the levels as they should be. -/
theorem Model.Leveled.step (h : m.Leveled) {op : Op} (hn : m.Nested op) :
    (m.step G op).1.Leveled := by
  cases op with
  | «open» loc mem =>
    change (m.opened loc mem).1.Leveled
    unfold Model.opened
    by_cases hmax : MAXIND ≤ m.INDLVL
    · rw [if_pos hmax]
      exact h
    rw [if_neg hmax]
    have depth : m.INDLVL + 1 = (m.BLKLVL :: m.INDPDL).length + 1 := by rw [h.depth]; rfl
    have most : m.INDLVL + 1 ≤ MAXIND := by omega
    have shared : Good (m.BLKLVL :: m.INDPDL) m.BLKLVL (shape m.scopes) := by
      obtain ⟨lvl, ms, sh', heq, -⟩ := h.good.sorted
      exact .inr ⟨lvl, [], ms, sh', heq, rfl, heq ▸ h.good⟩
    cases loc with
    | true => exact ⟨depth, most, h.top, shared⟩
    | false =>
      cases mem with
      | false => exact ⟨depth, most, h.top, shared⟩
      | true =>
        refine ⟨depth, most, h.top, .inl ⟨[], shape m.scopes, ?_, rfl, h.good⟩⟩
        rw [← h.depth]
        rfl
  | close => exact (h.around hn).choose_spec.2.2.2.2
  | begin pos mem =>
    change (m.begin pos).1.Leveled
    unfold Model.begin
    by_cases htop : m.BLKLVL = 255
    · rw [if_pos htop]
      exact h
    rw [if_neg htop]
    have top := h.top
    refine ⟨h.depth, h.most, by change m.BLKLVL + 1 ≤ 255; omega, ?_⟩
    obtain ⟨lvl, new, old, sh', heq, hd, -, hgood⟩ := h.good.inner
    have hshape : shape (m.scopes.push (m.BLKLVL + 1) ⟨pos, m.INDLVL⟩) =
        (lvl, (m.BLKLVL + 1, ⟨pos, m.INDLVL⟩) :: new ++ old) :: sh' := by
      obtain ⟨hcur, rfl⟩ := List.cons.inj heq
      obtain ⟨rfl, hms⟩ := Prod.mk.inj hcur
      rw [List.cons_append, ← hms]
      rfl
    rw [hshape]
    exact hgood _ _ ⟨rfl, Nat.lt_succ_of_le hd.le, hd⟩
  | bend =>
    have hlt : m.INDPDL.headD 0 < m.BLKLVL := hn
    refine ⟨h.depth, h.most, (Nat.sub_le ..).trans h.top, ?_⟩
    obtain ⟨lvl, new, old, sh', heq, hd, hold, hgood⟩ := h.good.inner
    obtain ⟨new', hdrop, hnew⟩ := hd.drop (k := m.BLKLVL - 1) (by omega) (Nat.sub_le ..) hold
    rw [Nat.sub_add_cancel (Nat.zero_lt_of_lt hlt)] at hdrop
    change Good m.INDPDL (m.BLKLVL - 1) (shape (m.scopes.pop m.BLKLVL))
    rw [shape_pop _ heq, hdrop]
    exact hgood _ _ hnew
  | onerr label mem => exact h
  | set n v mem =>
    change (m.set G n v mem).1.Leveled
    unfold Model.set
    split
    · split
      · exact h.of_shape (shape_create _) rfl rfl rfl
      · exact h
    · split
      · exact h.of_shape (shape_assign _) rfl rfl rfl
      · exact h
  | get n => exact h
  | goto => exact h

theorem Leveled.base (h : Leveled G i) : i.BASEBL = (i.model G).INDPDL.headD 0 := by
  have depth := h.inFile
  unfold Icp.BASEBL
  split
  · have : i.INDPDL = [] := List.length_eq_zero_iff.mp (by omega)
    exact (congrArg (List.headD · 0) this).symm
  · rfl

/-- The block to be closed is there. -/
theorem Leveled.block_mem (h : Leveled G i) (hn : i.BASEBL < i.BLKLVL) :
    ∃ m ∈ marks (scopes G bottom i.vars).cur, m.1 = i.BLKLVL := by
  obtain ⟨lvl, new, old, sh', heq, hd, -, -⟩ := h.nested.inner
  rw [(Prod.mk.inj (List.cons.inj heq).1).2]
  cases new with
  | nil => exact absurd (h.base.trans (Eq.symm hd)) hn.ne
  | cons b bs => exact ⟨b, List.mem_cons_self .., hd.1⟩

theorem Leveled.begins (h : Leveled G i) {op : Op} (hn : i.Nested op) :
    (i.model G).Nested op := by
  cases op with
  | bend =>
    change (i.model G).INDPDL.headD 0 < i.BLKLVL
    rw [← h.base]
    exact hn
  | begin pos mem => exact hn
  | close => exact hn
  | «open» loc mem => trivial
  | onerr label mem => trivial
  | set n v mem => trivial
  | get n => trivial
  | goto => trivial

/-- `POPBLK` asks for the table and the level of the file. -/
theorem POPBLK_congr (j : Icp) (e b : ℕ) (p : List ℕ) :
    ({ j with BLKLVL := b, INDPDL := p } : Icp).POPBLK G e =
      { j.POPBLK G e with BLKLVL := b, INDPDL := p } := by
  have hsame : ({ j with BLKLVL := b, INDPDL := p } : Icp).FNDBLK e = j.FNDBLK e := rfl
  unfold Icp.POPBLK
  rw [hsame]
  cases j.FNDBLK e <;> rfl

/-- `CLSIND` is `POPFIL`, and `POPBLK` in the file around. -/
theorem CLSIND_eq (hfile : 2 ≤ i.INDLVL) (k : ℕ) : i.CLSIND G =
    { (⟨(i.POPFIL G i.file).vars, i.INDLVL - 1, k, i.INDPDL.tail⟩ : Icp).POPBLK G
        ((i.INDPDL.headD 0 + 1) % 256) with
      BLKLVL := i.INDPDL.headD 0, INDPDL := i.INDPDL.tail } := by
  have hlvl : (i.POPFIL G i.file).INDLVL = i.INDLVL ∧ (i.POPFIL G i.file).INDPDL = i.INDPDL := by
    unfold Icp.POPFIL
    split <;> exact ⟨rfl, rfl⟩
  unfold Icp.CLSIND
  dsimp only
  rw [hlvl.1, hlvl.2, if_neg (by omega)]
  exact POPBLK_congr (G := G) ⟨(i.POPFIL G i.file).vars, i.INDLVL - 1, k, i.INDPDL.tail⟩
    ((i.INDPDL.headD 0 + 1) % 256) (i.INDPDL.headD 0) i.INDPDL.tail

/-- The block that `CPOP` looks for is there and its level does not wrap, or nothing is removed. -/
theorem Leveled.POPBLK_or (h : Leveled G i) {b : ℕ} (hb : b ≤ i.BLKLVL)
    (hgap : (∃ m ∈ marks (scopes G bottom i.vars).cur, m.1 = b + 1) ∨
      ∀ m ∈ marks (scopes G bottom i.vars).cur, m.1 < b + 1) :
    ((∃ m ∈ marks (scopes G bottom i.vars).cur, m.1 = b + 1) ∧ (b + 1) % 256 = b + 1) ∨
      (∀ m ∈ marks (scopes G bottom i.vars).cur, m.1 < b + 1) ∧
        i.POPBLK G ((b + 1) % 256) = i := by
  have top : i.BLKLVL ≤ 255 := h.top
  have hbound : ∀ m ∈ marks (scopes G bottom i.vars).cur, 0 < m.1 ∧ m.1 ≤ i.BLKLVL := by
    obtain ⟨lvl, ms, sh', heq, -, -, -, hbound⟩ := h.nested.sorted
    intro m hm
    exact hbound m ((Prod.mk.inj (List.cons.inj heq).1).2 ▸ hm)
  rcases hgap with ⟨m, hm, hlvl⟩ | hlow
  · refine .inl ⟨⟨m, hm, hlvl⟩, ?_⟩
    have := (hbound m hm).2
    omega
  · refine .inr ⟨hlow, h.POPBLK_none fun m hm heq => ?_⟩
    have hlt := hlow m hm
    have := hbound m hm
    omega

/-- What a command of the processor does to the table and what it sees is what the scopes say. -/
theorem Leveled.step (h : Leveled G i) {op : Op} (hn : i.Nested op) :
    (i.step G op).1.model G = ((i.model G).step G op).1 ∧
      (i.step G op).2 = ((i.model G).step G op).2 := by
  have depth := h.inFile
  have most : i.INDLVL ≤ 3 := h.most
  have top : i.BLKLVL ≤ 255 := h.top
  cases op with
  | «open» loc mem =>
    change (i.OPNCMD loc mem).1.model G = ((i.model G).opened loc mem).1 ∧
      Out.err (i.OPNCMD loc mem).2 = Out.err ((i.model G).opened loc mem).2
    unfold Icp.OPNCMD Model.opened
    by_cases hmax : MAXIND ≤ i.INDLVL
    · rw [if_pos hmax, if_pos (show MAXIND ≤ (i.model G).INDLVL from hmax)]
      exact ⟨rfl, rfl⟩
    have hfile : (i.INDLVL + 1 + 255) % 256 = i.INDLVL := by omega
    have hpos : i.INDLVL ≠ 0 := by omega
    rw [if_neg hmax, if_neg (show ¬MAXIND ≤ (i.model G).INDLVL from hmax), if_neg hpos]
    cases loc with
    | true => exact ⟨rfl, rfl⟩
    | false =>
      simp only [Icp.file, hfile, hpos, Bool.false_or, decide_false, Bool.false_eq_true, if_false,
        Icp.PSHFIL, Icp.push]
      cases mem with
      | false => exact ⟨rfl, rfl⟩
      | true =>
        refine ⟨?_, rfl⟩
        have happ : scopes G bottom (i.vars ++ [.fil i.INDLVL]) =
            (scopes G bottom i.vars).openFrame i.INDLVL := by
          rw [scopes_append]
          rfl
        exact congrArg (Model.mk · (i.INDLVL + 1) i.BLKLVL (i.BLKLVL :: i.INDPDL)) happ
  | close =>
    refine ⟨?_, rfl⟩
    have hn : 2 ≤ i.INDLVL := hn
    obtain ⟨k, hle, hk, around, hgap, -⟩ := h.around hn
    have hpop := h.POPFIL
    change (i.CLSIND G).model G = (i.model G).close
    have hle : i.INDPDL.headD 0 ≤ k := hle
    -- the table behind `POPFIL`, in the file around
    have hj : Leveled G ⟨(i.POPFIL G i.file).vars, i.INDLVL - 1, k, i.INDPDL.tail⟩ := by
      unfold Leveled Icp.model
      rw [hpop]
      exact around
    rw [CLSIND_eq hn k]
    rcases hj.POPBLK_or hle (hpop ▸ hgap) with ⟨hsome, hmod⟩ | ⟨hlow, hsame⟩
    · refine (congrArg (fun m : Model => { m with
        BLKLVL := i.INDPDL.headD 0, INDPDL := i.INDPDL.tail }) (hj.POPBLK (hmod.symm ▸ hsome))).trans ?_
      rw [hpop, hmod]
      rfl
    · rw [hsame]
      have hsc : scopes G bottom (i.POPFIL G i.file).vars =
          ((scopes G bottom i.vars).closeFrame (i.INDLVL - 1)).pop (i.INDPDL.headD 0 + 1) := by
        rw [← hpop, pop_of_lt hlow]
      exact congrArg (Model.mk · (i.INDLVL - 1) (i.INDPDL.headD 0) i.INDPDL.tail) hsc
  | begin pos mem =>
    change (i.begin pos mem).1.model G = ((i.model G).begin pos).1 ∧
      Out.err (i.begin pos mem).2 = Out.err ((i.model G).begin pos).2
    unfold Icp.begin Model.begin
    by_cases hmax : i.BLKLVL = 255
    · rw [if_pos (by omega), if_pos (show (i.model G).BLKLVL = 255 from hmax)]
      exact ⟨rfl, rfl⟩
    have hlvl : (i.BLKLVL + 1) % 256 = i.BLKLVL + 1 := by omega
    have hmem : mem = true := hn.resolve_right (by omega)
    rw [hlvl, if_neg (Nat.succ_ne_zero _), if_neg (show (i.model G).BLKLVL ≠ 255 from hmax), hmem]
    refine ⟨?_, rfl⟩
    have happ : scopes G bottom (i.vars ++ [.blk (i.BLKLVL + 1) ⟨pos, i.INDLVL⟩]) =
        (scopes G bottom i.vars).push (i.BLKLVL + 1) ⟨pos, i.INDLVL⟩ := by
      rw [scopes_append]
      rfl
    exact congrArg (Model.mk · i.INDLVL (i.BLKLVL + 1) i.INDPDL) happ
  | bend =>
    have hn : i.BASEBL < i.BLKLVL := hn
    refine ⟨?_, rfl⟩
    have hlvl : (i.BLKLVL + 255) % 256 = i.BLKLVL - 1 := by omega
    have hpop := h.POPBLK (h.block_mem hn)
    change ({ i with BLKLVL := (i.BLKLVL + 255) % 256 }.POPBLK G i.BLKLVL).model G = _
    rw [hlvl, POPBLK_congr i i.BLKLVL (i.BLKLVL - 1) i.INDPDL]
    exact congrArg (fun m : Model => { m with BLKLVL := i.BLKLVL - 1, INDPDL := i.INDPDL }) hpop
  | onerr label mem =>
    cases mem with
    | false => exact ⟨rfl, rfl⟩
    | true =>
      refine ⟨?_, rfl⟩
      have happ : scopes G bottom (i.vars ++ [.err label i.BLKLVL]) = scopes G bottom i.vars := by
        rw [scopes_append]
        rfl
      exact congrArg (Model.mk · i.INDLVL i.BLKLVL i.INDPDL) happ
  | set n v mem =>
    obtain ⟨hmodel, herr⟩ := h.SETV n v mem
    exact ⟨hmodel, congrArg Out.err herr⟩
  | get n => exact ⟨rfl, congrArg Out.val (h.GETVAR n)⟩
  | goto => exact ⟨rfl, congrArg Out.start (h.GETBLK i.BLKLVL)⟩

theorem Leveled.next (h : Leveled G i) {op : Op} (hn : i.Nested op) :
    Leveled G (i.step G op).1 := by
  unfold Leveled
  rw [(h.step hn).1]
  exact Model.Leveled.step h (h.begins hn)

/-- What nested commands do to the table and what they see is what the scopes say. -/
theorem Leveled.runs (h : Leveled G i) {l : List Op} (hl : i.Admits G l) :
    i.trace G l = (i.model G).trace G l ∧ Leveled G (i.runs G l) := by
  induction l generalizing i with
  | nil => exact ⟨rfl, h⟩
  | cons op l ih =>
    obtain ⟨hmodel, hout⟩ := h.step hl.1
    obtain ⟨htrace, hlast⟩ := ih (h.next hl.1) hl.2
    exact ⟨by rw [Icp.trace, Model.trace, htrace, hmodel, hout], hlast⟩

/-! ### What a pop removes -/

/-- A variable that is visible everywhere. -/
def Entry.shared (G : Bool) : Entry → Bool
  | .var n _ => isgbl G n
  | _ => false

end RSX280.Vars
