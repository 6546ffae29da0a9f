import RSX280.LbrTable

/-!
# The listings over closed circles

Where every name has its circle, the name of a record is found by going around to the first one, a
public symbol is found if there is one, and `XREF` and `LUNDEF` come to an end. There is an entry
for the first record of each circle.
-/

namespace RSX280.Lbr

open Circular

section lists

variable {rows : List Row} {top : ℕ} {x : Row} {n : Name} {a b : ℕ} {l : List ℕ}

/-- The rows of a circle. -/
theorem row_of_ring (hb : b ∈ ring rows n) :
    ∃ y ∈ rows, y.addr = b ∧ y.cell.type.linked = true ∧ y.name = n := by
  obtain ⟨y, hy, same, linked⟩ := mem_ring hb
  exact ⟨y, hy, same, Row.linked_iff.mp linked⟩

theorem ring_short (rows : List Row) (n : Name) :
    (ring rows n).length ≤ (recs rows).length := by
  rw [recs, List.length_map, ← List.length_map (f := Row.addr)]
  exact (ring_sublist rows n).length_le

/-- The circle from any of its records. -/
theorem Table.around (h : Table rows top) (hb : b ∈ ring rows n) :
    ∃ l, Circle (chain (recs rows)) b l ∧ (∀ c, c ∈ b :: l ↔ c ∈ ring rows n)
      ∧ l.length < (recs rows).length := by
  rcases hr : ring rows n with _ | ⟨a, l⟩
  · rw [hr] at hb
    cases hb
  · have round := h.circle hr
    have short := ring_short rows n
    rw [hr] at hb short
    rcases List.mem_cons.mp hb with rfl | later
    · exact ⟨l, round, fun c => Iff.rfl, short⟩
    · obtain ⟨before, behind, rfl⟩ := List.append_of_mem later
      refine ⟨behind ++ a :: before, round.rotate, fun c => ?_, ?_⟩
      · simp only [List.mem_cons, List.mem_append]
        tauto
      · simp only [List.length_cons, List.length_append] at short ⊢
        omega

/-- A test of the records, as one of their addresses. -/
def holdsAt (t : List Rec) (p : Rec → Bool) (a : ℕ) : Bool :=
  match recAt t a with
  | .ok r => p r
  | .error _ => false

theorem Table.holdsAt_eq (h : Table rows top) (p : Rec → Bool) (hx : x ∈ rows) :
    holdsAt (recs rows) p x.addr = p x.cell := by
  rw [holdsAt, recAt_of_mem h.nodup hx]

theorem Table.test_eq (h : Table rows top) (p : Rec → Bool) (hx : x ∈ rows) :
    (do .ok (p (← recAt (recs rows) x.addr)) : Except Stop Bool)
      = .ok (holdsAt (recs rows) p x.addr) := by
  rw [h.holdsAt_eq p hx, recAt_of_mem h.nodup hx]
  rfl

/-- A loop through a circle finds what there is. -/
theorem Table.search_ring (h : Table rows top) (p : Rec → Bool) (hb : b ∈ ring rows n) :
    ∃ found, search (chain (recs rows)) .endless b
        (fun c => do .ok (p (← recAt (recs rows) c))) (recs rows).length b = .ok found
      ∧ (∀ c, found = some c → ∃ y ∈ rows, y.addr = c ∧ y.cell.type.linked = true ∧ y.name = n
          ∧ c ∈ ring rows n ∧ p y.cell = true)
      ∧ (found = none → ∀ y ∈ rows, y.addr ∈ ring rows n → p y.cell = false) := by
  obtain ⟨l, round, same, short⟩ := h.around hb
  have test (c : ℕ) (hc : c ∈ b :: l) : (do .ok (p (← recAt (recs rows) c)) : Except Stop Bool)
      = .ok (holdsAt (recs rows) p c) := by
    obtain ⟨y, hy, rfl, _⟩ := row_of_ring ((same c).mp hc)
    exact h.test_eq p hy
  refine ⟨_, search_eq round.path round.head_notMem short test, fun c found => ?_,
    fun none y hy mem => ?_⟩
  · have here := (same c).mp (List.mem_of_find?_eq_some found)
    obtain ⟨y, hy, rfl, linked, name⟩ := row_of_ring here
    have holds := List.find?_some found
    rw [h.holdsAt_eq p hy] at holds
    exact ⟨y, hy, rfl, linked, name, here, holds⟩
  · have fails := List.find?_eq_none.mp none y.addr ((same _).mpr mem)
    rw [h.holdsAt_eq p hy] at fails
    exact eq_false_of_ne_true fails

/-- The name of a record is found. -/
theorem Table.CPYN8_eq (h : Table rows top) (hx : x ∈ rows) :
    CPYN8 (recs rows) x.addr = .ok x.name := by
  have named := h.named x hx
  have rec_x := recAt_of_mem h.nodup hx
  by_cases first : x.addr ∈ (ring rows x.name).tail
  · obtain ⟨found, eq, some, none⟩ := h.search_ring (fun r => decide (r.name ≠ []))
      (List.mem_of_mem_tail first)
    rw [CPYN8, FNDNAM, eq]
    cases found with
    | some c =>
      obtain ⟨y, hy, rfl, _, name, _, holds⟩ := some c rfl
      have stored := h.named y hy
      split at stored
      · exact absurd stored (of_decide_eq_true holds)
      · simp only [bind, Except.bind, recAt_of_mem h.nodup hy, stored, name]
    | none =>
      -- the first record of the circle has the name
      rcases hr : ring rows x.name with _ | ⟨a, l⟩
      · rw [hr] at first
        cases first
      · obtain ⟨y, hy, rfl, _, name⟩ := h.head_named hr
        have fails := none rfl y hy (hr ▸ List.mem_cons_self)
        rw [decide_eq_false_iff_not, not_not, name] at fails
        exact absurd fails (h.filled x hx)
  · rw [if_neg first] at named
    have here : x.cell.name ≠ [] := named ▸ h.filled x hx
    have length : 0 < (recs rows).length := by
      rw [recs, List.length_map]
      exact List.length_pos_of_mem hx
    obtain ⟨k, hk⟩ := Nat.exists_eq_succ_of_ne_zero (Nat.ne_of_gt length)
    have found : FNDNAM (recs rows) x.addr = .ok (some x.addr) := by
      rw [FNDNAM, hk, search, rec_x]
      simp only [bind, Except.bind]
      rw [if_pos (decide_eq_true here)]
    rw [CPYN8, found]
    simp only [bind, Except.bind, rec_x, named]

/-- The module of a record is found. -/
theorem Table.moduleName_eq (h : Table rows top) (hx : x ∈ rows) (hl : x.cell.type.linked = true) :
    moduleName (recs rows) x.addr = .ok x.mod := by
  have link := h.link x hx
  rw [hl] at link
  obtain ⟨⟨m, c⟩, eq⟩ := Option.isSome_iff_exists.mp link
  obtain ⟨y, hy, rfl, _, name⟩ := h.module x hx m c eq
  rw [moduleName, recAt_of_mem h.nodup hx]
  simp only [bind, Except.bind, eq, h.CPYN8_eq hy, name]

/-- The modules that refer to the symbol. -/
theorem Table.xrf_spec (h : Table rows top) (hb : b ∈ ring rows n) :
    ∃ ks, xrf (recs rows) b = .ok ks ∧ ∀ k, k ∈ ks ↔
      ∃ y ∈ rows, y.cell.type = .EXTTYP ∧ y.name = n ∧ y.mod = k := by
  obtain ⟨l, round, same, short⟩ := h.around hb
  let refs (c : ℕ) : List Name :=
    match recAt (recs rows) c, moduleName (recs rows) c with
    | .ok r, .ok m => if r.type = .EXTTYP then [m] else []
    | _, _ => []
  have refs_eq {y : Row} (hy : y ∈ rows) (hl : y.cell.type.linked = true) :
      refs y.addr = if y.cell.type = .EXTTYP then [y.mod] else [] := by
    simp only [refs, recAt_of_mem h.nodup hy, h.moduleName_eq hy hl]
  refine ⟨(b :: l).flatMap refs, collect_eq round.path round.head_notMem short fun c hc => ?_,
    fun k => ?_⟩
  · obtain ⟨y, hy, rfl, linked, _⟩ := row_of_ring ((same c).mp hc)
    rw [refs_eq hy linked, recAt_of_mem h.nodup hy, h.moduleName_eq hy linked]
    simp only [bind, Except.bind]
    split <;> rfl
  · rw [List.mem_flatMap]
    constructor
    · rintro ⟨c, hc, mem⟩
      obtain ⟨y, hy, rfl, linked, name⟩ := row_of_ring ((same c).mp hc)
      rw [refs_eq hy linked] at mem
      split at mem
      · next type => exact ⟨y, hy, type, name, (List.mem_singleton.mp mem).symm⟩
      · cases mem
    · rintro ⟨y, hy, type, name, rfl⟩
      have symbol : y.symbol n = true := by
        rw [Row.symbol, Bool.and_eq_true, beq_iff_eq, type]
        exact ⟨rfl, name⟩
      refine ⟨y.addr, (same _).mpr (mem_ring_of_symbol hy symbol), ?_⟩
      rw [refs_eq hy (type ▸ rfl), if_pos type]
      exact List.mem_cons_self

/-! ### One entry -/

/-- Modules with a public symbol of the name, and those that refer to it. -/
def Defined (rows : List Row) (n k : Name) : Prop :=
  ∃ y ∈ rows, y.cell.type = .GBLTYP ∧ y.name = n ∧ y.mod = k

def Referenced (rows : List Row) (n k : Name) : Prop :=
  ∃ y ∈ rows, y.cell.type = .EXTTYP ∧ y.name = n ∧ y.mod = k

/-- The entry of a symbol. One of the modules that define it is named. -/
structure Entry (rows : List Row) (n : Name) (line : Line) : Prop where
  name : line.name = n
  defined : ∀ k, line.defined = some k → Defined rows n k
  undefined : line.defined = none → ∀ k, ¬ Defined rows n k
  referenced : ∀ k, k ∈ line.referenced ↔ Referenced rows n k

theorem Defined.mem_ring {k : Name} (hd : Defined rows n k) :
    ∃ y ∈ rows, y.cell.type = .GBLTYP ∧ y.addr ∈ ring rows n ∧ y.mod = k := by
  obtain ⟨y, hy, type, name, mod⟩ := hd
  refine ⟨y, hy, type, mem_ring_of_symbol hy ?_, mod⟩
  rw [Row.symbol, Bool.and_eq_true, beq_iff_eq, type]
  exact ⟨rfl, name⟩

theorem Table.xrp_spec (h : Table rows top) (hx : x ∈ rows) (hr : x.addr ∈ ring rows n)
    (ht : x.cell.type = .GBLTYP) :
    ∃ line, xrp (recs rows) x.addr = .ok line ∧ Entry rows n line := by
  obtain ⟨name, linked⟩ := h.name_of_ring hx hr
  obtain ⟨ks, refs, all⟩ := h.xrf_spec hr
  rw [xrp, h.CPYN8_eq hx, recAt_of_mem h.nodup hx, h.moduleName_eq hx linked, refs]
  refine ⟨_, rfl, name, ?_, nofun, all⟩
  rintro k ⟨⟩
  exact ⟨x, hx, ht, name, rfl⟩

/-- The search for a public symbol. -/
theorem Table.xre1_spec (h : Table rows top) (hr : b ∈ ring rows n) :
    ∃ found, xre1 (recs rows) b = .ok found
      ∧ (∀ c, found = some c → ∃ y ∈ rows, y.addr = c ∧ y.addr ∈ ring rows n
          ∧ y.cell.type = .GBLTYP)
      ∧ (found = none → ∀ k, ¬ Defined rows n k) := by
  obtain ⟨found, eq, some, none⟩ := h.search_ring (fun r => decide (r.type = .GBLTYP)) hr
  refine ⟨found, eq, fun c hc => ?_, fun hn k hd => ?_⟩
  · obtain ⟨y, hy, rfl, _, _, mem, holds⟩ := some c hc
    exact ⟨y, hy, rfl, mem, of_decide_eq_true holds⟩
  · obtain ⟨y, hy, type, mem, _⟩ := hd.mem_ring
    exact absurd type (of_decide_eq_false (none hn y hy mem))

theorem Table.xre_spec (h : Table rows top) (hx : x ∈ rows) (hr : x.addr ∈ ring rows n) :
    ∃ line, xre (recs rows) x.addr = .ok line ∧ Entry rows n line := by
  obtain ⟨found, eq, some, none⟩ := h.xre1_spec hr
  rw [xre, eq]
  cases found with
  | some c =>
    obtain ⟨y, hy, rfl, mem, type⟩ := some c rfl
    exact h.xrp_spec hy mem type
  | none =>
    obtain ⟨ks, refs, all⟩ := h.xrf_spec hr
    simp only [bind, Except.bind]
    rw [h.CPYN8_eq hx, recAt_of_mem h.nodup hx, refs]
    exact ⟨_, rfl, (h.name_of_ring hx hr).1, nofun, fun _ => none rfl, all⟩

/-- The first record of a circle. -/
def heads (rows : List Row) (x : Row) : Bool := (ring rows x.name).head? == some x.addr

/-- The records with a name that are symbols are the first ones of the circles. -/
theorem Table.heads_iff (h : Table rows top) (hx : x ∈ rows) :
    heads rows x = true ↔ x.cell.name ≠ [] ∧ x.cell.type.symbol = true := by
  rw [heads, beq_iff_eq, h.named x hx]
  constructor
  · intro first
    rcases hr : ring rows x.name with _ | ⟨a, l⟩
    · rw [hr] at first
      cases first
    · rw [hr] at first
      obtain rfl : a = x.addr := Option.some.inj first
      obtain ⟨y, hy, same, symbol⟩ := ring_head hr
      obtain rfl := h.inj hy hx same
      rw [Row.symbol, Bool.and_eq_true] at symbol
      rw [List.tail_cons, if_neg (h.circle hr).head_notMem]
      exact ⟨h.filled y hx, symbol.1⟩
  · rintro ⟨stored, symbol⟩
    have mem : x.addr ∈ ring rows x.name :=
      mem_ring_of_symbol hx (by rw [Row.symbol, symbol, Bool.true_and, beq_self_eq_true])
    have first : x.addr ∉ (ring rows x.name).tail := fun later => stored (if_pos later)
    rcases hr : ring rows x.name with _ | ⟨a, l⟩
    · rw [hr] at mem
      cases mem
    · rw [hr] at mem first
      exact congrArg some ((List.mem_cons.mp mem).resolve_right first).symm

theorem mem_of_heads (h : heads rows x = true) : x.addr ∈ ring rows x.name :=
  List.mem_of_mem_head? (beq_iff_eq.mp h)

theorem Table.xr1_spec (h : Table rows top) (hx : x ∈ rows) :
    ∃ lines, xr1 (recs rows) x.cell = .ok lines
      ∧ (heads rows x = true → ∃ line, lines = [line] ∧ Entry rows x.name line)
      ∧ (heads rows x = false → lines = []) := by
  by_cases hh : heads rows x = true
  · obtain ⟨stored, symbol⟩ := (h.heads_iff hx).mp hh
    have mem := mem_of_heads hh
    have named {e : Except Stop (List Line)} {line : Line} (eq : e = .ok [line])
        (entry : Entry rows x.name line) : ∃ lines, e = .ok lines
          ∧ (heads rows x = true → ∃ line, lines = [line] ∧ Entry rows x.name line)
          ∧ (heads rows x = false → lines = []) :=
      ⟨_, eq, fun _ => ⟨line, rfl, entry⟩, fun no => absurd (hh.symm.trans no) nofun⟩
    rw [xr1, if_neg stored]
    cases type : x.cell.type with
    | GBLTYP =>
      obtain ⟨line, eq, entry⟩ := h.xrp_spec hx mem type
      exact named (congrArg (· >>= fun y => Except.ok [y]) eq) entry
    | EXTTYP =>
      obtain ⟨line, eq, entry⟩ := h.xre_spec hx mem
      exact named (congrArg (· >>= fun y => Except.ok [y]) eq) entry
    | MODTYP | COMTYP | LIBTYP | IDNTYP =>
      rw [type] at symbol
      cases symbol
  · refine ⟨[], ?_, fun yes => absurd yes hh, fun _ => rfl⟩
    rw [xr1]
    by_cases stored : x.cell.name = []
    · exact if_pos stored
    · rw [if_neg stored]
      have plain : ¬ x.cell.type.symbol = true := fun symbol =>
        hh ((h.heads_iff hx).mpr ⟨stored, symbol⟩)
      cases type : x.cell.type with
      | GBLTYP | EXTTYP => exact absurd (type ▸ rfl) plain
      | MODTYP | COMTYP | LIBTYP | IDNTYP => rfl

theorem Table.lu1_spec (h : Table rows top) (hx : x ∈ rows) :
    ∃ ns, lu1 (recs rows) x.cell = .ok ns
      ∧ ((heads rows x = true ∧ ∀ k, ¬ Defined rows x.name k) → ns = [x.name])
      ∧ (¬ (heads rows x = true ∧ ∀ k, ¬ Defined rows x.name k) → ns = []) := by
  by_cases hh : heads rows x = true
  · obtain ⟨stored, symbol⟩ := (h.heads_iff hx).mp hh
    have mem := mem_of_heads hh
    rw [lu1, if_neg stored]
    cases type : x.cell.type with
    | GBLTYP =>
      exact ⟨[], rfl, fun no => absurd ⟨x, hx, type, rfl, rfl⟩ (no.2 x.mod), fun _ => rfl⟩
    | EXTTYP =>
      obtain ⟨found, eq, some, none⟩ := h.xre1_spec mem
      dsimp only
      rw [eq]
      cases found with
      | some c =>
        obtain ⟨y, hy, rfl, here, gbl⟩ := some c rfl
        have name := (h.name_of_ring hy here).1
        exact ⟨[], rfl, fun no => absurd ⟨y, hy, gbl, name, rfl⟩ (no.2 y.mod), fun _ => rfl⟩
      | none =>
        simp only [bind, Except.bind, h.CPYN8_eq hx]
        exact ⟨_, rfl, fun _ => rfl, fun yes => absurd ⟨hh, none rfl⟩ yes⟩
    | MODTYP | COMTYP | LIBTYP | IDNTYP =>
      rw [type] at symbol
      cases symbol
  · refine ⟨[], ?_, fun yes => absurd yes.1 hh, fun _ => rfl⟩
    rw [lu1]
    by_cases stored : x.cell.name = []
    · exact if_pos stored
    · rw [if_neg stored]
      have plain : ¬ x.cell.type.symbol = true := fun symbol =>
        hh ((h.heads_iff hx).mpr ⟨stored, symbol⟩)
      cases type : x.cell.type with
      | EXTTYP => exact absurd (type ▸ rfl) plain
      | GBLTYP | MODTYP | COMTYP | LIBTYP | IDNTYP => rfl

end lists

end RSX280.Lbr
