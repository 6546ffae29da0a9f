import RSX280.Lbr

/-!
# The circles in the table

The rows of the table are its records together with the names they stand for and the modules they
come from. A name that a symbol has brought in makes one circle: the records that mention it from
there on, in the order of the table, the first of which has the name. Entering a symbol puts one
record in at the end of its circle and leaves every other record alone.
-/

namespace RSX280.Lbr

open Circular

/-- Public symbols and external references. -/
def Typ.symbol : Typ → Bool
  | GBLTYP | EXTTYP => true
  | _ => false

/-- What `ADDSV` links in a circle. -/
def Typ.linked : Typ → Bool
  | GBLTYP | EXTTYP | COMTYP => true
  | _ => false

theorem Typ.linked_of_symbol {t : Typ} (h : t.symbol = true) : t.linked = true := by
  cases t <;> first | rfl | cases h

/-- A record, the name it stands for, and the name of its module. -/
structure Row where
  cell : Rec
  name : Name
  mod : Name

abbrev Row.addr (x : Row) : ℕ := x.cell.addr

/-- The records. -/
def recs (rows : List Row) : List Rec := rows.map Row.cell

def Row.symbol (n : Name) (x : Row) : Bool := x.cell.type.symbol && x.name == n

def Row.linked (n : Name) (x : Row) : Bool := x.cell.type.linked && x.name == n

/-- The addresses of the records of a name, from its first symbol on. -/
def ring : List Row → Name → List ℕ
  | [], _ => []
  | x :: rows, n =>
    if x.symbol n then ((x :: rows).filter (Row.linked n)).map Row.addr else ring rows n

attribute [local grind =] ring

section ring

variable {rows K C : List Row} {x : Row} {n : Name} {a : ℕ}

theorem Row.linked_of_symbol (h : x.symbol n = true) : x.linked n = true := by
  rw [Row.symbol, Bool.and_eq_true] at h
  rw [Row.linked, Bool.and_eq_true]
  exact ⟨Typ.linked_of_symbol h.1, h.2⟩

theorem ring_of_symbol (h : x.symbol n = true) :
    ring (x :: rows) n = x.addr :: (rows.filter (Row.linked n)).map Row.addr := by
  rw [ring, if_pos h, List.filter_cons_of_pos (Row.linked_of_symbol h), List.map_cons]

theorem ring_of_not (h : ¬ x.symbol n = true) : ring (x :: rows) n = ring rows n := if_neg h

theorem ring_append (K C : List Row) (n : Name) :
    ring (K ++ C) n =
      if ring K n = [] then ring C n else ring K n ++ (C.filter (Row.linked n)).map Row.addr := by
  induction K with
  | nil => rfl
  | cons x K ih =>
    by_cases h : x.symbol n = true
    · rw [List.cons_append, ring_of_symbol h, ring_of_symbol h, if_neg nofun, List.filter_append,
        List.map_append, List.cons_append]
    · rw [List.cons_append, ring_of_not h, ring_of_not h, ih]

theorem ring_sublist (rows : List Row) (n : Name) : (ring rows n).Sublist (rows.map Row.addr) := by
  induction rows with
  | nil => exact .slnil
  | cons x rows ih =>
    by_cases h : x.symbol n = true
    · rw [ring, if_pos h]
      exact List.filter_sublist.map Row.addr
    · rw [ring_of_not h]
      exact ih.cons _

theorem mem_ring (h : a ∈ ring rows n) : ∃ x ∈ rows, x.addr = a ∧ x.linked n = true := by
  induction rows with
  | nil => cases h
  | cons x rows ih =>
    by_cases hx : x.symbol n = true
    · rw [ring, if_pos hx] at h
      obtain ⟨y, hy, rfl⟩ := List.mem_map.mp h
      obtain ⟨mem, linked⟩ := List.mem_filter.mp hy
      exact ⟨y, mem, rfl, linked⟩
    · rw [ring_of_not hx] at h
      obtain ⟨y, mem, same, linked⟩ := ih h
      exact ⟨y, List.mem_cons_of_mem _ mem, same, linked⟩

theorem mem_ring_of_symbol (hx : x ∈ rows) (h : x.symbol n = true) : x.addr ∈ ring rows n := by
  induction rows with
  | nil => cases hx
  | cons y rows ih =>
    by_cases hy : y.symbol n = true
    · rw [ring, if_pos hy]
      exact List.mem_map_of_mem (List.mem_filter.mpr ⟨hx, Row.linked_of_symbol h⟩)
    · rw [ring_of_not hy]
      rcases List.mem_cons.mp hx with rfl | hx
      · exact absurd h hy
      · exact ih hx

/-- The first record of a circle is a symbol. -/
theorem ring_head {l : List ℕ} (h : ring rows n = a :: l) :
    ∃ x ∈ rows, x.addr = a ∧ x.symbol n = true := by
  induction rows with
  | nil => cases h
  | cons x rows ih =>
    by_cases hx : x.symbol n = true
    · rw [ring_of_symbol hx] at h
      exact ⟨x, List.mem_cons_self, (List.cons.inj h).1, hx⟩
    · rw [ring_of_not hx] at h
      obtain ⟨y, mem, same, symbol⟩ := ih h
      exact ⟨y, List.mem_cons_of_mem _ mem, same, symbol⟩

theorem ring_single (x : Row) (n : Name) :
    ring [x] n = if x.symbol n = true then [x.addr] else [] := by
  by_cases h : x.symbol n = true
  · rw [ring_of_symbol h, if_pos h]
    rfl
  · rw [ring_of_not h, if_neg h]
    rfl

/-- The circles depend on the addresses, types and names only. -/
theorem ring_map {f : Row → Row} (hf : ∀ x, (f x).addr = x.addr ∧ (f x).cell.type = x.cell.type
    ∧ (f x).name = x.name) : ring (rows.map f) n = ring rows n := by
  have symbol (x : Row) : (f x).symbol n = x.symbol n := by
    rw [Row.symbol, Row.symbol, (hf x).2.1, (hf x).2.2]
  have linked (x : Row) : (f x).linked n = x.linked n := by
    rw [Row.linked, Row.linked, (hf x).2.1, (hf x).2.2]
  have filter (rows : List Row) : ((rows.map f).filter (Row.linked n)).map Row.addr
      = (rows.filter (Row.linked n)).map Row.addr := by
    rw [List.filter_map, List.map_map]
    have same : Row.linked n ∘ f = Row.linked n := funext linked
    rw [same]
    exact List.map_congr_left fun x _ => (hf x).1
  induction rows with
  | nil => rfl
  | cons x rows ih =>
    by_cases h : x.symbol n = true
    · rw [List.map_cons, ring_of_symbol ((symbol x).trans h), ring_of_symbol h, (hf x).1, filter]
    · rw [List.map_cons, ring_of_not (symbol x ▸ h), ring_of_not h, ih]

end ring

/-! ### The table -/

/-- The rows are a table that ends at `top`. -/
structure Table (rows : List Row) (top : ℕ) : Prop where
  order : (rows.map Row.addr).Pairwise (· < ·)
  below : ∀ x ∈ rows, x.addr < top
  /-- every name has its circle -/
  path : ∀ n a l, ring rows n = a :: l → Path (chain (recs rows)) a l a
  /-- a COMMON block before the first symbol of its name is alone -/
  alone : ∀ x ∈ rows, x.cell.type.linked = true → x.addr ∉ ring rows x.name →
    chain (recs rows) x.addr = .ok x.addr
  /-- only the first record of a circle has the name -/
  named : ∀ x ∈ rows, x.cell.name = if x.addr ∈ (ring rows x.name).tail then [] else x.name
  filled : ∀ x ∈ rows, x.name ≠ []
  link : ∀ x ∈ rows, x.cell.link.isSome = x.cell.type.linked
  module : ∀ x ∈ rows, ∀ m c, x.cell.link = some (m, c) →
    ∃ y ∈ rows, y.addr = m ∧ y.cell.type = .MODTYP ∧ y.name = x.mod

section table

variable {rows : List Row} {top : ℕ} {x : Row} {n : Name} {a c : ℕ} {l : List ℕ}

theorem Table.nodup (h : Table rows top) : (rows.map Row.addr).Nodup :=
  h.order.imp Nat.ne_of_lt

theorem Table.ring_nodup (h : Table rows top) (n : Name) : (ring rows n).Nodup :=
  (ring_sublist rows n).nodup h.nodup

theorem recAt_of_mem (h : (rows.map Row.addr).Nodup) (hx : x ∈ rows) :
    recAt (recs rows) x.addr = .ok x.cell := by
  have found : (recs rows).find? (fun r => r.addr = x.addr) = some x.cell := by
    induction rows with
    | nil => cases hx
    | cons y rows ih =>
      rw [List.map_cons, List.nodup_cons] at h
      rcases List.mem_cons.mp hx with rfl | hx
      · exact List.find?_cons_of_pos (decide_eq_true rfl)
      · have other : y.addr ≠ x.addr := fun same => h.1 (same ▸ List.mem_map_of_mem hx)
        rw [recs, List.map_cons, List.find?_cons_of_neg (by simpa using other)]
        exact ih h.2 hx
  rw [recAt, found]

theorem chain_eq (h : (rows.map Row.addr).Nodup) (hx : x ∈ rows) :
    chain (recs rows) x.addr
      = match x.cell.link with | some (_, c) => .ok c | none => .error .garbage := by
  rw [chain, recAt_of_mem h hx]
  rfl

theorem chain_of_mem (h : (rows.map Row.addr).Nodup) (hx : x ∈ rows) {m : ℕ}
    (hl : x.cell.link = some (m, c)) : chain (recs rows) x.addr = .ok c := by
  rw [chain_eq h hx, hl]

/-- Different records have different addresses. -/
theorem Table.inj (h : Table rows top) {y : Row} (hx : x ∈ rows) (hy : y ∈ rows)
    (same : x.addr = y.addr) : x = y :=
  List.inj_on_of_nodup_map h.nodup hx hy same

/-- A record in the circle of a name has that name. -/
theorem Table.name_of_ring (h : Table rows top) (hx : x ∈ rows) (hr : x.addr ∈ ring rows n) :
    x.name = n ∧ x.cell.type.linked = true := by
  obtain ⟨y, hy, same, linked⟩ := mem_ring hr
  obtain rfl := h.inj hy hx same
  rw [Row.linked, Bool.and_eq_true, beq_iff_eq] at linked
  exact ⟨linked.2, linked.1⟩

theorem Table.circle (h : Table rows top) (hr : ring rows n = a :: l) :
    Circle (chain (recs rows)) a l :=
  ⟨h.path n a l hr, hr ▸ h.ring_nodup n⟩

/-- The first record of a circle has the name. -/
theorem Table.head_named (h : Table rows top) (hr : ring rows n = a :: l) :
    ∃ x ∈ rows, x.addr = a ∧ x.symbol n = true ∧ x.cell.name = n := by
  obtain ⟨x, hx, rfl, symbol⟩ := ring_head hr
  refine ⟨x, hx, rfl, symbol, ?_⟩
  have name : x.name = n := by
    rw [Row.symbol, Bool.and_eq_true, beq_iff_eq] at symbol
    exact symbol.2
  have first : x.addr ∉ (ring rows x.name).tail := by
    rw [name, hr]
    exact (h.circle hr).head_notMem
  rw [h.named x hx, if_neg first, name]

/-- `FNDSYM` finds the first record of the circle. -/
theorem Table.FNDSYM_eq (h : Table rows top) (hn : n ≠ []) :
    (FNDSYM n (recs rows)).map Rec.addr = (ring rows n).head? := by
  cases found : FNDSYM n (recs rows) with
  | none =>
    rcases hr : ring rows n with _ | ⟨a, l⟩
    · rfl
    · obtain ⟨x, hx, rfl, symbol, name⟩ := h.head_named hr
      have none := List.find?_eq_none.mp found x.cell (List.mem_map_of_mem hx)
      rw [Row.symbol, Bool.and_eq_true] at symbol
      refine absurd ?_ none
      rw [decide_eq_true_eq]
      refine ⟨?_, name⟩
      revert symbol
      cases x.cell.type <;> simp [Typ.symbol]
  | some r =>
    have mem := List.mem_of_find?_eq_some found
    have holds := List.find?_some found
    rw [decide_eq_true_eq] at holds
    obtain ⟨x, hx, rfl⟩ := List.mem_map.mp mem
    have name := h.named x hx
    have first : x.addr ∉ (ring rows x.name).tail := by
      intro later
      rw [if_pos later, holds.2] at name
      exact hn name
    rw [if_neg first, holds.2] at name
    have symbol : x.symbol n = true := by
      rw [Row.symbol, Bool.and_eq_true, beq_iff_eq]
      refine ⟨?_, name.symm⟩
      rcases holds.1 with type | type <;> rw [type] <;> rfl
    have here := mem_ring_of_symbol hx symbol
    rw [← name] at first
    rcases hr : ring rows n with _ | ⟨a, l⟩
    · rw [hr] at here
      cases here
    · rw [hr] at here first
      exact congrArg some ((List.mem_cons.mp here).resolve_right first)

end table

/-! ### A new record -/

/-- The record at `z` is linked to `a`. -/
def relink (z a : ℕ) (x : Row) : Row :=
  if x.addr = z then
    { x with cell := { x.cell with link := x.cell.link.map fun l => (l.1, a) } }
  else x

section relink

variable {z a : ℕ} {x : Row}

theorem relink_of_ne (h : x.addr ≠ z) : relink z a x = x := if_neg h

theorem relink_of_eq (h : x.addr = z) :
    relink z a x = { x with cell := { x.cell with link := x.cell.link.map fun l => (l.1, a) } } := if_pos h

theorem relink_cases {P : Row → Prop} (same : P x)
    (new : P { x with cell := { x.cell with link := x.cell.link.map fun l => (l.1, a) } }) : P (relink z a x) := by
  rcases eq_or_ne x.addr z with h | h
  · exact (relink_of_eq h).symm ▸ new
  · exact (relink_of_ne h).symm ▸ same

theorem relink_same (z a : ℕ) (x : Row) :
    (relink z a x).addr = x.addr ∧ (relink z a x).cell.type = x.cell.type
      ∧ (relink z a x).name = x.name :=
  relink_cases (P := fun y => y.addr = x.addr ∧ y.cell.type = x.cell.type ∧ y.name = x.name)
    ⟨rfl, rfl, rfl⟩ ⟨rfl, rfl, rfl⟩

theorem relink_addr (z a : ℕ) (x : Row) : (relink z a x).addr = x.addr := (relink_same z a x).1

theorem relink_type (z a : ℕ) (x : Row) : (relink z a x).cell.type = x.cell.type :=
  (relink_same z a x).2.1

theorem relink_name (z a : ℕ) (x : Row) : (relink z a x).name = x.name := (relink_same z a x).2.2

theorem relink_mod (z a : ℕ) (x : Row) : (relink z a x).mod = x.mod :=
  relink_cases (P := fun y => y.mod = x.mod) rfl rfl

theorem relink_stored (z a : ℕ) (x : Row) : (relink z a x).cell.name = x.cell.name :=
  relink_cases (P := fun y => y.cell.name = x.cell.name) rfl rfl

theorem relink_data (z a : ℕ) (x : Row) : (relink z a x).cell.data = x.cell.data :=
  relink_cases (P := fun y => y.cell.data = x.cell.data) rfl rfl

theorem relink_link (z a : ℕ) (x : Row) :
    (relink z a x).cell.link.map Prod.fst = x.cell.link.map Prod.fst := by
  refine relink_cases (P := fun y => y.cell.link.map Prod.fst = x.cell.link.map Prod.fst) rfl ?_
  rw [Option.map_map]
  rfl

theorem map_relink_of_notMem {rows : List Row} (h : z ∉ rows.map Row.addr) :
    rows.map (relink z a) = rows := by
  refine (List.map_congr_left fun x hx => ?_).trans (List.map_id rows)
  exact relink_of_ne fun same => h (same ▸ List.mem_map_of_mem hx)

theorem setChain_recs (rows : List Row) (z a : ℕ) :
    setChain (recs rows) z a = recs (rows.map (relink z a)) := by
  rw [setChain, recs, recs, List.map_map, List.map_map]
  refine List.map_congr_left fun x _ => ?_
  simp only [Function.comp_apply, relink]
  split <;> rfl

theorem map_relink_addr (rows : List Row) (z a : ℕ) :
    (rows.map (relink z a)).map Row.addr = rows.map Row.addr := by
  rw [List.map_map]
  exact List.map_congr_left fun x _ => relink_addr z a x

end relink

section insert

variable {rows : List Row} {top top' z root : ℕ} {new : Row}

/-- Where the record that `adsv4` finds is, and how the new record is stored. -/
inductive Place (rows : List Row) (new : Row) (root z : ℕ) : Prop
  | alone (empty : ring rows new.name = []) (stored : new.cell.name = new.name)
      (first : root = new.addr) (last : z = new.addr)
  | behind {l : List ℕ} (circle : ring rows new.name = root :: l) (stored : new.cell.name = [])
      (last : z = l.getLastD root)

theorem Table.inserted (h : Table rows top) (hn : new.addr = top) (z : ℕ) :
    ((rows.map (relink z top) ++ [new]).map Row.addr).Pairwise (· < ·) := by
  rw [List.map_append, map_relink_addr, List.pairwise_append]
  refine ⟨h.order, List.pairwise_singleton _ _, fun a ha b hb => ?_⟩
  obtain ⟨x, hx, rfl⟩ := List.mem_map.mp ha
  obtain rfl := List.mem_singleton.mp hb
  exact hn ▸ h.below x hx

/-- The chain fields of the new table. -/
theorem Table.chain_old (h : Table rows top) (hn : new.addr = top) {x : Row} (hx : x ∈ rows)
    (hz : x.addr ≠ z) :
    chain (recs (rows.map (relink z top) ++ [new])) x.addr = chain (recs rows) x.addr := by
  have mem : x ∈ rows.map (relink z top) ++ [new] :=
    List.mem_append_left _ (List.mem_map.mpr ⟨x, hx, relink_of_ne hz⟩)
  rw [chain_eq ((h.inserted hn z).imp Nat.ne_of_lt) mem, chain_eq h.nodup hx]

theorem Table.chain_last (h : Table rows top) (hn : new.addr = top) {x : Row} (hx : x ∈ rows)
    (hz : x.addr = z) (hl : x.cell.type.linked = true) :
    chain (recs (rows.map (relink z top) ++ [new])) z = .ok top := by
  have linked := h.link x hx
  rw [hl] at linked
  obtain ⟨⟨m, c⟩, link⟩ := Option.isSome_iff_exists.mp linked
  have mem : relink z top x ∈ rows.map (relink z top) ++ [new] :=
    List.mem_append_left _ (List.mem_map_of_mem hx)
  have relinked : (relink z top x).cell.link = some (m, top) := by
    rw [relink, if_pos hz]
    exact congrArg (Option.map _) link
  rw [← chain_of_mem ((h.inserted hn z).imp Nat.ne_of_lt) mem relinked, relink_addr, hz]

theorem Table.chain_new (h : Table rows top) (hn : new.addr = top) {m : ℕ}
    (hl : new.cell.link = some (m, root)) :
    chain (recs (rows.map (relink z top) ++ [new])) top = .ok root := by
  rw [← hn]
  rw [← hn] at h
  exact chain_of_mem ((h.inserted rfl z).imp Nat.ne_of_lt)
    (List.mem_append_right _ List.mem_cons_self) hl

/-- The circles of the new table. -/
theorem ring_insert (rows : List Row) (new : Row) (z top : ℕ) (n : Name) :
    ring (rows.map (relink z top) ++ [new]) n =
      if ring rows n = [] then ring [new] n
      else ring rows n ++ if new.linked n = true then [new.addr] else [] := by
  rw [ring_append, ring_map (relink_same z top)]
  refine if_congr Iff.rfl rfl ?_
  by_cases h : new.linked n = true
  · rw [if_pos h, List.filter_cons_of_pos h]
    rfl
  · rw [if_neg h, List.filter_cons_of_neg h]
    rfl

/-- A record without a chain field is put at the end. -/
theorem Table.append (h : Table rows top) (hn : new.addr = top)
    (ht : new.cell.type.linked = false) (hl : new.cell.link = none)
    (hs : new.cell.name = new.name) (hf : new.name ≠ []) (htop : top < top') :
    Table (rows ++ [new]) top' := by
  have fresh : top ∉ rows.map Row.addr := by
    intro mem
    obtain ⟨x, hx, same⟩ := List.mem_map.mp mem
    exact absurd (h.below x hx) (same ▸ Nat.lt_irrefl _)
  have same : rows.map (relink top top) = rows := map_relink_of_notMem fresh
  have order := h.inserted hn top
  have old {x : Row} (hx : x ∈ rows) : chain (recs (rows ++ [new])) x.addr
      = chain (recs rows) x.addr := by
    have chains := h.chain_old hn hx (Nat.ne_of_lt (h.below x hx))
    rwa [same] at chains
  have not_linked (n : Name) : ¬ new.linked n = true := by
    rw [Row.linked, ht, Bool.false_and]
    decide
  have rings (n : Name) : ring (rows ++ [new]) n = ring rows n := by
    have all := ring_insert rows new top top n
    rw [same] at all
    rw [all, if_neg (not_linked n), List.append_nil, ring_single,
      if_neg fun symbol => not_linked n (Row.linked_of_symbol symbol)]
    split
    · next empty => exact empty.symm
    · rfl
  rw [same] at order
  refine ⟨order, ?_, ?_, ?_, ?_, ?_, ?_, ?_⟩
  · intro x hx
    rcases List.mem_append.mp hx with hx | hx
    · exact Nat.lt_trans (h.below x hx) htop
    · obtain rfl := List.mem_singleton.mp hx
      exact hn ▸ htop
  · intro n a l hr
    rw [rings] at hr
    refine (h.path n a l hr).congr fun b hb => ?_
    obtain ⟨x, hx, rfl, _⟩ := mem_ring (hr ▸ hb : b ∈ ring rows n)
    exact old hx
  · intro x hx linked alone
    rw [rings] at alone
    rcases List.mem_append.mp hx with hx | hx
    · rw [old hx]
      exact h.alone x hx linked alone
    · obtain rfl := List.mem_singleton.mp hx
      rw [ht] at linked
      cases linked
  · intro x hx
    rw [rings]
    rcases List.mem_append.mp hx with hx | hx
    · exact h.named x hx
    · obtain rfl := List.mem_singleton.mp hx
      have out : x.addr ∉ (ring rows x.name).tail := by
        intro mem
        obtain ⟨y, hy, same, _⟩ := mem_ring (List.mem_of_mem_tail mem)
        exact absurd (h.below y hy) (by rw [same, hn]; exact Nat.lt_irrefl _)
      rw [if_neg out, hs]
  · intro x hx
    rcases List.mem_append.mp hx with hx | hx
    · exact h.filled x hx
    · obtain rfl := List.mem_singleton.mp hx
      exact hf
  · intro x hx
    rcases List.mem_append.mp hx with hx | hx
    · exact h.link x hx
    · obtain rfl := List.mem_singleton.mp hx
      rw [hl, ht]
      rfl
  · intro x hx m c link
    rcases List.mem_append.mp hx with hx | hx
    · obtain ⟨y, hy, facts⟩ := h.module x hx m c link
      exact ⟨y, List.mem_append_left _ hy, facts⟩
    · obtain rfl := List.mem_singleton.mp hx
      rw [hl] at link
      cases link

theorem Row.linked_iff {n : Name} {x : Row} :
    x.linked n = true ↔ x.cell.type.linked = true ∧ x.name = n := by
  rw [Row.linked, Bool.and_eq_true, beq_iff_eq]

/-- The record relinked is one of the circle of the name. -/
theorem Place.last_mem (hp : Place rows new root z) : z = new.addr ∨ z ∈ ring rows new.name := by
  cases hp with
  | alone empty stored first last => exact .inl last
  | behind circle stored last => exact .inr (last ▸ circle ▸ List.getLastD_mem_cons)

/-- The circle of the name, with the new record. -/
theorem Place.ring_eq (hp : Place rows new root z) (ht : new.cell.type.linked = true) (top : ℕ) :
    (ring (rows.map (relink z top) ++ [new]) new.name = [] ∧ ring rows new.name = [] ∧ root = new.addr)
    ∨ ∃ l, ring (rows.map (relink z top) ++ [new]) new.name = root :: l ∧
      ((ring rows new.name = [] ∧ l = [] ∧ root = new.addr ∧ z = new.addr) ∨
        ∃ l', ring rows new.name = root :: l' ∧ l = l' ++ [new.addr] ∧ z = l'.getLastD root) := by
  rw [ring_insert]
  cases hp with
  | alone empty stored first last =>
    rw [if_pos empty, ring_single, first]
    split
    · exact .inr ⟨[], rfl, .inl ⟨empty, rfl, rfl, last⟩⟩
    · exact .inl ⟨rfl, empty, rfl⟩
  | behind circle stored last =>
    rw [circle, if_neg nofun, if_pos (Row.linked_iff.mpr ⟨ht, rfl⟩)]
    exact .inr ⟨_, rfl, .inr ⟨_, rfl, rfl, last⟩⟩

/-- The other circles stay. -/
theorem ring_insert_of_ne (z top : ℕ) {n : Name} (hn : new.name ≠ n) :
    ring (rows.map (relink z top) ++ [new]) n = ring rows n := by
  have other : ¬ new.linked n = true := fun h => hn (Row.linked_iff.mp h).2
  rw [ring_insert, if_neg other, List.append_nil, ring_single,
    if_neg fun symbol => other (Row.linked_of_symbol symbol)]
  split
  · next empty => exact empty.symm
  · rfl

/-- A record is linked in at the end of its circle. -/
theorem Table.insert (h : Table rows top) (hn : new.addr = top) (hp : Place rows new root z)
    (ht : new.cell.type.linked = true) {m : ℕ} (hl : new.cell.link = some (m, root))
    (hm : ∃ y ∈ rows, y.addr = m ∧ y.cell.type = .MODTYP ∧ y.name = new.mod)
    (hf : new.name ≠ []) (htop : top < top') :
    Table (rows.map (relink z top) ++ [new]) top' := by
  have fresh {x : Row} (hx : x ∈ rows) : x.addr ≠ top := Nat.ne_of_lt (h.below x hx)
  -- an old record is relinked only if it is in the circle of the name
  have away {x : Row} (hx : x ∈ rows) (other : x.addr ∉ ring rows new.name) : x.addr ≠ z := by
    rintro rfl
    rcases hp.last_mem with same | mem
    · exact fresh hx (same.trans hn)
    · exact other mem
  have old {y : Row} (hy : y ∈ rows.map (relink z top)) :
      ∃ x ∈ rows, y = relink z top x ∧ y.addr = x.addr := by
    obtain ⟨x, hx, rfl⟩ := List.mem_map.mp hy
    exact ⟨x, hx, rfl, relink_addr z top x⟩
  have chain_top := h.chain_new (z := z) hn hl
  refine ⟨h.inserted hn z, ?_, ?_, ?_, ?_, ?_, ?_, ?_⟩
  · intro y hy
    rcases List.mem_append.mp hy with hy | hy
    · obtain ⟨x, hx, _, same⟩ := old hy
      exact same ▸ Nat.lt_trans (h.below x hx) htop
    · obtain rfl := List.mem_singleton.mp hy
      exact hn ▸ htop
  · intro n a l hr
    by_cases same : new.name = n
    · subst same
      rcases hp.ring_eq ht top with ⟨empty, _⟩ | ⟨l', here, cases⟩
      · rw [empty] at hr
        cases hr
      · obtain ⟨rfl, rfl⟩ := List.cons.inj (here.symm.trans hr)
        rcases cases with ⟨_, rfl, rfl, _⟩ | ⟨l', circle, rfl, rfl⟩
        · rw [← hn] at chain_top ⊢
          exact chain_top
        · have round := h.circle circle
          have member {b : ℕ} (hb : b ∈ root :: l') : ∃ x ∈ rows, x.addr = b ∧
              x.cell.type.linked = true := by
            obtain ⟨x, hx, rfl, linked⟩ := mem_ring (circle ▸ hb : b ∈ ring rows new.name)
            exact ⟨x, hx, rfl, (Row.linked_iff.mp linked).1⟩
          obtain ⟨x, hx, addr, linked⟩ := member (List.getLastD_mem_cons : l'.getLastD root ∈ _)
          rw [hn]
          refine round.path.snoc round.nodup ?_ (h.chain_last hn hx addr linked) chain_top
          intro b hb hz
          obtain ⟨x, hx, rfl, _⟩ := member hb
          exact h.chain_old hn hx hz
    · rw [ring_insert_of_ne z top same] at hr
      refine (h.path n a l hr).congr fun b hb => ?_
      obtain ⟨x, hx, rfl, linked⟩ := mem_ring (hr ▸ hb : b ∈ ring rows n)
      refine h.chain_old hn hx (away hx fun mem => same ?_)
      exact ((h.name_of_ring hx mem).1.symm.trans (Row.linked_iff.mp linked).2)
  · intro y hy linked alone
    rcases List.mem_append.mp hy with hy | hy
    · obtain ⟨x, hx, rfl, same⟩ := old hy
      rw [relink_name] at alone
      rw [relink_type] at linked
      rw [same] at alone ⊢
      have alone' : x.addr ∉ ring rows x.name := by
        intro mem
        refine alone ?_
        rw [ring_insert, if_neg (List.ne_nil_of_mem mem)]
        exact List.mem_append_left _ mem
      have out : x.addr ∉ ring rows new.name := by
        intro mem
        rw [(h.name_of_ring hx mem).1] at alone'
        exact alone' mem
      rw [h.chain_old hn hx (away hx out)]
      exact h.alone x hx linked alone'
    · obtain rfl := List.mem_singleton.mp hy
      rw [hn, chain_top]
      rcases hp.ring_eq ht top with ⟨_, _, rfl⟩ | ⟨l', here, cases⟩
      · rw [hn]
      · rw [here] at alone
        rcases cases with ⟨_, _, rfl, _⟩ | ⟨_, _, rfl, _⟩
        · exact absurd List.mem_cons_self alone
        · exact absurd (List.mem_cons_of_mem _ (List.mem_append_right _ List.mem_cons_self)) alone
  · intro y hy
    rcases List.mem_append.mp hy with hy | hy
    · obtain ⟨x, hx, rfl, same⟩ := old hy
      rw [relink_stored, relink_name, same, h.named x hx]
      refine if_congr ?_ rfl rfl
      rw [ring_insert]
      by_cases empty : ring rows x.name = []
      · rw [if_pos empty, empty, ring_single]
        split <;> exact Iff.rfl
      · rw [if_neg empty, List.tail_append_of_ne_nil empty, List.mem_append]
        refine ⟨.inl, fun mem => mem.resolve_right fun last => ?_⟩
        split at last
        · exact fresh hx ((List.mem_singleton.mp last).trans hn)
        · cases last
    · obtain rfl := List.mem_singleton.mp hy
      rw [ring_insert]
      cases hp with
      | alone empty stored _ _ =>
        rw [if_pos empty, ring_single, stored]
        split <;> rfl
      | behind circle stored _ =>
        rw [circle, if_neg (List.cons_ne_nil _ _), if_pos (Row.linked_iff.mpr ⟨ht, rfl⟩), stored,
          if_pos]
        exact List.mem_append_right _ List.mem_cons_self
  · intro y hy
    rcases List.mem_append.mp hy with hy | hy
    · obtain ⟨x, hx, rfl, _⟩ := old hy
      exact relink_name z top x ▸ h.filled x hx
    · obtain rfl := List.mem_singleton.mp hy
      exact hf
  · intro y hy
    rcases List.mem_append.mp hy with hy | hy
    · obtain ⟨x, hx, rfl, _⟩ := old hy
      rw [relink_type, ← h.link x hx, ← Option.isSome_map (f := Prod.fst), relink_link,
        Option.isSome_map]
    · obtain rfl := List.mem_singleton.mp hy
      rw [hl, ht]
      rfl
  · intro y hy m' c link
    -- the module of an old record and of the new one are old records
    have found : ∃ x ∈ rows, x.addr = m' ∧ x.cell.type = .MODTYP ∧ x.name = y.mod := by
      rcases List.mem_append.mp hy with hy | hy
      · obtain ⟨x, hx, rfl, _⟩ := old hy
        have first := relink_link z top x
        rw [link] at first
        obtain ⟨⟨_, c'⟩, was, same⟩ := Option.map_eq_some_iff.mp first.symm
        obtain rfl := same
        rw [relink_mod]
        exact h.module x hx _ _ was
      · obtain rfl := List.mem_singleton.mp hy
        rw [hl] at link
        obtain ⟨rfl, _⟩ := Prod.mk.inj (Option.some.inj link)
        exact hm
    obtain ⟨x, hx, facts⟩ := found
    refine ⟨relink z top x, List.mem_append_left _ (List.mem_map_of_mem hx), ?_⟩
    rw [relink_addr, relink_type, relink_name]
    exact facts

end insert

end RSX280.Lbr
