import RSX280.LbrLists
import RSX280.LbrReads

/-!
# The librarian's cross-reference

After `INITAB` the circles are closed when the module is kept, and also when it is discarded, unless
it mentions a symbol of a module kept before: then the last record of that circle points behind the
end of the table. Over whole circles the listings give every symbol once, with the modules that
refer to it and one of those that define it.
-/

namespace RSX280.Lbr

open Circular

/-! ### What the table and the listings should be -/

/-- A record, with its name and that of its module. -/
def view (t : List Rec) (r : Rec) : Except Stop View := do
  .ok { type := r.type, name := ← CPYN8 t r.addr, data := r.data,
        module := ← if r.link.isSome then some <$> moduleName t r.addr else .ok none }

/-- What a module has to leave in the table. -/
def Module.views (m : Module) : List View :=
  { type := .MODTYP, name := m.label.name, data := none, module := none }
    :: m.items.map (Item.view m.label.name)

/-- The module `k` is one of those that define the symbol, and one of those that refer to it. -/
def Defines (kept : List Module) (n k : Name) : Prop :=
  ∃ m ∈ kept, m.label.name = k ∧ ∃ i ∈ m.items, i.type = .GBLTYP ∧ i.label.name = n

def Refers (kept : List Module) (n k : Name) : Prop :=
  ∃ m ∈ kept, m.label.name = k ∧ ∃ i ∈ m.items, i.type = .EXTTYP ∧ i.label.name = n

/-- The table has the records of the kept modules, and those of one symbol are in one circle. -/
structure Good (st : St) (kept : List Module) : Prop where
  records : st.table.mapM (view st.table) = .ok (kept.flatMap Module.views)
  inside : ∀ r ∈ st.table, ∀ m c, r.link = some (m, c) →
    ∃ s ∈ st.table, s.addr = c ∧ s.link.isSome = true
      ∧ CPYN8 st.table c = CPYN8 st.table r.addr
  circles : ∀ r ∈ st.table, r.type.symbol = true →
    ∃ l, Circle (chain st.table) r.addr l ∧ ∀ s ∈ st.table, s.type.symbol = true →
      CPYN8 st.table s.addr = CPYN8 st.table r.addr → s.addr ∈ r.addr :: l

/-- The listings come to an end. Each symbol is listed once, with the modules that define it and
those that refer to it, and the symbols that none defines are undefined. -/
structure Listed (st : St) (kept : List Module) : Prop where
  lines : ∃ L, XREF st = .ok L ∧ (L.map Line.name).Nodup
    ∧ (∀ n, n ∈ L.map Line.name ↔ ∃ k, Defines kept n k ∨ Refers kept n k)
    ∧ ∀ line ∈ L, ∀ k, (line.defined = some k ↔ Defines kept line.name k)
      ∧ (k ∈ line.referenced ↔ Refers kept line.name k)
  undefined : ∃ U, LUNDEF st = .ok U ∧ U.Nodup
    ∧ ∀ n, n ∈ U ↔ (∃ k, Refers kept n k) ∧ ∀ k, ¬ Defines kept n k

/-! ### Between two modules -/

/-- The rows are those of the kept modules. -/
structure Between (st : St) (K : List Row) (kept : List Module) : Prop where
  rep : Rep st K
  here : st.MODPTR = st.TABPTR
  views : K.map Row.view = kept.flatMap Module.views

theorem mapM_of {α β γ : Type} {f : β → Except Stop γ} {g : α → β} {P : α → γ → Prop} {xs : List α}
    (h : ∀ x ∈ xs, ∃ y, f (g x) = .ok y ∧ P x y) :
    ∃ ys, (xs.map g).mapM f = .ok ys ∧ List.Forall₂ P xs ys := by
  induction xs with
  | nil => exact ⟨[], rfl, .nil⟩
  | cons x xs ih =>
    obtain ⟨y, first, hy⟩ := h x List.mem_cons_self
    obtain ⟨ys, rest, hys⟩ := ih fun x hx => h x (List.mem_cons_of_mem _ hx)
    refine ⟨y :: ys, ?_, .cons hy hys⟩
    rw [List.map_cons, List.mapM_cons, first, rest]
    rfl

/-- One result for each of those that have one. -/
theorem forall₂_flatten {α β : Type} {p : α → Bool} {Q : α → β → Prop} {xs : List α}
    {yss : List (List β)} (h : List.Forall₂ (fun x ys => (p x = true → ∃ y, ys = [y] ∧ Q x y)
      ∧ (p x = false → ys = [])) xs yss) : List.Forall₂ Q (xs.filter p) yss.flatten := by
  induction h with
  | nil => exact .nil
  | @cons x ys xs yss first _ ih =>
    cases hp : p x with
    | true =>
      obtain ⟨y, rfl, hy⟩ := first.1 hp
      rw [List.filter_cons_of_pos hp]
      exact .cons hy ih
    | false =>
      rw [List.filter_cons_of_neg (by simp [hp]), first.2 hp]
      exact ih

theorem forall₂_map_eq {α β γ : Type} {f : α → γ} {g : β → γ} {xs : List α} {ys : List β}
    (h : List.Forall₂ (fun x y => g y = f x) xs ys) : ys.map g = xs.map f := by
  induction h with
  | nil => rfl
  | cons first _ ih => rw [List.map_cons, List.map_cons, first, ih]

theorem forall₂_mem {α β : Type} {R : α → β → Prop} {xs : List α} {ys : List β} {y : β}
    (h : List.Forall₂ R xs ys) (hy : y ∈ ys) : ∃ x, R x y := by
  induction h with
  | nil => cases hy
  | @cons x _ _ _ first _ ih =>
    rcases List.mem_cons.mp hy with rfl | hy
    · exact ⟨x, first⟩
    · exact ih hy

section between

variable {st : St} {K : List Row} {kept : List Module} {n k : Name}

/-- A linked row has a view that names its module. -/
theorem mem_views (type : Typ) (ht : type.linked = true) :
    (∃ y ∈ K, y.cell.type = type ∧ y.name = n ∧ y.mod = k)
      ↔ ∃ v ∈ K.map Row.view, v.type = type ∧ v.name = n ∧ v.module = some k := by
  constructor
  · rintro ⟨y, hy, rfl, rfl, rfl⟩
    exact ⟨y.view, List.mem_map_of_mem hy, rfl, rfl, if_pos ht⟩
  · rintro ⟨v, hv, rfl, rfl, module⟩
    obtain ⟨y, hy, rfl⟩ := List.mem_map.mp hv
    have linked : y.cell.type.linked = true := ht
    have mod : some y.mod = some k := (if_pos linked).symm.trans module
    exact ⟨y, hy, rfl, rfl, Option.some.inj mod⟩

theorem mem_module_views (type : Typ) (ht : type.linked = true) :
    (∃ v ∈ kept.flatMap Module.views, v.type = type ∧ v.name = n ∧ v.module = some k)
      ↔ ∃ m ∈ kept, m.label.name = k ∧ ∃ i ∈ m.items, i.type = type ∧ i.label.name = n := by
  constructor
  · rintro ⟨v, hv, rfl, rfl, module⟩
    obtain ⟨m, hm, hv⟩ := List.mem_flatMap.mp hv
    rcases List.mem_cons.mp hv with rfl | hv
    · cases module
    · obtain ⟨i, hi, rfl⟩ := List.mem_map.mp hv
      have linked : i.type.linked = true := ht
      have mod : some m.label.name = some k := (if_pos linked).symm.trans module
      exact ⟨m, hm, Option.some.inj mod, i, hi, rfl, rfl⟩
  · rintro ⟨m, hm, rfl, i, hi, rfl, rfl⟩
    refine ⟨i.view m.label.name, List.mem_flatMap.mpr ⟨m, hm, ?_⟩, rfl, rfl, if_pos ht⟩
    exact List.mem_cons_of_mem _ (List.mem_map_of_mem hi)

theorem Between.defined_iff (h : Between st K kept) : Defined K n k ↔ Defines kept n k := by
  rw [Defined, mem_views .GBLTYP rfl, h.views, mem_module_views .GBLTYP rfl, Defines]

theorem Between.referenced_iff (h : Between st K kept) : Referenced K n k ↔ Refers kept n k := by
  rw [Referenced, mem_views .EXTTYP rfl, h.views, mem_module_views .EXTTYP rfl, Refers]

/-- The circles are as they should be. -/
theorem Between.good (h : Between st K kept) : Good st kept := by
  have wf := h.rep.wf
  have rows {r : Rec} (hr : r ∈ st.table) : ∃ x ∈ K, r = x.cell := by
    rw [h.rep.table] at hr
    obtain ⟨x, hx, rfl⟩ := List.mem_map.mp hr
    exact ⟨x, hx, rfl⟩
  have cells {x : Row} (hx : x ∈ K) : x.cell ∈ st.table := h.rep.table ▸ List.mem_map_of_mem hx
  have names {x : Row} (hx : x ∈ K) : CPYN8 st.table x.addr = .ok x.name :=
    h.rep.table ▸ wf.CPYN8_eq hx
  refine ⟨?_, ?_, ?_⟩
  · have each : ∀ x ∈ K, ∃ v, view st.table x.cell = .ok v ∧ v = x.view := by
      intro x hx
      refine ⟨_, ?_, rfl⟩
      rw [view, names hx, wf.link x hx]
      cases hl : x.cell.type.linked with
      | true =>
        rw [h.rep.table, wf.moduleName_eq hx hl]
        simp only [Row.view, hl]
        rfl
      | false =>
        simp only [Row.view, hl]
        rfl
    obtain ⟨vs, eq, all⟩ := mapM_of each
    have same : vs.map id = K.map Row.view := forall₂_map_eq all
    rw [← h.views, ← same, List.map_id, ← eq]
    exact congrArg (List.mapM (view st.table)) h.rep.table
  · intro r hr m c link
    obtain ⟨x, hx, rfl⟩ := rows hr
    have linked : x.cell.type.linked = true := by rw [← wf.link x hx, link]; rfl
    have next := chain_of_mem wf.nodup hx link
    have closed : ∃ y ∈ K, y.addr = c ∧ y.cell.type.linked = true ∧ y.name = x.name := by
      by_cases mem : x.addr ∈ ring K x.name
      · obtain ⟨l, round, same, _⟩ := wf.around mem
        obtain ⟨d, eq, into⟩ := round.path.next_eq List.mem_cons_self
        obtain rfl : d = c := Except.ok.inj (eq.symm.trans next)
        refine row_of_ring ((same d).mp ?_)
        rcases List.mem_append.mp into with later | home
        · exact List.mem_cons_of_mem _ later
        · exact List.mem_singleton.mp home ▸ List.mem_cons_self
      · have self := (wf.alone x hx linked mem).symm.trans next
        exact ⟨x, hx, Except.ok.inj self, linked, rfl⟩
    obtain ⟨y, hy, rfl, linked', name⟩ := closed
    refine ⟨y.cell, cells hy, rfl, (wf.link y hy).trans linked', ?_⟩
    rw [names hy, names hx, name]
  · intro r hr symbol
    obtain ⟨x, hx, rfl⟩ := rows hr
    have mem {y : Row} (hy : y ∈ K) (hs : y.cell.type.symbol = true) : y.addr ∈ ring K y.name :=
      mem_ring_of_symbol hy (by rw [Row.symbol, hs, Bool.true_and, beq_self_eq_true])
    obtain ⟨l, round, same, _⟩ := wf.around (mem hx symbol)
    refine ⟨l, h.rep.table ▸ round, fun s hs symbol' eq => ?_⟩
    obtain ⟨y, hy, rfl⟩ := rows hs
    rw [names hy, names hx] at eq
    exact (same _).mpr (Except.ok.inj eq ▸ mem hy symbol')

/-- No symbol is defined by two modules of different names. -/
def Single (kept : List Module) : Prop :=
  ∀ n k k', Defines kept n k → Defines kept n k' → k = k'

theorem Table.heads_nodup {top : ℕ} (h : Table K top) :
    ((K.filter (heads K)).map Row.name).Nodup := by
  refine List.Nodup.map_on ?_ ((h.nodup.of_map _).filter _)
  intro x hx y hy same
  obtain ⟨hx, firstx⟩ := List.mem_filter.mp hx
  obtain ⟨hy, firsty⟩ := List.mem_filter.mp hy
  rw [heads, beq_iff_eq] at firstx firsty
  rw [same] at firstx
  exact h.inj hx hy (Option.some.inj (firstx.symm.trans firsty))

theorem symbol_iff :
    (∃ y ∈ K, y.symbol n = true) ↔ ∃ k, Defined K n k ∨ Referenced K n k := by
  constructor
  · rintro ⟨y, hy, symbol⟩
    rw [Row.symbol, Bool.and_eq_true, beq_iff_eq] at symbol
    refine ⟨y.mod, ?_⟩
    cases type : y.cell.type with
    | GBLTYP => exact .inl ⟨y, hy, type, symbol.2, rfl⟩
    | EXTTYP => exact .inr ⟨y, hy, type, symbol.2, rfl⟩
    | MODTYP | COMTYP | LIBTYP | IDNTYP =>
      rw [type] at symbol
      cases symbol.1
  · rintro ⟨k, ⟨y, hy, type, name, _⟩ | ⟨y, hy, type, name, _⟩⟩ <;>
      exact ⟨y, hy, by rw [Row.symbol, type, name, beq_self_eq_true]; rfl⟩

/-- A name has a circle when one of the modules has a symbol of it. -/
theorem Between.ring_iff (h : Between st K kept) :
    ring K n ≠ [] ↔ ∃ k, Defines kept n k ∨ Refers kept n k := by
  simp only [← h.defined_iff, ← h.referenced_iff]
  rw [← symbol_iff]
  constructor
  · intro hr
    obtain ⟨a, l, hr⟩ := List.exists_cons_of_ne_nil hr
    obtain ⟨x, hx, _, symbol⟩ := ring_head hr
    exact ⟨x, hx, symbol⟩
  · rintro ⟨y, hy, symbol⟩
    exact List.ne_nil_of_mem (mem_ring_of_symbol hy symbol)

/-- The symbols that have a circle. -/
theorem Table.mem_heads {top : ℕ} (h : Table K top) :
    n ∈ (K.filter (heads K)).map Row.name ↔ ∃ k, Defined K n k ∨ Referenced K n k := by
  rw [← symbol_iff]
  constructor
  · intro mem
    obtain ⟨x, hx, rfl⟩ := List.mem_map.mp mem
    obtain ⟨hx, first⟩ := List.mem_filter.mp hx
    have symbol := ((h.heads_iff hx).mp first).2
    exact ⟨x, hx, by rw [Row.symbol, symbol, Bool.true_and, beq_self_eq_true]⟩
  · rintro ⟨y, hy, symbol⟩
    have mem := mem_ring_of_symbol hy symbol
    rcases hr : ring K n with _ | ⟨a, l⟩
    · rw [hr] at mem
      cases mem
    · obtain ⟨x, hx, rfl, first⟩ := ring_head hr
      rw [Row.symbol, Bool.and_eq_true, beq_iff_eq] at first
      refine List.mem_map.mpr ⟨x, List.mem_filter.mpr ⟨hx, ?_⟩, first.2⟩
      rw [heads, first.2, hr, List.head?_cons, beq_self_eq_true]

/-- The cross-reference has an entry for every symbol. -/
theorem Between.XREF_spec (h : Between st K kept) :
    ∃ L, XREF st = .ok L ∧ (L.map Line.name).Nodup
      ∧ (∀ n, n ∈ L.map Line.name ↔ ∃ k, Defines kept n k ∨ Refers kept n k)
      ∧ ∀ line ∈ L, Entry K line.name line := by
  obtain ⟨yss, eq, all⟩ := mapM_of fun x hx => h.rep.wf.xr1_spec (x := x) hx
  have entries := forall₂_flatten all
  have names : yss.flatten.map Line.name = (K.filter (heads K)).map Row.name :=
    forall₂_map_eq (entries.imp fun _ _ entry => entry.name)
  refine ⟨yss.flatten, ?_, ?_, fun n => ?_, fun line hl => ?_⟩
  · have mapped : st.table.mapM (xr1 st.table) = .ok yss := h.rep.table ▸ eq
    rw [XREF, mapped]
    rfl
  · exact names ▸ h.rep.wf.heads_nodup
  · rw [names, h.rep.wf.mem_heads]
    simp only [h.defined_iff, h.referenced_iff]
  · obtain ⟨x, entry⟩ := forall₂_mem entries hl
    exact entry.name.symm ▸ entry

theorem Between.LUNDEF_spec (h : Between st K kept) :
    ∃ U, LUNDEF st = .ok U ∧ U.Nodup
      ∧ ∀ n, n ∈ U ↔ (∃ k, Refers kept n k) ∧ ∀ k, ¬ Defines kept n k := by
  classical
  obtain ⟨yss, eq, all⟩ := mapM_of fun x hx => h.rep.wf.lu1_spec (x := x) hx
  let p (x : Row) : Bool := heads K x && decide (∀ k, ¬ Defined K x.name k)
  have hp (x : Row) : p x = true ↔ heads K x = true ∧ ∀ k, ¬ Defined K x.name k := by
    rw [Bool.and_eq_true, decide_eq_true_eq]
  have entries : List.Forall₂ (fun x n => n = x.name) (K.filter p) yss.flatten := by
    refine forall₂_flatten (all.imp fun x ns each => ⟨fun yes => ?_, fun no => ?_⟩)
    · exact ⟨_, each.1 ((hp x).mp yes), rfl⟩
    · exact each.2 fun yes => absurd ((hp x).mpr yes) (by rw [no]; decide)
  have names : yss.flatten = (K.filter p).map Row.name := by
    rw [← forall₂_map_eq entries]
    exact (List.map_id' _).symm
  have sub : (K.filter p).Sublist (K.filter (heads K)) := by
    have both : K.filter p = (K.filter (heads K)).filter
        fun x => decide (∀ k, ¬ Defined K x.name k) := by
      rw [List.filter_filter]
      exact List.filter_congr fun x _ => Bool.and_comm _ _
    rw [both]
    exact List.filter_sublist
  refine ⟨yss.flatten, ?_, ?_, fun n => ?_⟩
  · have mapped : st.table.mapM (lu1 st.table) = .ok yss := h.rep.table ▸ eq
    rw [LUNDEF, mapped]
    rfl
  · rw [names]
    exact (sub.map Row.name).nodup h.rep.wf.heads_nodup
  · simp only [← h.defined_iff, ← h.referenced_iff]
    rw [names]
    constructor
    · intro mem
      obtain ⟨x, hx, rfl⟩ := List.mem_map.mp mem
      obtain ⟨hx, yes⟩ := List.mem_filter.mp hx
      obtain ⟨first, none⟩ := (hp x).mp yes
      have mentioned := h.rep.wf.mem_heads.mp
        (List.mem_map_of_mem (List.mem_filter.mpr ⟨hx, first⟩))
      obtain ⟨k, defined | referenced⟩ := mentioned
      · exact absurd defined (none k)
      · exact ⟨⟨k, referenced⟩, none⟩
    · rintro ⟨⟨k, referenced⟩, none⟩
      have mem := h.rep.wf.mem_heads.mpr ⟨k, .inr referenced⟩
      obtain ⟨x, hx, rfl⟩ := List.mem_map.mp mem
      obtain ⟨hx, first⟩ := List.mem_filter.mp hx
      exact List.mem_map_of_mem (List.mem_filter.mpr ⟨hx, (hp x).mpr ⟨first, none⟩⟩)

/-- The listings are right exactly when one module at most defines a symbol. -/
theorem Between.listed_single (h : Between st K kept) : Listed st kept ↔ Single kept := by
  obtain ⟨L, eq, nodup, names, entries⟩ := h.XREF_spec
  constructor
  · rintro ⟨⟨L', eq', _, _, columns⟩, _⟩ n k k' hk hk'
    obtain rfl : L = L' := Except.ok.inj (eq.symm.trans eq')
    obtain ⟨line, hl, rfl⟩ := List.mem_map.mp ((names n).mpr ⟨k, .inl hk⟩)
    exact Option.some.inj
      (((columns line hl k).1.mpr hk).symm.trans ((columns line hl k').1.mpr hk'))
  · intro single
    refine ⟨⟨L, eq, nodup, names, fun line hl k => ⟨⟨fun d => ?_, fun hd => ?_⟩, ?_⟩⟩, h.LUNDEF_spec⟩
    · exact h.defined_iff.mp ((entries line hl).defined k d)
    · cases d : line.defined with
      | none => exact absurd (h.defined_iff.mpr hd) ((entries line hl).undefined d k)
      | some k' =>
        exact congrArg some
          (single line.name k' k (h.defined_iff.mp ((entries line hl).defined k' d)) hd)
    · exact ((entries line hl).referenced k).trans h.referenced_iff

end between

/-! ### The runs -/

/-- The module an event adds to the table. -/
def Event.kept : Event → List Module
  | .opens => []
  | .reads m true => [m]
  | .reads _ false => []

/-- A module that is discarded mentions no symbol of the modules kept before. -/
def Event.Apart (kept : List Module) : Event → Prop
  | .reads m false => ∀ i ∈ m.items, i.type.linked = true →
      ¬ ∃ k, Defines kept i.label.name k ∨ Refers kept i.label.name k
  | _ => True

def Apart (kept : List Module) : List Event → Prop
  | [] => True
  | e :: es => e.Apart kept ∧ Apart (kept ++ e.kept) es

section runs

variable {sw : Switches} {st : St} {K C : List Row} {kept : List Module}

theorem recs_append (K C : List Row) : recs (K ++ C) = recs K ++ recs C := List.map_append

/-- What `INITAB` leaves of the table. -/
theorem Reading.cut {mod : Name} (h : Reading st K C mod) :
    (st.table.filter fun r => r.addr < st.MODPTR) = recs K := by
  have low : (recs K).filter (fun r => r.addr < st.MODPTR) = recs K := by
    refine List.filter_eq_self.mpr fun r hr => ?_
    obtain ⟨x, hx, rfl⟩ := List.mem_map.mp hr
    exact decide_eq_true (h.low x hx)
  have high : (recs C).filter (fun r => r.addr < st.MODPTR) = [] := by
    refine List.filter_eq_nil_iff.mpr fun r hr => ?_
    obtain ⟨x, hx, rfl⟩ := List.mem_map.mp hr
    rw [decide_eq_true_eq]
    exact Nat.not_lt_of_le (h.high x hx)
  rw [h.rep.table, recs_append, List.filter_append, low, high, List.append_nil]

theorem Reading.MODPTR_lt {mod : Name} (h : Reading st K C mod) : st.MODPTR < st.TABPTR := by
  obtain ⟨y, hy, addr, _⟩ := h.name
  exact addr ▸ h.rep.wf.below y (List.mem_append_right _ hy)

/-- The records of a module. -/
theorem Between.reads (hx : sw.CR = true ∨ sw.UN = true) (hb : sw.BR = false)
    (h : Between st K kept) (m : Module) :
    (do m.items.foldlM (enter sw) (← ADDSYM sw .MODTYP m.label.name none none st))
        = .error .memory
      ∨ ∃ st' f C, (do m.items.foldlM (enter sw) (← ADDSYM sw .MODTYP m.label.name none none st))
        = .ok st' ∧ Reading st' (K.map f) C m.label.name ∧ (∀ x, Alike x (f x))
        ∧ C.map Row.view = m.views ∧ st'.MODPTR = st.TABPTR
        ∧ ((∀ i ∈ m.items, i.type.linked = true → ring K i.label.name = []) → K.map f = K) := by
  rcases ADDSYM_spec hb .MODTYP none none m.label.le h.rep.room h.rep.top with out |
    ⟨M, gs, T, added, more, room, top⟩
  · rw [out]
    exact .inl rfl
  · let cell : Rec := ⟨st.TABPTR, .MODTYP, m.label.name, none, none⟩
    let first : Row := { cell, name := m.label.name, mod := m.label.name }
    rw [added]
    have reading : Reading { st with table := st.table ++ [cell], TABPTR := T, MEMTOP := M, grants := gs }
        K [first] m.label.name := by
      refine ⟨⟨?_, ?_, room, top⟩, ?_, ?_, ?_⟩
      · rw [recs_append, ← h.rep.table]
        rfl
      · exact h.rep.wf.append rfl rfl rfl rfl m.label.ne_nil more
      · exact ⟨first, List.mem_cons_self, h.here.symm, rfl, rfl⟩
      · intro x hx
        exact h.here.symm ▸ h.rep.wf.below x hx
      · intro x hx
        obtain rfl := List.mem_singleton.mp hx
        exact Nat.le_of_eq h.here
    rcases reading.items hx hb m.items with out | ⟨st', f, C, done, reading', alike, views, same, stays⟩
    · exact .inl out
    · exact .inr ⟨st', f, C, done, reading', alike, views, same.trans h.here, stays⟩

/-- A module that is kept. -/
theorem Reading.keep {m : Module} {f : Row → Row} {mod : Name}
    (hx : sw.CR = true ∨ sw.UN = true) (h : Reading st (K.map f) C mod) (hf : ∀ x, Alike x (f x))
    (hK : K.map Row.view = kept.flatMap Module.views) (hC : C.map Row.view = m.views) :
    Between (INITAB sw true st) (K.map f ++ C) (kept ++ [m]) := by
  have kept_st : INITAB sw true st = { st with MODPTR := st.TABPTR } := if_pos hx
  rw [kept_st]
  obtain ⟨table, wf, room, top⟩ := h.rep
  refine ⟨⟨table, wf, room, top⟩, rfl, ?_⟩
  have old : (K.map f).map Row.view = K.map Row.view := by
    rw [List.map_map]
    exact List.map_congr_left fun x _ => (hf x).view
  rw [List.map_append, old, hK, hC, List.flatMap_append, List.flatMap_singleton]

theorem INITAB_cut (hx : sw.CR = true ∨ sw.UN = true) (st : St) :
    INITAB sw false st
      = { st with table := st.table.filter fun r => r.addr < st.MODPTR, TABPTR := st.MODPTR } :=
  if_pos hx

/-- A module that is discarded and has left the other records alone. -/
theorem Reading.discard {mod : Name} {st₀ : St} (hx : sw.CR = true ∨ sw.UN = true)
    (h : Reading st K C mod) (h₀ : Between st₀ K kept) (same : st.MODPTR = st₀.TABPTR) :
    Between (INITAB sw false st) K kept := by
  rw [INITAB_cut hx, h.cut]
  refine ⟨⟨rfl, same ▸ h₀.rep.wf, ?_, h.rep.top⟩, rfl, h₀.views⟩
  exact Nat.le_trans (Nat.le_of_lt h.MODPTR_lt) h.rep.room

/-- A module that is discarded and has linked a record to a circle of the others leaves a chain field
that points behind the table. -/
theorem Reading.dangling {mod n : Name} (hx : sw.CR = true ∨ sw.UN = true)
    (h : Reading st K C mod) (hr : ring K n ≠ []) (hl : ∃ y ∈ C, y.linked n = true)
    (kept : List Module) : ¬ Good (INITAB sw false st) kept := by
  intro good
  rw [INITAB_cut hx, h.cut] at good
  obtain ⟨y, hy, linked⟩ := hl
  have more : (C.filter (Row.linked n)).map Row.addr ≠ [] :=
    List.ne_nil_of_mem (List.mem_map_of_mem (List.mem_filter.mpr ⟨hy, linked⟩))
  obtain ⟨a, l, circle⟩ := List.exists_cons_of_ne_nil hr
  obtain ⟨c, l', rest⟩ := List.exists_cons_of_ne_nil more
  have whole : ring (K ++ C) n = a :: (l ++ c :: l') := by
    rw [ring_append, if_neg hr, circle, rest, List.cons_append]
  have next := (path_append.mp (h.rep.wf.path n a _ whole)).1.last_next
  -- the last of the records kept leads to the first of the others
  have mem : l.getLastD a ∈ ring K n := circle ▸ List.getLastD_mem_cons
  obtain ⟨z, hz, addr, _⟩ := row_of_ring mem
  have hz' : z ∈ K ++ C := List.mem_append_left _ hz
  rw [← addr, chain_eq h.rep.wf.nodup hz'] at next
  split at next
  · next m d link =>
    obtain rfl : d = c := Except.ok.inj next
    obtain ⟨s, hs, rfl, _⟩ := good.inside z.cell (List.mem_map_of_mem hz) m d link
    obtain ⟨x, hx, rfl⟩ := List.mem_map.mp hs
    have behind : x.addr ∈ (C.filter (Row.linked n)).map Row.addr := rest ▸ List.mem_cons_self
    obtain ⟨w, hw, same⟩ := List.mem_map.mp behind
    have high := h.high w (List.mem_filter.mp hw).1
    exact absurd (h.low x hx) (Nat.not_lt_of_le (same ▸ high))
  · cases next

theorem step_reads (st : St) (m : Module) (keep : Bool) :
    step sw st (.reads m keep)
      = (do m.items.foldlM (enter sw) (← ADDSYM sw .MODTYP m.label.name none none st))
        >>= fun st => .ok (INITAB sw keep st) := by
  simp only [step, bind_assoc]

/-- From one `INITAB` to the next. -/
theorem Between.step (hx : sw.CR = true ∨ sw.UN = true) (hb : sw.BR = false)
    (h : Between st K kept) (e : Event) :
    step sw st e = .error .memory ∨ ∃ st', step sw st e = .ok st'
      ∧ (e.Apart kept ∧ (∃ K', Between st' K' (kept ++ e.kept))
        ∨ ¬ e.Apart kept ∧ ¬ Good st' (kept ++ e.kept)) := by
  cases e with
  | opens =>
    refine .inr ⟨_, rfl, .inl ⟨trivial, K, ?_⟩⟩
    have all : (st.table.filter fun r => r.addr < st.MODPTR) = recs K := by
      rw [h.rep.table]
      refine List.filter_eq_self.mpr fun r hr => ?_
      obtain ⟨x, hx, rfl⟩ := List.mem_map.mp hr
      exact decide_eq_true (h.here.symm ▸ h.rep.wf.below x hx)
    rw [INITAB_cut hx, all, Event.kept, List.append_nil, h.here]
    exact ⟨⟨rfl, h.rep.wf, h.rep.room, h.rep.top⟩, rfl, h.views⟩
  | reads m keep =>
    rw [step_reads]
    rcases h.reads hx hb m with out | ⟨st', f, C, done, reading, alike, views, same, stays⟩
    · rw [out]
      exact .inl rfl
    · rw [done]
      refine .inr ⟨_, rfl, ?_⟩
      cases keep with
      | true => exact .inl ⟨trivial, _, reading.keep hx alike h.views views⟩
      | false =>
        rw [Event.kept, List.append_nil]
        by_cases apart : (Event.reads m false).Apart kept
        · have left : K.map f = K := stays fun i hi linked =>
            of_not_not fun hr => apart i hi linked (h.ring_iff.mp hr)
          rw [left] at reading
          exact .inl ⟨apart, K, reading.discard hx h same⟩
        · refine .inr ⟨apart, ?_⟩
          obtain ⟨i, hi, linked, mentioned⟩ : ∃ i ∈ m.items, i.type.linked = true
              ∧ ∃ k, Defines kept i.label.name k ∨ Refers kept i.label.name k := by
            simpa only [Event.Apart, not_forall, not_not, exists_prop] using apart
          refine reading.dangling hx (n := i.label.name) ?_ ?_ kept
          · rw [ring_alike alike]
            exact h.ring_iff.mpr mentioned
          · have mem : i.view m.label.name ∈ C.map Row.view := by
              rw [views]
              exact List.mem_cons_of_mem _ (List.mem_map_of_mem hi)
            obtain ⟨y, hy, same⟩ := List.mem_map.mp mem
            have type : y.cell.type = i.type := congrArg View.type same
            have name : y.name = i.label.name := congrArg View.name same
            exact ⟨y, hy, Row.linked_iff.mpr ⟨type ▸ linked, name⟩⟩

theorem run_cons (st : St) (e : Event) (es : List Event) :
    run sw st (e :: es) = Lbr.step sw st e >>= fun st => run sw st es := List.foldlM_cons

/-- A run in which every `INITAB` leaves closed circles, and only such a run. -/
theorem Between.run (hx : sw.CR = true ∨ sw.UN = true) (hb : sw.BR = false)
    (h : Between st K kept) {es : List Event} (room : run sw st es ≠ .error .memory) :
    (Apart kept es → ∀ p, p <+: es →
        ∃ st' K', run sw st p = .ok st' ∧ Between st' K' (kept ++ p.flatMap Event.kept))
      ∧ ((∀ p, p <+: es → ∃ st', run sw st p = .ok st' ∧ Good st' (kept ++ p.flatMap Event.kept))
        → Apart kept es) := by
  induction es generalizing st K kept with
  | nil =>
    refine ⟨fun _ p hp => ?_, fun _ => trivial⟩
    obtain rfl := List.prefix_nil.mp hp
    exact ⟨st, K, rfl, (List.append_nil kept).symm ▸ h⟩
  | cons e es ih =>
    rw [run_cons] at room
    rcases h.step hx hb e with out | ⟨st₁, done, cases⟩
    · rw [out] at room
      exact absurd rfl room
    · rw [done] at room
      have first (p : List Event) : Lbr.run sw st (e :: p) = Lbr.run sw st₁ p := by
        rw [run_cons, done]
        rfl
      rcases cases with ⟨apart, K₁, h₁⟩ | ⟨meets, bad⟩
      · obtain ⟨forth, back⟩ := ih h₁ room
        constructor
        · rintro ⟨_, rest⟩ p begins
          rcases List.prefix_cons_iff.mp begins with rfl | ⟨p, rfl, hp⟩
          · exact ⟨st, K, rfl, (List.append_nil kept).symm ▸ h⟩
          · rw [first, List.flatMap_cons, ← List.append_assoc]
            exact forth rest p hp
        · intro good
          refine ⟨apart, back fun p hp => ?_⟩
          have later := good (e :: p) (List.prefix_cons_inj e |>.mpr hp)
          rwa [first, List.flatMap_cons, ← List.append_assoc] at later
      · refine ⟨fun h => absurd h.1 meets, fun good => absurd ?_ bad⟩
        obtain ⟨st', eq, this⟩ := good [e] (List.prefix_cons_inj e |>.mpr List.nil_prefix)
        rw [first] at eq
        obtain rfl : st₁ = st' := Except.ok.inj eq
        rwa [List.flatMap_singleton] at this

end runs

/-- The memory when `LBR` starts to read: what the task may still grow to ends before the last
bytes of the 64K. -/
structure Start where
  SYMTAB : ℕ
  MEMTOP : ℕ
  grants : List Bool
  room : SYMTAB ≤ MEMTOP
  top : MEMTOP + 2048 * grants.count true < 65504

/-- The empty table. -/
def Start.st (s : Start) : St :=
  { SYMTAB := s.SYMTAB, table := [], TABPTR := s.SYMTAB, MODPTR := s.SYMTAB, MEMTOP := s.MEMTOP,
    grants := s.grants }

/-- The modules kept. -/
def keptOf (es : List Event) : List Module := es.flatMap Event.kept

theorem Start.between (s : Start) : Between s.st [] [] := by
  refine ⟨⟨rfl, ?_, s.room, s.top⟩, rfl, rfl⟩
  exact ⟨.nil, nofun, nofun, nofun, nofun, nofun, nofun, nofun⟩

/-- After every `INITAB` the table and the listings are right exactly when no discarded module
mentions a symbol of a module kept before it, and no two kept modules define the same symbol. -/
theorem listed_iff {sw : Switches} (hx : sw.CR = true ∨ sw.UN = true) (hb : sw.BR = false)
    (s : Start) {es : List Event} (room : run sw s.st es ≠ .error .memory) :
    (∀ p, p <+: es → ∃ st, run sw s.st p = .ok st ∧ Good st (keptOf p) ∧ Listed st (keptOf p))
      ↔ Apart [] es ∧ Single (keptOf es) := by
  obtain ⟨forth, back⟩ := s.between.run hx hb room
  constructor
  · intro all
    have apart : Apart [] es := back fun p hp => by
      obtain ⟨st, done, good, _⟩ := all p hp
      exact ⟨st, done, good⟩
    refine ⟨apart, ?_⟩
    obtain ⟨st, done, _, listed⟩ := all es List.prefix_rfl
    obtain ⟨st', K, done', between⟩ := forth apart es List.prefix_rfl
    obtain rfl : st = st' := Except.ok.inj (done.symm.trans done')
    exact between.listed_single.mp listed
  · rintro ⟨apart, single⟩ p hp
    obtain ⟨st, K, done, between⟩ := forth apart p hp
    have sub : keptOf p ⊆ keptOf es := by
      obtain ⟨rest, rfl⟩ := hp
      rw [keptOf, keptOf, List.flatMap_append]
      exact List.subset_append_left _ _
    have single' : Single (keptOf p) := by
      rintro n k k' ⟨m, hm, facts⟩ ⟨m', hm', facts'⟩
      exact single n k k' ⟨m, sub hm, facts⟩ ⟨m', sub hm', facts'⟩
    exact ⟨st, done, between.good, between.listed_single.mpr single'⟩

/-- A name of one letter. -/
def letter (c : ℕ) : Label := { name := [c], pos := Nat.one_pos, le := Nat.one_le_ofNat }

/-- A module with a symbol that it defines and one that it refers to. -/
def small (name defined referenced : ℕ) : Module :=
  { label := letter name,
    items := [{ type := .GBLTYP, label := letter defined, data := (64, 0) },
      { type := .EXTTYP, label := letter referenced, data := (64, 3) }] }

def someStart : Start :=
  { SYMTAB := 8192, MEMTOP := 12287, grants := [true], room := by decide,
    top := Nat.le_of_ble_eq_true rfl }

/-- Three modules; the one that uses none of the others is discarded. -/
def threeModules : List Event :=
  [.opens, .reads (small 65 70 71) true, .reads (small 66 72 73) false, .reads (small 67 71 70) true]

theorem listed_three :
    ∃ st, run { CR := true, UN := false, BR := false } someStart.st threeModules = .ok st
      ∧ Good st (keptOf threeModules) ∧ Listed st (keptOf threeModules) := by
  have done : ∃ st, run { CR := true, UN := false, BR := false } someStart.st threeModules
      = .ok st := ⟨_, rfl⟩
  obtain ⟨st, done⟩ := done
  refine (listed_iff (.inl rfl) rfl someStart (done ▸ nofun)).mpr ⟨?_, ?_⟩ _ List.prefix_rfl
  · refine ⟨trivial, trivial, ?_, trivial, trivial⟩
    rintro i hi _ ⟨k, h⟩
    simp [Defines, Refers, small, letter, Event.kept] at hi h
    rcases hi with rfl | rfl <;> simp at h
  · rintro n k k' h h'
    simp [Defines, keptOf, threeModules, small, letter, Event.kept] at h h'
    rcases h with ⟨rfl, rfl⟩ | ⟨rfl, rfl⟩ <;> simpa using h'

/-- A discarded module that refers to a symbol of a kept one. -/
theorem not_listed_discarded :
    ¬ ∀ p, p <+: [.opens, .reads (small 65 70 71) true, .reads (small 66 72 70) false] →
      ∃ st, run { CR := true, UN := false, BR := false } someStart.st p = .ok st
        ∧ Good st (keptOf p) ∧ Listed st (keptOf p) := by
  intro all
  have done : ∃ st, run { CR := true, UN := false, BR := false } someStart.st
      [.opens, .reads (small 65 70 71) true, .reads (small 66 72 70) false] = .ok st := ⟨_, rfl⟩
  have room : run { CR := true, UN := false, BR := false } someStart.st
      [.opens, .reads (small 65 70 71) true, .reads (small 66 72 70) false] ≠ .error .memory := by
    obtain ⟨st, done⟩ := done
    rw [done]
    nofun
  obtain ⟨_, back⟩ := someStart.between.run (.inl rfl) rfl room
  obtain ⟨_, _, apart, _⟩ := back fun p hp => by
    obtain ⟨st, run, good, _⟩ := all p hp
    exact ⟨st, run, good⟩
  refine apart { type := .EXTTYP, label := letter 70, data := (64, 3) } ?_ rfl ⟨[65], .inl ?_⟩
  · exact List.mem_cons_of_mem _ List.mem_cons_self
  · exact ⟨small 65 70 71, List.mem_cons_self, rfl, _, List.mem_cons_self, rfl, rfl⟩

end RSX280.Lbr
