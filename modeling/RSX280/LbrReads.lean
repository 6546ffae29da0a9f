import RSX280.LbrTable
import Mathlib.Tactic.Linarith

/-!
# Reading a module

Every item of a module goes behind the rows there are, and a symbol is linked in at the end of its
circle. The records of the modules kept before stay as they are, unless the module mentions one of
their symbols: then the last record of that circle leads to one of the new module.
-/

namespace RSX280.Lbr

open Circular

/-- The state holds the rows, and the memory never reaches the end of the 64K. -/
structure Rep (st : St) (rows : List Row) : Prop where
  table : st.table = recs rows
  wf : Table rows st.TABPTR
  room : st.TABPTR ≤ st.MEMTOP
  top : st.MEMTOP + 2048 * st.grants.count true < 65504

section enter

variable {sw : Switches} {st : St} {rows : List Row}

theorem CHKMEM_spec (room : st.TABPTR ≤ st.MEMTOP)
    (top : st.MEMTOP + 2048 * st.grants.count true < 65504) :
    CHKMEM st = .error .memory ∨ ∃ MEMTOP grants,
      CHKMEM st = .ok { st with MEMTOP, grants } ∧ st.TABPTR + 32 ≤ MEMTOP
        ∧ MEMTOP + 2048 * grants.count true < 65504 := by
  have low : st.MEMTOP < 65504 := Nat.lt_of_le_of_lt (Nat.le_add_right _ _) top
  have small : (st.TABPTR + 32) % 65536 = st.TABPTR + 32 :=
    Nat.mod_eq_of_lt (by linarith)
  rw [CHKMEM, small]
  by_cases fits : st.TABPTR + 32 ≤ st.MEMTOP
  · exact .inr ⟨st.MEMTOP, st.grants, if_pos fits, fits, top⟩
  · rw [if_neg fits, INCMEM]
    cases hg : st.grants with
    | nil => exact .inl rfl
    | cons given grants =>
      rw [hg] at top
      cases given with
      | false => exact .inl rfl
      | true =>
        rw [List.count_cons_self] at top
        refine .inr ⟨st.MEMTOP + 2048, grants, if_pos (by linarith), by linarith, by linarith⟩

/-- The record `ADDSYM` stores, where there is memory for it. -/
theorem ADDSYM_spec (hb : sw.BR = false) (type : Typ) {name : Name} (data link : Option (ℕ × ℕ))
    (hn : name.length ≤ 8) (room : st.TABPTR ≤ st.MEMTOP)
    (top : st.MEMTOP + 2048 * st.grants.count true < 65504) :
    ADDSYM sw type name data link st = .error .memory ∨ ∃ MEMTOP grants TABPTR,
      ADDSYM sw type name data link st = .ok { st with
        table := st.table ++ [{ addr := st.TABPTR, type, name, data, link }], TABPTR, MEMTOP, grants }
      ∧ st.TABPTR < TABPTR ∧ TABPTR ≤ MEMTOP ∧ MEMTOP + 2048 * grants.count true < 65504 := by
  rw [ADDSYM, if_neg (by simp [hb])]
  rcases CHKMEM_spec room top with out | ⟨MEMTOP, grants, checked, fits, top⟩
  · rw [out]
    exact .inl rfl
  · rw [checked]
    refine .inr ⟨MEMTOP, grants, _, rfl, ?_, ?_, top⟩
    · exact Nat.lt_add_of_pos_right (by unfold Rec.size; omega)
    · unfold Rec.size
      dsimp only
      split_ifs <;> omega

/-- What a record says, apart from its name being suppressed. -/
structure View where
  type : Typ
  name : Name
  data : Option (ℕ × ℕ)
  module : Option Name
  deriving DecidableEq

def Row.view (x : Row) : View :=
  { type := x.cell.type, name := x.name, data := x.cell.data,
    module := if x.cell.type.linked then some x.mod else none }

def Item.view (mod : Name) (i : Item) : View :=
  { type := i.type, name := i.label.name,
    data := if i.type.linked then some i.data else none,
    module := if i.type.linked then some mod else none }

/-- The row of an item stored at an address. -/
def Item.row (i : Item) (mod : Name) (addr : ℕ) (name : Name) (data link : Option (ℕ × ℕ)) : Row :=
  let cell := { addr, type := i.type, name, data, link }
  { cell, name := i.label.name, mod }

theorem Label.ne_nil (l : Label) : l.name ≠ [] := List.ne_nil_of_length_pos l.pos

/-- What entering an item does to the rows. -/
structure Enters (st : St) (rows : List Row) (mod : Name) (i : Item) (st' : St) (z : ℕ) (new : Row) :
    Prop where
  rep : Rep st' (rows.map (relink z st.TABPTR) ++ [new])
  view : new.view = i.view mod
  mod : new.mod = mod
  addr : new.addr = st.TABPTR
  MODPTR : st'.MODPTR = st.MODPTR
  last : z = st.TABPTR ∨ i.type.linked = true ∧ z ∈ ring rows i.label.name

theorem fresh_of_table {top : ℕ} (h : Table rows top) : top ∉ rows.map Row.addr := by
  intro mem
  obtain ⟨x, hx, same⟩ := List.mem_map.mp mem
  exact absurd (h.below x hx) (same ▸ Nat.lt_irrefl _)

theorem enter_plain (hb : sw.BR = false) (hs : Rep st rows) (mod : Name) {i : Item}
    (hi : i.type.linked = false) :
    enter sw st i = .error .memory ∨ ∃ st' z new, enter sw st i = .ok st'
      ∧ Enters st rows mod i st' z new := by
  have plain : enter sw st i = ADDSYM sw i.type i.label.name none none st := by
    unfold enter
    revert hi
    cases i.type <;> simp [Typ.linked]
  rw [plain]
  rcases ADDSYM_spec hb i.type none none i.label.le hs.room hs.top with out | ⟨M, gs, T, added, more,
    room, top⟩
  · exact .inl out
  · let new := i.row mod st.TABPTR i.label.name none none
    have same : rows.map (relink st.TABPTR st.TABPTR) = rows :=
      map_relink_of_notMem (fresh_of_table hs.wf)
    refine .inr ⟨_, st.TABPTR, new, added, ?_, ?_, rfl, rfl, rfl, .inl rfl⟩
    · rw [same]
      refine ⟨?_, ?_, room, top⟩
      · simp only [hs.table, recs, List.map_append]
        rfl
      · exact hs.wf.append rfl hi rfl rfl i.label.ne_nil more
    · simp only [Row.view, Item.view, hi, new, Item.row]
      rfl

/-- `ADDSV` with a cross-reference. -/
theorem ADDSV_spec (hx : sw.CR = true ∨ sw.UN = true) (hb : sw.BR = false) (hs : Rep st rows)
    {mod : Name} (hm : ∃ y ∈ rows, y.addr = st.MODPTR ∧ y.cell.type = .MODTYP ∧ y.name = mod)
    {i : Item} (hi : i.type.linked = true) :
    ADDSV sw i.type i.label.name i.data st = .error .memory ∨ ∃ st' z new,
      ADDSV sw i.type i.label.name i.data st = .ok st' ∧ Enters st rows mod i st' z new := by
  obtain ⟨stored, root, z, found, suppressed, short, chained⟩ : ∃ (stored : Name) (root z : ℕ),
      ((FNDSYM i.label.name st.table).map Rec.addr).getD st.TABPTR = root
      ∧ (if (FNDSYM i.label.name st.table).isSome then [] else i.label.name) = stored
      ∧ stored.length ≤ 8
      ∧ Place rows (i.row mod st.TABPTR stored (some i.data) (some (st.MODPTR, root))) root z := by
    have first := hs.wf.FNDSYM_eq i.label.ne_nil
    rw [hs.table]
    rcases hr : ring rows i.label.name with _ | ⟨a, l⟩
    · rw [hr] at first
      rw [Option.map_eq_none_iff.mp first]
      exact ⟨_, _, _, rfl, rfl, i.label.le, .alone hr rfl rfl rfl⟩
    · rw [hr] at first
      obtain ⟨r, here, rfl⟩ := Option.map_eq_some_iff.mp first
      rw [here]
      exact ⟨_, _, _, rfl, rfl, Nat.zero_le _, .behind hr rfl rfl⟩
  let new := i.row mod st.TABPTR stored (some i.data) (some (st.MODPTR, root))
  have fresh := fresh_of_table hs.wf
  have before : rows.map (relink st.TABPTR st.TABPTR) = rows := map_relink_of_notMem fresh
  have last : adsv4 (recs (rows ++ [new])) root = .ok z := by
    have length : (recs (rows ++ [new])).length = rows.length + 1 := by
      rw [recs, List.length_map, List.length_append, List.length_singleton]
    have top : chain (recs (rows.map (relink st.TABPTR st.TABPTR) ++ [new])) st.TABPTR = .ok root :=
      hs.wf.chain_new rfl rfl
    rw [before] at top
    rw [adsv4, length]
    cases chained with
    | alone empty _ first last =>
      have path : Path (chain (recs (rows ++ [new]))) st.TABPTR [] st.TABPTR :=
        top.trans (congrArg _ first)
      rw [last, first]
      exact last_eq path (by rintro ⟨⟩) (Nat.succ_pos _)
    | behind circle _ last =>
      have circle : ring rows i.label.name = root :: _ := circle
      have round := hs.wf.circle circle
      have short : (ring rows i.label.name).length ≤ rows.length := by
        rw [← List.length_map (f := Row.addr)]
        exact (ring_sublist rows i.label.name).length_le
      rw [circle] at short
      rw [last]
      refine last_eq (round.path.congr fun b hb => ?_) round.head_notMem
        (Nat.lt_succ_of_le (Nat.le_of_succ_le short))
      obtain ⟨x, hx, rfl, _⟩ := mem_ring (circle ▸ hb : b ∈ ring rows i.label.name)
      have old : chain (recs (rows.map (relink st.TABPTR st.TABPTR) ++ [new])) x.addr = _ :=
        hs.wf.chain_old rfl hx (Nat.ne_of_lt (hs.wf.below x hx))
      rwa [before] at old
  have relinked : setChain (recs (rows ++ [new])) z st.TABPTR
      = recs (rows.map (relink z st.TABPTR) ++ [new]) := by
    rw [setChain_recs, List.map_append, List.map_singleton]
    have stays : relink z st.TABPTR new = new := by
      cases chained with
      | alone empty _ first last =>
        rw [relink, if_pos last.symm]
        exact congrArg (fun a => i.row mod st.TABPTR stored (some i.data) (some (st.MODPTR, a)))
          first.symm
      | behind circle _ last =>
        have circle : ring rows i.label.name = root :: _ := circle
        refine relink_of_ne fun same => fresh ?_
        refine (ring_sublist rows i.label.name).subset ?_
        have here : st.TABPTR = z := same
        rw [circle, here, last]
        exact List.getLastD_mem_cons
    rw [stays]
  unfold ADDSV
  rw [if_pos hx]
  dsimp only
  rw [found, suppressed, if_neg (by simp [hb])]
  rcases ADDSYM_spec hb i.type (some i.data) (some (st.MODPTR, root)) short hs.room hs.top with out |
    ⟨M, gs, T, added, more, room, top⟩
  · rw [out]
    exact .inl rfl
  · have table : st.table ++ [(⟨st.TABPTR, i.type, stored, some i.data, some (st.MODPTR, root)⟩ : Rec)]
        = recs (rows ++ [new]) := by
      rw [hs.table, recs, recs, List.map_append]
      rfl
    rw [added]
    simp only [bind, Except.bind]
    rw [table, last]
    dsimp only
    refine .inr ⟨_, z, new, rfl, ?_, ?_, rfl, rfl, rfl, ?_⟩
    · refine ⟨relinked, ?_, room, top⟩
      exact hs.wf.insert rfl chained hi rfl hm i.label.ne_nil more
    · simp only [Row.view, Item.view, hi, new, Item.row]
      rfl
    · rcases chained.last_mem with same | mem
      · exact .inl same
      · exact .inr ⟨hi, mem⟩

theorem enter_spec (hx : sw.CR = true ∨ sw.UN = true) (hb : sw.BR = false) (hs : Rep st rows)
    {mod : Name} (hm : ∃ y ∈ rows, y.addr = st.MODPTR ∧ y.cell.type = .MODTYP ∧ y.name = mod)
    (i : Item) :
    enter sw st i = .error .memory ∨ ∃ st' z new, enter sw st i = .ok st'
      ∧ Enters st rows mod i st' z new := by
  cases hi : i.type.linked with
  | false => exact enter_plain hb hs mod hi
  | true =>
    have linked : enter sw st i = ADDSV sw i.type i.label.name i.data st := by
      unfold enter
      revert hi
      cases i.type <;> simp [Typ.linked]
    rw [linked]
    exact ADDSV_spec hx hb hs hm hi

end enter

/-! ### A module -/

/-- A row that differs in its chain field at most. -/
structure Alike (x y : Row) : Prop where
  addr : y.addr = x.addr
  type : y.cell.type = x.cell.type
  name : y.name = x.name
  mod : y.mod = x.mod
  data : y.cell.data = x.cell.data

theorem relink_alike (z a : ℕ) (x : Row) : Alike x (relink z a x) :=
  ⟨relink_addr z a x, relink_type z a x, relink_name z a x, relink_mod z a x, relink_data z a x⟩

theorem Alike.trans {x y z : Row} (h : Alike x y) (h' : Alike y z) : Alike x z :=
  ⟨h'.addr.trans h.addr, h'.type.trans h.type, h'.name.trans h.name, h'.mod.trans h.mod,
    h'.data.trans h.data⟩

theorem Alike.view {x y : Row} (h : Alike x y) : y.view = x.view := by
  rw [Row.view, Row.view, h.type, h.name, h.mod, h.data]

theorem ring_alike {K : List Row} {f : Row → Row} (hf : ∀ x, Alike x (f x)) (n : Name) :
    ring (K.map f) n = ring K n :=
  ring_map fun x => ⟨(hf x).addr, (hf x).type, (hf x).name⟩

/-- In the middle of a module: the rows kept before, and those of the module. -/
structure Reading (st : St) (K C : List Row) (mod : Name) : Prop where
  rep : Rep st (K ++ C)
  name : ∃ y ∈ C, y.addr = st.MODPTR ∧ y.cell.type = .MODTYP ∧ y.name = mod
  low : ∀ x ∈ K, x.addr < st.MODPTR
  high : ∀ x ∈ C, st.MODPTR ≤ x.addr

section reading

variable {sw : Switches} {st : St} {K C : List Row} {mod : Name}

/-- An item of a module. The rows kept before stay unless they make a circle of its name. -/
theorem Reading.enter (hx : sw.CR = true ∨ sw.UN = true) (hb : sw.BR = false)
    (h : Reading st K C mod) (i : Item) :
    enter sw st i = .error .memory ∨ ∃ st' f C', enter sw st i = .ok st'
      ∧ Reading st' (K.map f) C' mod ∧ (∀ x, Alike x (f x))
      ∧ C'.map Row.view = C.map Row.view ++ [i.view mod] ∧ st'.MODPTR = st.MODPTR
      ∧ ((i.type.linked = true → ring K i.label.name = []) → K.map f = K) := by
  obtain ⟨y, hy, facts⟩ := h.name
  rcases enter_spec hx hb h.rep ⟨y, List.mem_append_right _ hy, facts⟩ i with out |
    ⟨st', z, new, done, e⟩
  · exact .inl out
  · have alike (x : Row) := relink_alike z st.TABPTR x
    refine .inr ⟨st', relink z st.TABPTR, C.map (relink z st.TABPTR) ++ [new], done, ?_, alike, ?_,
      e.MODPTR, fun apart => ?_⟩
    · have rep := e.rep
      rw [List.map_append, List.append_assoc] at rep
      refine ⟨rep, ?_, ?_, ?_⟩
      · refine ⟨relink z st.TABPTR y, List.mem_append_left _ (List.mem_map_of_mem hy), ?_⟩
        rw [relink_addr, relink_type, relink_name, e.MODPTR]
        exact facts
      · intro y hy
        obtain ⟨x, mem, rfl⟩ := List.mem_map.mp hy
        rw [relink_addr, e.MODPTR]
        exact h.low x mem
      · intro x hx
        rw [e.MODPTR]
        rcases List.mem_append.mp hx with old | last
        · obtain ⟨x, mem, rfl⟩ := List.mem_map.mp old
          rw [relink_addr]
          exact h.high x mem
        · obtain rfl := List.mem_singleton.mp last
          rw [e.addr]
          exact Nat.le_of_lt (facts.1 ▸ h.rep.wf.below y (List.mem_append_right _ hy))
    · rw [List.map_append, List.map_map, List.map_singleton, e.view]
      exact congrArg (· ++ _) (List.map_congr_left fun x _ => (alike x).view)
    · refine map_relink_of_notMem fun mem => ?_
      obtain ⟨x, hx, rfl⟩ := List.mem_map.mp mem
      rcases e.last with same | ⟨linked, last⟩
      · exact absurd (h.rep.wf.below x (List.mem_append_left _ hx)) (same ▸ Nat.lt_irrefl _)
      · rw [ring_append, if_pos (apart linked)] at last
        obtain ⟨y, hy, same, _⟩ := mem_ring last
        exact absurd (h.low x hx) (Nat.not_lt_of_le (same ▸ h.high y hy))

/-- All the items of a module. -/
theorem Reading.items (hx : sw.CR = true ∨ sw.UN = true) (hb : sw.BR = false)
    (h : Reading st K C mod) (is : List Item) :
    is.foldlM (Lbr.enter sw) st = .error .memory ∨ ∃ st' f C', is.foldlM (Lbr.enter sw) st = .ok st'
      ∧ Reading st' (K.map f) C' mod ∧ (∀ x, Alike x (f x))
      ∧ C'.map Row.view = C.map Row.view ++ is.map (Item.view mod) ∧ st'.MODPTR = st.MODPTR
      ∧ ((∀ i ∈ is, i.type.linked = true → ring K i.label.name = []) → K.map f = K) := by
  induction is generalizing st K C with
  | nil =>
    refine .inr ⟨st, id, C, rfl, ?_, fun x => ⟨rfl, rfl, rfl, rfl, rfl⟩, ?_, rfl, fun _ => ?_⟩
    · exact (List.map_id K).symm ▸ h
    · exact (List.append_nil _).symm
    · exact List.map_id K
  | cons i is ih =>
    rw [List.foldlM_cons]
    rcases h.enter hx hb i with out | ⟨st₁, f, C₁, done, h₁, alike, views, same, stays⟩
    · rw [out]
      exact .inl rfl
    · rw [done]
      rcases ih h₁ with out | ⟨st₂, g, C₂, done, h₂, alike', views', same', stays'⟩
      · exact .inl out
      · refine .inr ⟨st₂, g ∘ f, C₂, done, ?_, fun x => (alike x).trans (alike' _), ?_,
          same'.trans same, fun apart => ?_⟩
        · rw [← List.map_map]
          exact h₂
        · rw [views', views, List.append_assoc]
          rfl
        · have first := stays (apart i List.mem_cons_self)
          rw [← List.map_map, stays' fun j hj linked => ?_, first]
          rw [ring_alike alike]
          exact apart j (List.mem_cons_of_mem _ hj) linked

end reading

end RSX280.Lbr
