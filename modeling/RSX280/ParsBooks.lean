import RSX280.Pars

/-!
# What the partition bookkeeping keeps

Where a task is, as far as its link `T.LNK` and the loader are concerned, is its
`Place`. `Tcb.Fine` says which places go with which status bits and with owning the
partition; it speaks of one task and knows nothing of the lists. `Kernel.Books` puts it
together with the lists and with the history. A task whose end is in progress has
nothing left but its partition (`Tcb.Gone`), and while a partition is being assigned it
may stand idle with tasks waiting for it; the invariant names that task and that
partition.
-/

namespace RSX280.Pars

open Links

universe u v

/-- Where a task is. -/
inductive Place (P : Type v) where
  /-- on no list -/
  | off
  /-- on a list linked through `T.LNK` -/
  | linked (h : Head P)
  /-- being loaded -/
  | loader
  deriving DecidableEq

/-! ## One task -/

/-- A task that is active or fixed takes part in the allocation of memory. -/
def Tcb.live {P : Type v} (b : Tcb P) : Bool := b.act || b.fix

/-- A task in order. `sys` tells whether its partition is system-controlled, `own`
whether it owns a partition that is not, `dir` whether it is in the directory. -/
structure Tcb.Fine {P : Type v} (b : Tcb P) (pl : Place P) (sys own dir : Bool) : Prop where
  /-- a waiting task does not own the partition it waits for -/
  wait : ∀ p, pl = .linked (.wait p) →
    p = b.pcb ∧ b.live = true ∧ b.out = true ∧ b.ldr = false ∧ own = false
  /-- a task given to the loader owns its partition -/
  load : pl = .linked .ldr ∨ pl = .loader →
    b.live = true ∧ b.out = true ∧ b.ldr = false ∧ (sys || own) = true
  /-- so does any other, unless it is a fixed one killed before its turn came -/
  off : pl = .off → b.live = true → (b.fix = false ∨ b.rem = true) → (sys || own) = true
  /-- a task in memory owns its partition -/
  mem : b.live = true → b.out = false → (sys || own) = true
  /-- a task the loader gave up owns its partition -/
  ldr : b.live = true → b.ldr = true → (sys || own) = true
  /-- a task aborted while it waits or is loaded is active -/
  abo : pl ≠ .off → b.abo = true → b.act = true
  /-- only a task in memory has I/O outstanding -/
  io : b.ioc ≠ 0 → b.act = true ∧ b.out = false
  dir : b.live = true → dir = true
  /-- an owner is active or fixed -/
  own : own = true → b.live = true

/-- A task that has nothing left but, possibly, its partition. -/
structure Tcb.Gone {P : Type v} (b : Tcb P) (pl : Place P) : Prop where
  live : b.live = false
  off : pl = .off
  ioc : b.ioc = 0

namespace Tcb

variable {P : Type v} {b : Tcb P} {pl : Place P} {sys own dir : Bool}

theorem Fine.gone (h : b.Fine pl sys own dir) (hl : b.live = false) : b.Gone pl := by
  have hact : b.act = false := by
    simp only [live, Bool.or_eq_false_iff] at hl
    exact hl.1
  refine ⟨hl, ?_, ?_⟩
  · cases pl with
    | off => rfl
    | linked hd =>
      cases hd with
      | wait p => exact nomatch hl.symm.trans (h.wait p rfl).2.1
      | ldr => exact nomatch hl.symm.trans (h.load (Or.inl rfl)).1
    | loader => exact nomatch hl.symm.trans (h.load (Or.inr rfl)).1
  · by_contra hc
    exact nomatch hact.symm.trans (h.io hc).1

theorem Fine.own_eq_false (h : b.Fine pl sys own dir) (hl : b.live = false) : own = false := by
  cases hown : own with
  | false => rfl
  | true => exact nomatch hl.symm.trans (h.own hown)

/-- A task that is gone is in order once it does not own a partition. -/
theorem Gone.fine (h : b.Gone pl) (sys dir : Bool) : b.Fine pl sys false dir where
  wait p hp := nomatch h.off.symm.trans hp
  load hp := by rcases hp with hp | hp <;> exact nomatch h.off.symm.trans hp
  off _ hl := nomatch h.live.symm.trans hl
  mem hl := nomatch h.live.symm.trans hl
  ldr hl := nomatch h.live.symm.trans hl
  abo hp := absurd h.off hp
  io hc := absurd h.ioc hc
  dir hl := nomatch h.live.symm.trans hl
  own := nofun

/-- A task in memory is on no list. -/
theorem Fine.off_of_out (h : b.Fine pl sys own dir) (ho : b.out = false) : pl = .off := by
  cases pl with
  | off => rfl
  | linked hd =>
    cases hd with
    | wait p => exact nomatch ho.symm.trans (h.wait p rfl).2.2.1
    | ldr => exact nomatch ho.symm.trans (h.load (Or.inl rfl)).2.1
  | loader => exact nomatch ho.symm.trans (h.load (Or.inr rfl)).2.1

/-- So is a task the loader gave up. -/
theorem Fine.off_of_ldr (h : b.Fine pl sys own dir) (ho : b.ldr = true) : pl = .off := by
  cases pl with
  | off => rfl
  | linked hd =>
    cases hd with
    | wait p => exact nomatch ho.symm.trans (h.wait p rfl).2.2.2.1
    | ldr => exact nomatch ho.symm.trans (h.load (Or.inl rfl)).2.2.1
  | loader => exact nomatch ho.symm.trans (h.load (Or.inr rfl)).2.2.1

end Tcb

/-! ## All tasks -/

variable {T : Type u} {P : Type v} [DecidableEq T]

/-- Does `t` own a partition that is not system-controlled? -/
def Kernel.owns (c : Config T P) (k : Kernel T P) (t : T) : Bool :=
  !c.sys (k.tcb t).pcb && k.bsy (k.tcb t).pcb && decide (k.own (k.tcb t).pcb = some t)

/-- The lists, with the place of every task on them, and the history. -/
structure Kernel.Books (c : Config T P) (k : Kernel T P) (pl : T → Place P) : Prop where
  lists : ∃ l, Lists k.lnk l ∧ ∀ h t, t ∈ l h ↔ pl t = .linked h
  loading : ∀ t, k.loading = some t ↔ pl t = .loader
  owner : ∀ p, c.sys p = false → k.bsy p = true →
    ∃ t, k.own p = some t ∧ (k.tcb t).pcb = p ∧ k.held p = [t]
  idle : ∀ p, c.sys p = false → k.bsy p = false → k.held p = []
  freed : ∀ t u, (t, some u) ∈ k.freed → t = u

/-- The books are in order, except that task `x` is gone and partition `q` may be idle
with tasks waiting for it. -/
structure Kernel.Inv (c : Config T P) (k : Kernel T P) (pl : T → Place P) (x : Option T)
    (q : Option P) : Prop extends k.Books c pl where
  served : ∀ p, c.sys p = false → q ≠ some p → k.bsy p = false → ∀ t, pl t ≠ .linked (.wait p)
  fine : ∀ t, x ≠ some t →
    (k.tcb t).Fine (pl t) (c.sys (k.tcb t).pcb) (k.owns c t) (k.tlist t)
  gone : ∀ t, x = some t → (k.tcb t).Gone (pl t)

namespace Kernel

variable {c : Config T P} {k k' : Kernel T P} {pl pl' : T → Place P} {x : Option T}
  {q : Option P} {t u : T} {p : P} {b : Tcb P}

theorem owns_eq_true : k.owns c t = true ↔
    c.sys (k.tcb t).pcb = false ∧ k.bsy (k.tcb t).pcb = true ∧
      k.own (k.tcb t).pcb = some t := by
  simp [owns, and_assoc]

@[simp] theorem setTcb_self (k : Kernel T P) (t : T) (b : Tcb P) : (k.setTcb t b).tcb t = b :=
  Function.update_self ..

theorem setTcb_of_ne (k : Kernel T P) (b : Tcb P) (h : u ≠ t) :
    (k.setTcb t b).tcb u = k.tcb u :=
  Function.update_of_ne h ..

@[simp] theorem setTcb_setTcb (k : Kernel T P) (t : T) (b b' : Tcb P) :
    (k.setTcb t b).setTcb t b' = k.setTcb t b' := by
  simp [setTcb]

theorem setTcb_pcb (hb : b.pcb = (k.tcb t).pcb) (u : T) :
    ((k.setTcb t b).tcb u).pcb = (k.tcb u).pcb := by
  by_cases hu : u = t
  · rw [hu, setTcb_self, hb]
  · rw [setTcb_of_ne k b hu]

theorem owns_setTcb (hb : b.pcb = (k.tcb t).pcb) (u : T) :
    (k.setTcb t b).owns c u = k.owns c u := by
  simp only [owns, setTcb_pcb hb]
  rfl

/-- Storing a control block does not touch the books. -/
theorem Books.setTcb (h : k.Books c pl) (hb : b.pcb = (k.tcb t).pcb) :
    (k.setTcb t b).Books c pl where
  lists := h.lists
  loading := h.loading
  owner p hp hbsy := by
    obtain ⟨u, hu, hpcb, hheld⟩ := h.owner p hp hbsy
    exact ⟨u, hu, (setTcb_pcb hb u).trans hpcb, hheld⟩
  idle := h.idle
  freed := h.freed

/-- An operation on one task: all others stay as they are. -/
theorem Inv.change (h : k.Inv c pl x q) (t : T) (hb : k'.Books c pl')
    (hserved : ∀ p, c.sys p = false → q ≠ some p → k'.bsy p = false →
      ∀ u, pl' u ≠ .linked (.wait p))
    (hrest : ∀ u, u ≠ t → k'.tcb u = k.tcb u ∧ k'.tlist u = k.tlist u ∧
      k'.owns c u = k.owns c u ∧ pl' u = pl u)
    (hx : x ≠ some t)
    (ht : (k'.tcb t).Fine (pl' t) (c.sys (k'.tcb t).pcb) (k'.owns c t) (k'.tlist t)) :
    k'.Inv c pl' x q where
  toBooks := hb
  served := hserved
  fine u hu := by
    by_cases he : u = t
    · rw [he]
      exact ht
    · obtain ⟨h₁, h₂, h₃, h₄⟩ := hrest u he
      rw [h₁, h₂, h₃, h₄]
      exact h.fine u hu
  gone u hu := by
    have he : u ≠ t := by
      intro he
      exact hx (he ▸ hu)
    obtain ⟨h₁, -, -, h₄⟩ := hrest u he
    rw [h₁, h₄]
    exact h.gone u hu

/-- Storing a control block that is in order. -/
theorem Inv.setTcb (h : k.Inv c pl x q) (hx : x ≠ some t) (hb : b.pcb = (k.tcb t).pcb)
    (ht : b.Fine (pl t) (c.sys (k.tcb t).pcb) (k.owns c t) (k.tlist t)) :
    (k.setTcb t b).Inv c pl x q := by
  refine h.change t (h.toBooks.setTcb hb) h.served ?_ hx ?_
  · intro u hu
    exact ⟨setTcb_of_ne k b hu, rfl, owns_setTcb hb u, rfl⟩
  · rw [setTcb_self, owns_setTcb hb, hb]
    exact ht

/-- A task whose end begins. -/
theorem Inv.setGone (h : k.Inv c pl none q) (hb : b.pcb = (k.tcb t).pcb)
    (ht : b.Gone (pl t)) : (k.setTcb t b).Inv c pl (some t) q where
  toBooks := h.toBooks.setTcb hb
  served := h.served
  fine u hu := by
    have hne : u ≠ t := fun he => hu (he ▸ rfl)
    rw [setTcb_of_ne k b hne, owns_setTcb hb]
    exact h.fine u nofun
  gone u hu := by
    rw [← Option.some.inj hu, setTcb_self]
    exact ht

/-! ## Moving a task between the lists -/

variable [DecidableEq P]

/-- Taking a task out behind the cell that leads to it. -/
theorem Books.unlink (h : k.Books c pl) {hd : Head P} {l : Head P → List T}
    (hl : Lists k.lnk l) (hm : ∀ h t, t ∈ l h ↔ pl t = .linked h) {l₁ l₂ : List T}
    (hs : l hd = l₁ ++ t :: l₂) :
    { k with lnk := k.lnk.unlink (last (.head hd) l₁) t }.Books c
      (Function.update pl t .off) where
  lists := by
    refine ⟨_, hl.unlink hs, fun h' u => ?_⟩
    have hnd : (l₁ ++ t :: l₂).Nodup := hs ▸ (hl.chain hd).nodup
    have ht : pl t = .linked hd := (hm hd t).mp (hs ▸ by simp)
    by_cases hu : u = t
    · rw [hu, Function.update_self]
      constructor
      · intro hmem
        exfalso
        by_cases hh : h' = hd
        · rw [hh, Function.update_self] at hmem
          exact (List.nodup_middle.mp hnd |> List.nodup_cons.mp).1 hmem
        · rw [Function.update_of_ne hh] at hmem
          have := ht.symm.trans ((hm h' t).mp hmem)
          exact hh (Place.linked.inj this).symm
      · nofun
    · rw [Function.update_of_ne hu, ← hm h' u]
      by_cases hh : h' = hd
      · rw [hh, Function.update_self, hs]
        simp [hu]
      · rw [Function.update_of_ne hh]
  loading u := by
    by_cases hu : u = t
    · rw [hu, Function.update_self, h.loading]
      have ht : pl t = .linked hd := (hm hd t).mp (hs ▸ by simp)
      rw [ht]
      exact ⟨nofun, nofun⟩
    · rw [Function.update_of_ne hu, h.loading]
  owner := h.owner
  idle := h.idle
  freed := h.freed

variable [Fintype T]

omit [DecidableEq T] [DecidableEq P] in
/-- `$LKTCB` ends its walk behind the last cell of some part of the list. -/
theorem exists_slot (k : Kernel T P) {hd : Head P} {l : List T}
    (h : Chain k.lnk (.head hd) l) :
    ∃ l₁ l₂, k.lnk.slot (fun a => (k.tcb a).pri < (k.tcb t).pri) (Fintype.card T) (.head hd) =
      last (.head hd) l₁ ∧ l = l₁ ++ l₂ :=
  ⟨_, _, h.slot_eq h.nodup.length_le_card, List.takeWhile_append_dropWhile.symm⟩

/-- Linking a task that is on no list. -/
theorem Books.lktcb (h : k.Books c pl) (hd : Head P) (ht : pl t = .off) :
    (k.lktcb hd t).Books c (Function.update pl t (.linked hd)) where
  lists := by
    obtain ⟨l, hl, hm⟩ := h.lists
    have hnot : ∀ h', t ∉ l h' := fun h' hmem => nomatch ht.symm.trans ((hm h' t).mp hmem)
    obtain ⟨l₁, l₂, hslot, hs⟩ := k.exists_slot (t := t) (hl.chain hd)
    refine ⟨Function.update l hd (l₁ ++ t :: l₂), ?_, fun h' u => ?_⟩
    · rw [Kernel.lktcb, hslot]
      exact hl.relink hs hnot
    · by_cases hh : h' = hd
      · rw [hh, Function.update_self, List.mem_append, List.mem_cons, or_left_comm,
          ← List.mem_append, ← hs]
        by_cases hu : u = t
        · rw [hu, Function.update_self]
          exact ⟨fun _ => rfl, fun _ => Or.inl rfl⟩
        · rw [Function.update_of_ne hu, hm hd u]
          exact ⟨fun h => h.resolve_left hu, Or.inr⟩
      · rw [Function.update_of_ne hh]
        by_cases hu : u = t
        · rw [hu, Function.update_self]
          constructor
          · exact fun hmem => absurd hmem (hnot h')
          · exact fun he => absurd (Place.linked.inj he).symm hh
        · rw [Function.update_of_ne hu, hm h' u]
  loading u := by
    by_cases hu : u = t
    · rw [hu, Function.update_self]
      refine Iff.trans (h.loading t) ?_
      rw [ht]
      exact ⟨nofun, nofun⟩
    · rw [Function.update_of_ne hu]
      exact h.loading u
  owner := h.owner
  idle := h.idle
  freed := h.freed

/-- `FTCB` finds a task on the list it is on, and on no other. -/
theorem Books.unltcb (h : k.Books c pl) (hd : Head P) (ht : pl t = .linked hd) :
    ∃ cell, k.unltcb hd t = some { k with lnk := k.lnk.unlink cell t } ∧
      { k with lnk := k.lnk.unlink cell t }.Books c (Function.update pl t .off) := by
  obtain ⟨l, hl, hm⟩ := h.lists
  obtain ⟨l₁, l₂, hs, hf⟩ := hl.find_of_mem ((hm hd t).mpr ht)
  refine ⟨last (.head hd) l₁, ?_, h.unlink hl hm hs⟩
  rw [Kernel.unltcb, ftcb, hf]
  rfl

omit [DecidableEq P] in
theorem Books.ftcb_ne_none (h : k.Books c pl) {hd : Head P} (ht : pl t = .linked hd) :
    k.ftcb hd t ≠ none := by
  obtain ⟨l, hl, hm⟩ := h.lists
  obtain ⟨l₁, l₂, hs, hf⟩ := hl.find_of_mem ((hm hd t).mpr ht)
  rw [ftcb, hf]
  exact nofun

omit [DecidableEq P] in
theorem Books.ftcb_eq_none (h : k.Books c pl) {hd : Head P} (ht : pl t ≠ .linked hd) :
    k.ftcb hd t = none := by
  obtain ⟨l, hl, hm⟩ := h.lists
  exact hl.find_of_notMem _ fun hmem => ht ((hm hd t).mp hmem)

theorem Books.unltcb_eq_none (h : k.Books c pl) {hd : Head P} (ht : pl t ≠ .linked hd) :
    k.unltcb hd t = none := by
  rw [Kernel.unltcb, h.ftcb_eq_none ht, Option.map_none]

omit [Fintype T] in
/-- The first task of a list is on that list, and taking it off is an update of the
head. -/
theorem Books.unlink_head (h : k.Books c pl) {hd : Head P} (ht : k.lnk (.head hd) = some t) :
    pl t = .linked hd ∧
      { k with lnk := k.lnk.unlink (.head hd) t }.Books c (Function.update pl t .off) := by
  obtain ⟨l, hl, hm⟩ := h.lists
  have hmem := (hl.chain hd).mem_of_link ht
  refine ⟨(hm hd t).mp hmem, ?_⟩
  obtain ⟨l₂, hs⟩ : ∃ l₂, l hd = t :: l₂ := by
    have hc := hl.chain hd
    cases hlist : l hd with
    | nil =>
      rw [hlist] at hmem
      exact absurd hmem List.not_mem_nil
    | cons a l₂ =>
      rw [hlist] at hc
      rw [Option.some.inj (hc.1.symm.trans ht)]
      exact ⟨l₂, rfl⟩
  have hs' : l hd = [] ++ t :: l₂ := hs
  exact h.unlink hl hm hs'

omit [DecidableEq T] [DecidableEq P] [Fintype T] in
theorem Books.head_eq_none (h : k.Books c pl) {hd : Head P} (hh : k.lnk (.head hd) = none) :
    pl t ≠ .linked hd := by
  obtain ⟨l, hl, hm⟩ := h.lists
  intro ht
  have hc := hl.chain hd
  have hmem := (hm hd t).mpr ht
  have hnil : Chain k.lnk (.head hd) [] := hh
  rw [hc.unique hnil] at hmem
  exact absurd hmem List.not_mem_nil

end Kernel

end RSX280.Pars
