import RSX280.ParsBooks

/-!
# The partition operations keep the books

One lemma for each routine. Those that release a partition ask that the task releases
its own one or that the partition is not busy; those that end in `$ASNTP` also say what
they leave alone (`Kernel.Keeps`), because the end of a task requests another one on
the way.
-/

namespace RSX280.Pars

open Links

universe u v

namespace Tcb.Fine

variable {P : Type v} {b : Tcb P} {pl : Place P} {sys own dir : Bool}

/-- A waiting task whose turn has come. -/
theorem toLoader {p : P} (h : b.Fine (.linked (.wait p)) sys own dir) {own' : Bool}
    (ho : (sys || own') = true) : b.Fine (.linked .ldr) sys own' dir := by
  obtain ⟨-, hl, hout, hldr, -⟩ := h.wait p rfl
  exact {
    wait := nofun
    load := fun _ => ⟨hl, hout, hldr, ho⟩
    off := nofun
    mem := fun _ _ => ho
    ldr := fun _ _ => ho
    abo := fun _ => h.abo nofun
    io := h.io
    dir := h.dir
    own := fun _ => hl }

/-- The loader takes it off its queue. -/
theorem taken (h : b.Fine (.linked .ldr) sys own dir) : b.Fine .loader sys own dir where
  wait := nofun
  load _ := h.load (Or.inl rfl)
  off := nofun
  mem := h.mem
  ldr := h.ldr
  abo _ := h.abo nofun
  io := h.io
  dir := h.dir
  own := h.own

/-- A task given to the loader is taken back. -/
theorem takeBack (h : b.Fine pl sys own dir) (hp : pl = .linked .ldr ∨ pl = .loader) :
    b.Fine .off sys own dir where
  wait := nofun
  load := by rintro (h | h) <;> exact nomatch h
  off _ _ _ := (h.load hp).2.2.2
  mem := h.mem
  ldr := h.ldr
  abo hp := absurd rfl hp
  io := h.io
  dir := h.dir
  own := h.own

/-- A fixed task becomes active. -/
theorem activate (h : b.Fine pl sys own dir) (hf : b.fix = true) (hioc : b.ioc = 0) :
    ({ b with act := true, abo := false } : Tcb P).Fine pl sys own dir := by
  have hl : b.live = true := by rw [Tcb.live, hf, Bool.or_true]
  exact {
    wait := fun p hp => ⟨(h.wait p hp).1, rfl, (h.wait p hp).2.2⟩
    load := fun hp => ⟨rfl, (h.load hp).2⟩
    off := fun hp _ => h.off hp hl
    mem := fun _ => h.mem hl
    ldr := fun _ => h.ldr hl
    abo := fun _ => by rintro ⟨⟩
    io := fun hc => absurd hioc hc
    dir := fun _ => h.dir hl
    own := fun _ => rfl }

/-- A fixed task ends and stays in memory. -/
theorem deactivate (h : b.Fine .off sys own dir) (hf : b.fix = true) (hr : b.rem = false)
    (hioc : b.ioc = 0) : ({ b with act := false } : Tcb P).Fine .off sys own dir := by
  have hl : b.live = true := by rw [Tcb.live, hf, Bool.or_true]
  exact {
    wait := by rintro _ ⟨⟩
    load := by rintro (h | h) <;> cases h
    off := fun _ _ hfr => by
      rcases hfr with hf' | hr'
      · cases hf.symm.trans hf'
      · cases hr.symm.trans hr'
    mem := fun _ => h.mem hl
    ldr := fun _ => h.ldr hl
    abo := fun hp => absurd rfl hp
    io := fun hc => absurd hioc hc
    dir := fun _ => h.dir hl
    own := fun _ => hf }

/-- `TKILL` marks an active task. -/
theorem abort (h : b.Fine pl sys own dir) (hact : b.act = true) (e : ℕ) {n : ℕ}
    (hn : n ≤ b.ioc) :
    ({ b with svst := e, abo := true, ioc := n } : Tcb P).Fine pl sys own dir where
  wait := h.wait
  load := h.load
  off := h.off
  mem := h.mem
  ldr := h.ldr
  abo _ _ := hact
  io hc := h.io fun hz => hc (Nat.le_zero.mp (hz ▸ hn))
  dir := h.dir
  own := h.own

/-- A waiting task leaves the wait list: a fixed one that stays installed. -/
theorem giveUp {p : P} (h : b.Fine (.linked (.wait p)) sys own dir)
    (hf : b.fix = false ∨ b.rem = true → (sys || own) = true) : b.Fine .off sys own dir where
  wait := nofun
  load := by rintro (h | h) <;> exact nomatch h
  off _ _ := hf
  mem := h.mem
  ldr := h.ldr
  abo hp := absurd rfl hp
  io := h.io
  dir := h.dir
  own := h.own

end Tcb.Fine

namespace Kernel

variable {T : Type u} {P : Type v} [DecidableEq T]
  {c : Config T P} {k k' k'' : Kernel T P} {pl pl' : T → Place P} {x x' : Option T}
  {q : Option P} {t u : T} {p : P} {b : Tcb P} {r : Request T} {v : KillEnv T}

/-- What an operation on other tasks leaves of task `t`. -/
structure Keeps (c : Config T P) (k k' : Kernel T P) (t : T) : Prop where
  tcb : k'.tcb t = k.tcb t
  dir : k'.tlist t = k.tlist t
  owns : k.owns c t = true → k'.owns c t = true

theorem Keeps.refl (c : Config T P) (k : Kernel T P) (t : T) : k.Keeps c k t := ⟨rfl, rfl, id⟩

theorem Keeps.trans (h : k.Keeps c k' t) (h' : k'.Keeps c k'' t) : k.Keeps c k'' t :=
  ⟨h'.tcb.trans h.tcb, h'.dir.trans h.dir, fun ho => h'.owns (h.owns ho)⟩

theorem keeps_setTcb (hb : b.pcb = (k.tcb t).pcb) (hu : u ≠ t) :
    k.Keeps c (k.setTcb t b) u :=
  ⟨setTcb_of_ne k b hu, rfl, fun h => (owns_setTcb hb u).trans h⟩

theorem Keeps.congr (h : k.Keeps c k' t) (h₁ : k''.tcb = k'.tcb) (h₂ : k''.tlist = k'.tlist)
    (h₃ : k''.bsy = k'.bsy) (h₄ : k''.own = k'.own) : k.Keeps c k'' t where
  tcb := by rw [h₁]; exact h.tcb
  dir := by rw [h₂]; exact h.dir
  owns := by
    simp only [Kernel.owns, h₁, h₃, h₄]
    exact h.owns

/-! ## Assigning and freeing a partition -/

/-- The same in a system-controlled partition, where there is nothing to release. -/
theorem Inv.ended (h : k.Inv c pl x q) (hx : ∀ u, x' = some u ↔ x = some u ∧ u ≠ t)
    (ht : (k.tcb t).Gone (pl t)) (hp : c.sys (k.tcb t).pcb = true) : k.Inv c pl x' q where
  toBooks := h.toBooks
  served := h.served
  fine u hxu := by
    by_cases hu : u = t
    · have hown : k.owns c t = false := by simp [Kernel.owns, hp]
      rw [hu, hown]
      exact ht.fine _ _
    · exact h.fine u fun he => hxu ((hx u).mpr ⟨he, hu⟩)
  gone u hxu := h.gone u ((hx u).mp hxu).1

/-- Not requiring a partition to be served. -/
theorem Inv.of_none (h : k.Inv c pl x none) (q : Option P) : k.Inv c pl x q :=
  { h with served := fun p hp _ => h.served p hp nofun }

/-- `$LDGO` for a task in order that is off the lists: it is in memory, or has just been
loaded into its partition. -/
theorem Inv.ldgo2 (h : k.Inv c pl x q) (hx : x ≠ some t) (ht : pl t = .off)
    (hown : (c.sys (k.tcb t).pcb || k.owns c t) = true) : (k.ldgo2 t).Inv c pl x q := by
  have hfine := h.fine t hx
  refine h.setTcb hx rfl ?_
  rw [ht] at hfine ⊢
  exact {
    wait := nofun
    load := by rintro (h | h) <;> exact nomatch h
    off := fun _ _ _ => hown
    mem := fun _ _ => hown
    ldr := fun _ _ => hown
    abo := fun hp => absurd rfl hp
    io := fun hc => ⟨(hfine.io hc).1, rfl⟩
    dir := hfine.dir
    own := hfine.own }

/-- `TRQST2` for a fixed task. -/
theorem Inv.trq4 (h : k.Inv c pl x q) (hx : x ≠ some t) (hf : (k.tcb t).fix = true)
    (hioc : (k.tcb t).ioc = 0) :
    (k.trq4 t).Inv c pl x q ∧ ∀ u, u ≠ t → k.Keeps c (k.trq4 t) u := by
  have h₁ : (k.setTcb t { k.tcb t with act := true, abo := false }).Inv c pl x q :=
    h.setTcb hx rfl ((h.fine t hx).activate hf hioc)
  have hk₁ : ∀ u, u ≠ t →
      k.Keeps c (k.setTcb t { k.tcb t with act := true, abo := false }) u :=
    fun u hu => keeps_setTcb rfl hu
  have hfine := h₁.fine t hx
  unfold Kernel.trq4
  dsimp only
  split_ifs with hout
  · exact ⟨h₁, hk₁⟩
  · have hout := Bool.eq_false_iff.mpr hout
    have hl : ((k.setTcb t { k.tcb t with act := true, abo := false }).tcb t).live = true := by
      rw [setTcb_self]
      rfl
    refine ⟨h₁.ldgo2 hx (hfine.off_of_out hout) (hfine.mem hl hout), fun u hu => ?_⟩
    exact (hk₁ u hu).trans (keeps_setTcb rfl hu)

variable [DecidableEq P]

/-- `$ASNTP` writes the partition of the task over the same partition. -/
theorem assign_tcb (k : Kernel T P) (ht : (k.tcb t).pcb = p) :
    (k.assign p t).tcb = k.tcb := by
  rw [Kernel.assign, ← ht]
  exact Function.update_eq_self ..

/-- A partition that is not busy is assigned to the first task waiting for it. -/
theorem Books.assign (h : k.Books c pl) (hb : k.bsy p = false) (ht : (k.tcb t).pcb = p)
    (hh : k.lnk (.head (.wait p)) = some t) :
    (k.assign p t).Books c (Function.update pl t .off) where
  lists := (h.unlink_head hh).2.lists
  loading := (h.unlink_head hh).2.loading
  owner p' hp' hbsy := by
    have hpcb : ∀ u, ((k.assign p t).tcb u).pcb = (k.tcb u).pcb := fun u => by
      rw [k.assign_tcb ht]
    by_cases he : p' = p
    · refine ⟨t, ?_, (hpcb t).trans (ht.trans he.symm), ?_⟩ <;> rw [he]
      · exact Function.update_self ..
      · refine (Function.update_self ..).trans ?_
        rw [h.idle p (he ▸ hp') hb]
        rfl
    · obtain ⟨u, hu, hup, hheld⟩ := h.owner p' hp' ((Function.update_of_ne he ..).symm.trans hbsy)
      refine ⟨u, (Function.update_of_ne he ..).trans hu, (hpcb u).trans hup, ?_⟩
      exact (Function.update_of_ne he ..).trans hheld
  idle p' hp' hbsy := by
    by_cases he : p' = p
    · rw [he] at hbsy
      exact nomatch hbsy.symm.trans (Function.update_self ..)
    · refine (Function.update_of_ne he ..).trans (h.idle p' hp' ?_)
      exact (Function.update_of_ne he ..).symm.trans hbsy
  freed := h.freed

/-- A partition is released for its owner, or when it is not busy. -/
theorem Books.release (h : k.Books c pl) (hb : k.bsy p = false ∨ k.own p = some t) :
    (k.release p t).Books c pl where
  lists := h.lists
  loading := h.loading
  owner p' hp' hbsy := by
    by_cases he : p' = p
    · rw [he] at hbsy
      exact nomatch hbsy.symm.trans (Function.update_self ..)
    · obtain ⟨u, hu, hup, hheld⟩ := h.owner p' hp' ((Function.update_of_ne he ..).symm.trans hbsy)
      exact ⟨u, hu, hup, (Function.update_of_ne he ..).trans hheld⟩
  idle p' hp' hbsy := by
    by_cases he : p' = p
    · rw [he]
      refine (Function.update_self ..).trans ?_
      cases hbp : k.bsy p with
      | false => rw [h.idle p (he ▸ hp') hbp]; rfl
      | true =>
        obtain ⟨u, hu, -, hheld⟩ := h.owner p (he ▸ hp') hbp
        have hut : u = t := by
          rcases hb with hb | hb
          · exact nomatch hbp.symm.trans hb
          · exact Option.some.inj (hu.symm.trans hb)
        rw [hheld, hut]
        simp
    · refine (Function.update_of_ne he ..).trans (h.idle p' hp' ?_)
      exact (Function.update_of_ne he ..).symm.trans hbsy
  freed t' u hm := by
    rcases List.mem_append.mp hm with hm | hm
    · exact h.freed t' u hm
    · obtain ⟨rfl, hu⟩ := Prod.mk.inj (List.mem_singleton.mp hm)
      cases hbp : k.bsy p with
      | false => exact nomatch hu.trans (if_neg (by simp [hbp]))
      | true =>
        rw [if_pos hbp] at hu
        rcases hb with hb | hb
        · exact nomatch hbp.symm.trans hb
        · exact Option.some.inj (hb.symm.trans hu.symm)

/-- Only the task that gets the partition owns more than before. -/
theorem owns_assign (hb : k.bsy p = false) (ht : (k.tcb t).pcb = p) (hu : u ≠ t) :
    (k.assign p t).owns c u = k.owns c u := by
  rw [Kernel.owns, k.assign_tcb ht]
  by_cases hup : (k.tcb u).pcb = p
  · simp [Kernel.owns, Kernel.assign, hup, hb, hu.symm]
  · simp [Kernel.owns, Kernel.assign, hup]

theorem owns_assign_self (hp : c.sys p = false) (ht : (k.tcb t).pcb = p) :
    (k.assign p t).owns c t = true := by
  rw [Kernel.owns, k.assign_tcb ht]
  simp [Kernel.assign, ht, hp]

/-- Releasing a partition takes it from its owner only. -/
theorem owns_release (hb : k.bsy p = false ∨ k.own p = some t) (hu : u ≠ t) :
    (k.release p t).owns c u = k.owns c u := by
  by_cases hup : (k.tcb u).pcb = p
  · rcases hb with hb | hb
    · simp [Kernel.owns, Kernel.release, hup, hb]
    · simp [Kernel.owns, Kernel.release, hup, hb, hu.symm]
  · simp [Kernel.owns, Kernel.release, hup]

theorem owns_release_self (k : Kernel T P) (t : T) :
    (k.release (k.tcb t).pcb t).owns c t = false := by
  simp [Kernel.owns, Kernel.release]

/-- The end of task `t`, gone already, is complete when its partition is released. -/
theorem Inv.release (h : k.Inv c pl x none) (hx : ∀ u, x' = some u ↔ x = some u ∧ u ≠ t)
    (ht : (k.tcb t).Gone (pl t))
    (hb : k.bsy (k.tcb t).pcb = false ∨ k.own (k.tcb t).pcb = some t) :
    (k.release (k.tcb t).pcb t).Inv c pl x' (some (k.tcb t).pcb) where
  toBooks := h.toBooks.release hb
  served p hp hq hbsy := by
    have hne : p ≠ (k.tcb t).pcb := fun he => hq (he ▸ rfl)
    exact h.served p hp nofun ((Function.update_of_ne hne ..).symm.trans hbsy)
  fine u hxu := by
    by_cases hu : u = t
    · rw [hu, owns_release_self]
      exact ht.fine _ _
    · rw [owns_release hb hu]
      exact h.fine u fun he => hxu ((hx u).mpr ⟨he, hu⟩)
  gone u hxu := h.gone u ((hx u).mp hxu).1

variable [Fintype T]

/-- A waiting task gets memory in a system-controlled partition. -/
theorem Inv.grant1 (h : k.Inv c pl x q) (hp : c.sys p = true) (t : T) :
    ∃ pl', (grant1 p k t).Inv c pl' x q ∧ ∀ u, k.Keeps c (grant1 p k t) u := by
  by_cases ht : pl t = .linked (.wait p)
  · obtain ⟨cell, hun, hbooks⟩ := h.unltcb (.wait p) ht
    have hx : x ≠ some t := fun he => nomatch ht.symm.trans (h.gone t he).off
    have hfine := h.fine t hx
    rw [ht] at hfine
    have hpcb := (hfine.wait p rfl).1
    have hq := hbooks.lktcb (t := t) .ldr (Function.update_self ..)
    rw [Function.update_idem] at hq
    refine ⟨Function.update pl t (.linked .ldr), ?_, fun u => ?_⟩
    · simp only [Kernel.grant1, hun]
      refine h.change t hq ?_ ?_ hx ?_
      · intro p' hp' hq' hb u
        by_cases hu : u = t
        · rw [hu, Function.update_self]
          exact nofun
        · rw [Function.update_of_ne hu]
          exact h.served p' hp' hq' hb u
      · intro u hu
        exact ⟨rfl, rfl, rfl, Function.update_of_ne hu ..⟩
      · rw [Function.update_self]
        apply hfine.toLoader
        rw [← hpcb, hp]
        rfl
    · simp only [Kernel.grant1, hun]
      exact ⟨rfl, rfl, id⟩
  · refine ⟨pl, ?_, fun u => ?_⟩ <;> simp only [Kernel.grant1, h.unltcb_eq_none ht]
    · exact h
    · exact Keeps.refl c k u

theorem Inv.grants (h : k.Inv c pl x q) (hp : c.sys p = true) (g : List T) :
    ∃ pl', (g.foldl (Kernel.grant1 p) k).Inv c pl' x q ∧
      ∀ u, k.Keeps c (g.foldl (Kernel.grant1 p) k) u := by
  induction g generalizing k pl with
  | nil => exact ⟨pl, h, Keeps.refl c k⟩
  | cons t g ih =>
    obtain ⟨pl₁, h₁, hk₁⟩ := h.grant1 hp t
    obtain ⟨pl₂, h₂, hk₂⟩ := ih h₁
    exact ⟨pl₂, h₂, fun u => (hk₁ u).trans (hk₂ u)⟩

/-- The first task waiting for a partition that is not busy gets it and goes to the
loader. -/
theorem Inv.assign (h : k.Inv c pl x (some p)) (hp : c.sys p = false) (hb : k.bsy p = false)
    (hh : k.lnk (.head (.wait p)) = some t) :
    ((k.assign p t).qldr t).Inv c (Function.update pl t (.linked .ldr)) x none ∧
      ∀ u, k.Keeps c ((k.assign p t).qldr t) u := by
  obtain ⟨ht, -⟩ := h.toBooks.unlink_head hh
  have hx : x ≠ some t := fun he => nomatch ht.symm.trans (h.gone t he).off
  have hfine := h.fine t hx
  rw [ht] at hfine
  have hpcb := (hfine.wait p rfl).1.symm
  have htcb : ((k.assign p t).qldr t).tcb = k.tcb := k.assign_tcb hpcb
  have hown : ∀ u, u ≠ t → ((k.assign p t).qldr t).owns c u = k.owns c u :=
    fun u hu => owns_assign hb hpcb hu
  have hself : ((k.assign p t).qldr t).owns c t = true := owns_assign_self hp hpcb
  have hq : ((k.assign p t).qldr t).Books c (Function.update pl t (.linked .ldr)) := by
    have hq := (h.toBooks.assign hb hpcb hh).lktcb (t := t) .ldr (Function.update_self ..)
    rwa [Function.update_idem] at hq
  have hbsy : ∀ p', ((k.assign p t).qldr t).bsy p' = false → p ≠ p' ∧ k.bsy p' = false := by
    intro p' hb'
    by_cases he : p' = p
    · rw [he] at hb'
      exact nomatch hb'.symm.trans (Function.update_self ..)
    · exact ⟨Ne.symm he, (Function.update_of_ne he ..).symm.trans hb'⟩
  have hserved : ∀ p', c.sys p' = false → ((k.assign p t).qldr t).bsy p' = false →
      ∀ u, Function.update pl t (.linked .ldr) u ≠ .linked (.wait p') := by
    intro p' hp' hb' u
    obtain ⟨hne, hb''⟩ := hbsy p' hb'
    by_cases hu : u = t
    · rw [hu, Function.update_self]
      exact nofun
    · rw [Function.update_of_ne hu]
      exact h.served p' hp' (fun hs => hne (Option.some.inj hs)) hb'' u
  refine ⟨{ h.change t hq (fun p' hp' _ => hserved p' hp') ?_ hx ?_ with
    served := fun p' hp' _ => hserved p' hp' }, fun u => ⟨congrFun htcb u, rfl, fun ho => ?_⟩⟩
  · intro u hu
    exact ⟨congrFun htcb u, rfl, hown u hu, Function.update_of_ne hu ..⟩
  · rw [htcb, hself, Function.update_self]
    exact hfine.toLoader (Bool.or_true _)
  · by_cases hu : u = t
    · rw [hu, hself]
    · rw [hown u hu, ho]

/-- `$ASNTP` serves the partition. -/
theorem Inv.asntp (h : k.Inv c pl x (some p)) (g : List T) :
    ∃ pl', (k.asntp c p g).Inv c pl' x none ∧ ∀ u, k.Keeps c (k.asntp c p g) u := by
  cases hp : c.sys p with
  | true =>
    obtain ⟨pl', h', hk⟩ := h.grants hp g
    rw [Kernel.asntp, if_pos hp]
    refine ⟨pl', { h' with served := fun p' hp' _ => h'.served p' hp' fun he => ?_ }, hk⟩
    rw [← Option.some.inj he, hp] at hp'
    exact nomatch hp'
  | false =>
    rw [Kernel.asntp, if_neg (Bool.eq_false_iff.mp hp)]
    cases hb : k.bsy p with
    | true =>
      rw [if_pos rfl]
      refine ⟨pl, { h with served := fun p' hp' _ hb' => h.served p' hp' (fun he => ?_) hb' },
        Keeps.refl c k⟩
      rw [← Option.some.inj he, hb] at hb'
      exact nomatch hb'
    | false =>
      rw [if_neg nofun]
      cases hh : k.lnk (.head (.wait p)) with
      | none =>
        refine ⟨pl, { h with served := fun p' hp' _ hb' u => ?_ }, Keeps.refl c k⟩
        by_cases he : p' = p
        · rw [he]
          exact h.toBooks.head_eq_none hh
        · exact h.served p' hp' (fun hs => he (Option.some.inj hs).symm) hb' u
      | some t => exact ⟨_, h.assign hp hb hh⟩

/-- `TFREE` for a task that is gone and owns its partition, unless that is not busy. -/
theorem Inv.tfree (h : k.Inv c pl x none) (x' : Option T)
    (hx : ∀ u, x' = some u ↔ x = some u ∧ u ≠ t) (ht : (k.tcb t).Gone (pl t))
    (hb : c.sys (k.tcb t).pcb = true ∨ k.bsy (k.tcb t).pcb = false ∨
      k.own (k.tcb t).pcb = some t) (g : List T) :
    ∃ pl', (k.tfree c t g).Inv c pl' x' none ∧ (k.tfree c t g).tcb t = k.tcb t ∧
      ∀ u, u ≠ t → k.Keeps c (k.tfree c t g) u := by
  simp only [Kernel.tfree]
  cases hp : c.sys (k.tcb t).pcb with
  | true =>
    rw [if_pos rfl]
    obtain ⟨pl', h', hk⟩ := ((h.ended hx ht hp).of_none (some (k.tcb t).pcb)).asntp g
    exact ⟨pl', h', (hk t).tcb, fun u _ => hk u⟩
  | false =>
    rw [if_neg nofun]
    have hb' := hb.resolve_left (Bool.eq_false_iff.mp hp)
    obtain ⟨pl', h', hk⟩ := (h.release hx ht hb').asntp g
    refine ⟨pl', h', (hk t).tcb, fun u hu => ?_⟩
    have hr : k.Keeps c (k.release (k.tcb t).pcb t) u :=
      ⟨rfl, rfl, fun ho => (owns_release hb' hu).trans ho⟩
    exact hr.trans (hk u)

/-! ## Request and fix -/

/-- `trq6`: a task on no list, with the bits of a requested or fixed one, is queued to
its partition. -/
theorem Inv.trq6 (h : k.Inv c pl x none) (hx : x ≠ some t) (hpcb : b.pcb = (k.tcb t).pcb)
    (ht : pl t = .off) (hown : k.owns c t = false) (hl : b.live = true) (hout : b.out = true)
    (hldr : b.ldr = false) (habo : b.abo = false) (hioc : b.ioc = 0) (hdir : k.tlist t = true) (g : List T) :
    ∃ pl', ((k.setTcb t b).trq6 c t g).Inv c pl' x none ∧
      ∀ u, u ≠ t → k.Keeps c ((k.setTcb t b).trq6 c t g) u := by
  have hq : ((k.setTcb t b).qpar t).Inv c (Function.update pl t (.linked (.wait b.pcb))) x
      (some b.pcb) := by
    have hbooks := (h.toBooks.setTcb hpcb).lktcb (t := t) (.wait b.pcb) ht
    refine h.of_none _ |>.change t ?_ ?_ ?_ hx ?_
    · rw [qpar, setTcb_self]
      exact hbooks
    · intro p hp hq hb u
      by_cases hu : u = t
      · rw [hu, Function.update_self]
        rintro ⟨⟩
        exact hq rfl
      · rw [Function.update_of_ne hu]
        exact h.served p hp nofun hb u
    · intro u hu
      exact ⟨setTcb_of_ne k b hu, rfl, owns_setTcb hpcb u, Function.update_of_ne hu ..⟩
    · have hown' : ((k.setTcb t b).qpar t).owns c t = false := (owns_setTcb hpcb t).trans hown
      have htcb : ((k.setTcb t b).qpar t).tcb t = b := setTcb_self k t b
      rw [hown', htcb, Function.update_self]
      exact {
        wait := fun p hp => by
          cases hp
          exact ⟨rfl, hl, hout, hldr, rfl⟩
        load := by rintro (h | h) <;> exact nomatch h
        off := nofun
        mem := fun _ ho => nomatch hout.symm.trans ho
        ldr := fun _ ho => nomatch hldr.symm.trans ho
        abo := fun _ ha => nomatch habo.symm.trans ha
        io := fun hc => absurd hioc hc
        dir := fun _ => hdir
        own := nofun }
  obtain ⟨pl', h', hk⟩ := hq.asntp g
  rw [Kernel.trq6, setTcb_self]
  refine ⟨pl', h', fun u hu => ?_⟩
  have hq : k.Keeps c ((k.setTcb t b).qpar t) u :=
    (keeps_setTcb hpcb hu).congr rfl rfl rfl rfl
  exact hq.trans (hk u)

/-- A task asking for memory finds a context block, or its partition is not busy: what
`trqe` then gives back belongs to no other task. -/
def Clean (c : Config T P) (k : Kernel T P) (t : T) (r : Request T) : Prop :=
  (k.tcb t).act = false → (k.tcb t).fix = false → r.ctx = false →
    c.sys (k.tcb t).pcb = true ∨ k.bsy (k.tcb t).pcb = false

/-- A request that finds no room. -/
theorem Inv.room (h : k.Inv c pl x none) (hx : x ≠ some t) (hl : (k.tcb t).live = false)
    (hr : k.Clean c t r) {e : Kernel T P × Sched.Ret} (he : k.room c t r = .error e) :
    ∃ pl', e.1.Inv c pl' x none ∧ ∀ u, u ≠ t → k.Keeps c e.1 u := by
  have hsame : ∃ pl', k.Inv c pl' x none ∧ ∀ u, u ≠ t → k.Keeps c k u :=
    ⟨pl, h, fun u _ => Keeps.refl c k u⟩
  have hact : (k.tcb t).act = false ∧ (k.tcb t).fix = false := by
    simpa [Tcb.live] using hl
  rw [Kernel.room] at he
  cases hz : getsiz (k.tcb t).dend with
  | error e' =>
    rw [hz] at he
    cases he
    exact hsame
  | ok n =>
    rw [hz] at he
    dsimp only at he
    split_ifs at he with h₁ h₂ h₃
    · cases he
      exact hsame
    · cases he
      exact hsame
    · cases he
      have hb := hr hact.1 hact.2 (by simpa using h₃)
      have hxu : ∀ u, x = some u ↔ x = some u ∧ u ≠ t :=
        fun u => ⟨fun he => ⟨he, fun hu => hx (hu ▸ he)⟩, And.left⟩
      obtain ⟨pl', h', -, hk⟩ := h.tfree x hxu ((h.fine t hx).gone hl) (hb.imp_right Or.inl) r.grant
      exact ⟨pl', h', hk⟩

/-- `TRQST2` from `trq3` on. -/
theorem Inv.trq3 (h : k.Inv c pl x none) (hx : x ≠ some t) (hact : (k.tcb t).act = false)
    (hioc : (k.tcb t).ioc = 0) (hdir : k.tlist t = true) (hr : k.Clean c t r) :
    ∃ pl', (k.trq3 c t r).1.Inv c pl' x none ∧
      ∀ u, u ≠ t → k.Keeps c (k.trq3 c t r).1 u := by
  unfold Kernel.trq3
  split_ifs with hdev hf
  · exact ⟨pl, h, fun u _ => Keeps.refl c k u⟩
  · exact ⟨pl, h.trq4 hx hf hioc⟩
  · have hl : (k.tcb t).live = false := by simp [Tcb.live, hact, hf]
    cases hroom : k.room c t r with
    | error e => exact h.room hx hl hr hroom
    | ok _ =>
      have hfine := h.fine t hx
      exact h.trq6 (b := { k.tcb t with act := true, out := true, ldr := false, abo := false })
        hx rfl (hfine.gone hl).off (hfine.own_eq_false hl) rfl rfl rfl rfl hioc hdir r.grant

/-- `TRQST2`. -/
theorem Inv.trqst2 (h : k.Inv c pl x none) (hx : x ≠ some t) (hdir : k.tlist t = true)
    (hr : k.Clean c t r) :
    ∃ pl', (k.trqst2 c t r).1.Inv c pl' x none ∧
      ∀ u, u ≠ t → k.Keeps c (k.trqst2 c t r).1 u := by
  unfold Kernel.trqst2
  cases hact : (k.tcb t).act with
  | true =>
    rw [if_pos rfl]
    exact ⟨pl, h, fun u _ => Keeps.refl c k u⟩
  | false =>
    rw [if_neg nofun]
    have h₁ : (k.setTcb t { k.tcb t with pri := (k.tcb t).dpri, ioc := 0 }).Inv c pl x none := by
      have hfine := h.fine t hx
      exact h.setTcb hx rfl { hfine with io := fun hc => absurd rfl hc }
    have hr₁ : (k.setTcb t { k.tcb t with pri := (k.tcb t).dpri, ioc := 0 }).Clean c t r := by
      intro _ hf hc
      rw [setTcb_self] at hf ⊢
      exact hr hact hf hc
    obtain ⟨pl', h', hk⟩ := h₁.trq3 hx (by rwa [setTcb_self]) (by rw [setTcb_self]) hdir hr₁
    refine ⟨pl', h', fun u hu => ?_⟩
    have hk₁ : k.Keeps c (k.setTcb t { k.tcb t with pri := (k.tcb t).dpri, ioc := 0 }) u :=
      keeps_setTcb rfl hu
    exact hk₁.trans (hk u hu)

/-- `TRQST`. -/
theorem Inv.trqst (h : k.Inv c pl none none) (hr : k.Clean c t r) :
    ∃ pl', (k.trqst c t r).1.Inv c pl' none none := by
  unfold Kernel.trqst
  split_ifs with hdir
  · exact ⟨pl, h⟩
  · obtain ⟨pl', h', -⟩ := h.trqst2 nofun (by simpa using hdir) hr
    exact ⟨pl', h'⟩

/-- `$FIXTK`. -/
theorem Inv.fixtk (h : k.Inv c pl none none) (hr : k.Clean c t r) :
    ∃ pl', (k.fixtk c t r).1.Inv c pl' none none := by
  unfold Kernel.fixtk
  split_ifs with hdir hact hf
  · exact ⟨pl, h⟩
  · exact ⟨pl, h⟩
  · exact ⟨pl, h⟩
  · have hl : (k.tcb t).live = false := by simp [Tcb.live, hact, hf]
    have hfine := h.fine t (by rintro ⟨⟩)
    unfold Kernel.fix
    cases hroom : k.room c t r with
    | error e =>
      obtain ⟨pl', h', -⟩ := h.room (by rintro ⟨⟩) hl hr hroom
      exact ⟨pl', h'⟩
    | ok _ =>
      obtain ⟨pl', h', -⟩ := h.trq6 (b := { k.tcb t with
          out := true, ldr := false, abo := false, fix := true }) (by rintro ⟨⟩) rfl
        (hfine.gone hl).off (hfine.own_eq_false hl) (Bool.or_true _) rfl rfl rfl (hfine.gone hl).ioc
        (by simpa using hdir) r.grant
      exact ⟨pl', h'⟩

/-! ## Unfix and remove -/

/-- If `t` is fixed and not active, it is neither on a list nor being loaded, and its
partition is not that of another task. -/
def Loose (c : Config T P) (k : Kernel T P) (t : T) : Prop :=
  (k.tcb t).act = false → (k.tcb t).fix = true →
    k.ftcb (.wait (k.tcb t).pcb) t = none ∧ k.ftcb .ldr t = none ∧ k.loading ≠ some t ∧
      (c.sys (k.tcb t).pcb = true ∨ k.bsy (k.tcb t).pcb = false ∨
        k.own (k.tcb t).pcb = some t)

omit [DecidableEq P] in
theorem Inv.off_of_ftcb (h : k.Inv c pl none q) (hw : k.ftcb (.wait (k.tcb t).pcb) t = none)
    (hl : k.ftcb .ldr t = none) (hld : k.loading ≠ some t) : pl t = .off := by
  cases hp : pl t with
  | off => rfl
  | linked hd =>
    cases hd with
    | wait p =>
      obtain ⟨rfl, -⟩ := (h.fine t (by rintro ⟨⟩)).wait p hp
      exact absurd hw (h.ftcb_ne_none hp)
    | ldr => exact absurd hl (h.ftcb_ne_none hp)
  | loader => exact absurd ((h.loading t).mpr hp) hld

omit [DecidableEq P] [Fintype T] in
/-- A task that is neither active nor fixed leaves the directory. -/
theorem Inv.unlist (h : k.Inv c pl none q) (hl : (k.tcb t).live = false) :
    { k with tlist := Function.update k.tlist t false }.Inv c pl none q := by
  have hfine := h.fine t nofun
  refine h.change t ⟨h.lists, h.loading, h.owner, h.idle, h.freed⟩ h.served ?_ nofun ?_
  · intro u hu
    exact ⟨rfl, Function.update_of_ne hu .., rfl, rfl⟩
  · exact { hfine with dir := fun hl' => nomatch hl.symm.trans hl' }

/-- `UNFIX` of an inactive task. -/
theorem Inv.unfix (h : k.Inv c pl none none) (hact : (k.tcb t).act = false)
    (hr : k.Loose c t) (g : List T) :
    ∃ pl', (k.unfix c t g).1.Inv c pl' none none ∧ ((k.unfix c t g).1.tcb t).live = false := by
  unfold Kernel.unfix
  dsimp only
  cases hf : (k.tcb t).fix with
  | false => exact ⟨pl, h, by simp [Tcb.live, hact, hf]⟩
  | true =>
    obtain ⟨hw, hl, hld, hb⟩ := hr hact hf
    have hioc : (k.tcb t).ioc = 0 := by
      by_contra hc
      cases hact.symm.trans ((h.fine t (by rintro ⟨⟩)).io hc).1
    have hgone : ({ k.tcb t with fix := false } : Tcb P).Gone (pl t) :=
      ⟨by simp [Tcb.live, hact], h.off_of_ftcb hw hl hld, hioc⟩
    have h₁ : (k.setTcb t { k.tcb t with fix := false }).Inv c pl (some t) none :=
      h.setGone rfl hgone
    obtain ⟨pl', h', htcb, -⟩ := h₁.tfree none (by simp) (h₁.gone t rfl)
      (by rw [setTcb_self]; exact hb) g
    refine ⟨pl', h', ?_⟩
    rw [if_neg (by rintro ⟨⟩), htcb, setTcb_self]
    exact hgone.live

/-- `$UNFTK`. -/
theorem Inv.unftk (h : k.Inv c pl none none) (hr : k.Loose c t) (g : List T) :
    ∃ pl', (k.unftk c t g).1.Inv c pl' none none := by
  unfold Kernel.unftk
  split_ifs with hdir hact
  · exact ⟨pl, h⟩
  · exact ⟨pl, h⟩
  · obtain ⟨pl', h', -⟩ := h.unfix (by simpa using hact) hr g
    exact ⟨pl', h'⟩

/-- `$REMTK`. -/
theorem Inv.remtk (h : k.Inv c pl none none) (hr : k.Loose c t) (g : List T) :
    ∃ pl', (k.remtk c t g).1.Inv c pl' none none := by
  unfold Kernel.remtk
  split_ifs with hdir hact
  · exact ⟨pl, h⟩
  · exact ⟨pl, h⟩
  · obtain ⟨pl', h', hl⟩ := h.unfix (by simpa using hact) hr g
    exact ⟨pl', h'.unlist hl⟩

end Kernel

end RSX280.Pars
