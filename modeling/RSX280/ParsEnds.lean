import RSX280.ParsOps

/-!
# The end of a task keeps the books

`TKILL2` gives back what a task holds, and reports it to `TKTN`, whose request may in
turn take a partition. `TKILL`, the end of the last I/O request and the loader come to
it from different states; each shows that the task is on no list by then and that it
owns the partition it gives back.
-/

namespace RSX280.Pars

open Links

universe u v

namespace Kernel

variable {T : Type u} {P : Type v} [DecidableEq T] [DecidableEq P] [Fintype T]
  {c : Config T P} {k k' : Kernel T P} {pl : T → Place P} {x : Option T}
  {q : Option P} {t : T} {v : KillEnv T}

/-! ## The end of a task -/

/-- If the end of `t` is reported with a reason, it is not `TKTN` that ends, and the
request of `TKTN` gives nothing back that another task owns. -/
def Reported (c : Config T P) (k : Kernel T P) (t : T) (v : KillEnv T) : Prop :=
  ∀ u, c.tktn = some u → k.tlist u = true → v.msg = true → t ≠ u ∧ k.Clean c u v.req

/-- `QTKTN`. -/
theorem Inv.qtktn (h : k.Inv c pl x none) (hr : k.Reported c t v) (hx : x = none ∨ x = some t) :
    ∃ pl', (k.qtktn c v).Inv c pl' x none ∧ k.Keeps c (k.qtktn c v) t := by
  unfold Kernel.qtktn
  cases hu : c.tktn with
  | none => exact ⟨pl, h, Keeps.refl c k t⟩
  | some u =>
    dsimp only
    split_ifs with hq
    · exact ⟨pl, h, Keeps.refl c k t⟩
    · have hq' : k.tlist u = true ∧ v.msg = true := by simpa using hq
      obtain ⟨hne, hclean⟩ := hr u hu hq'.1 hq'.2
      have hxu : x ≠ some u := by
        rcases hx with rfl | rfl
        · rintro ⟨⟩
        · exact fun he => hne (Option.some.inj he)
      obtain ⟨pl', h', hk⟩ := h.trqst2 hxu hq'.1 hclean
      exact ⟨pl', h', hk t hne⟩

omit [DecidableEq T] [DecidableEq P] [Fintype T] in
/-- The message about the end of `t` is not affected by what has happened to `t`. -/
theorem Reported.congr (h : k.Reported c t v) (hk : ∀ u, u ≠ t → k'.tcb u = k.tcb u)
    (hdir : ∀ u, k'.tlist u = true → k.tlist u = true) (hb : k'.bsy = k.bsy) :
    k'.Reported c t v := by
  intro u hu hd hm
  obtain ⟨hne, hc⟩ := h u hu (hdir u hd) hm
  refine ⟨hne, ?_⟩
  rw [Clean, hk u (Ne.symm hne), hb]
  exact hc

/-- `tk3` for a task that keeps nothing but its partition. -/
theorem Inv.tk3_of_gone (h : k.Inv c pl (some t) none)
    (hb : (c.sys (k.tcb t).pcb || k.owns c t) = true) (g : List T) :
    ∃ pl', (k.tk3 c t g).Inv c pl' none none := by
  have hgone := h.gone t rfl
  have hf : (k.tcb t).fix = false := by
    have := hgone.live
    simp only [Tcb.live, Bool.or_eq_false_iff] at this
    exact this.2
  have hb' : c.sys (k.tcb t).pcb = true ∨ k.bsy (k.tcb t).pcb = false ∨
      k.own (k.tcb t).pcb = some t := by
    rcases Bool.or_eq_true_iff.mp hb with hs | ho
    · exact Or.inl hs
    · exact Or.inr (Or.inr (owns_eq_true.mp ho).2.2)
  obtain ⟨pl', h', htcb, -⟩ := h.tfree none (by simp) hgone hb' g
  have hfine := h'.fine t (by rintro ⟨⟩)
  have hl : ((k.tfree c t g).tcb t).live = false := htcb ▸ hgone.live
  have hgone' := hfine.gone hl
  unfold Kernel.tk3
  rw [if_neg (Bool.eq_false_iff.mp hf)]
  have hout : ({ (k.tfree c t g).tcb t with out := false } : Tcb P).Gone (pl' t) :=
    ⟨hl, hgone'.off, hgone'.ioc⟩
  refine ⟨pl', h'.setTcb (by rintro ⟨⟩) rfl ?_⟩
  rw [hfine.own_eq_false hl]
  exact hout.fine _ _

omit [DecidableEq P] [Fintype T] in
/-- The directory bit of a task that is gone does not matter. -/
theorem Inv.tlist (h : k.Inv c pl (some t) q) (d : Bool) :
    { k with tlist := Function.update k.tlist t d }.Inv c pl (some t) q where
  lists := h.lists
  loading := h.loading
  owner := h.owner
  idle := h.idle
  freed := h.freed
  served := h.served
  fine u hu := by
    have hne : u ≠ t := fun he => hu (he ▸ rfl)
    dsimp only
    rw [Function.update_of_ne hne]
    exact h.fine u hu
  gone := h.gone

/-- `tk0` for a task that stays fixed. -/
theorem Inv.tk0_of_fixed (h : k.Inv c pl none none) (hact : (k.tcb t).act = true)
    (ht : pl t = .off) (hioc : (k.tcb t).ioc = 0) (hf : (k.tcb t).fix = true)
    (hrem : (k.tcb t).rem = false) (hr : (k.tcb t).svst ≠ 0 → k.Reported c t v) :
    ∃ pl', (k.tk0 c t v).1.Inv c pl' none none := by
  have hfine := h.fine t nofun
  have h₁ : (k.setTcb t { k.tcb t with act := false }).Inv c pl none none := by
    refine h.setTcb nofun rfl ?_
    rw [ht] at hfine ⊢
    exact hfine.deactivate hf hrem hioc
  have hkeep : ∀ k' : Kernel T P, (k.setTcb t { k.tcb t with act := false }).Keeps c k' t →
      k'.tk3 c t v.grant = k' := by
    intro k' hk
    rw [Kernel.tk3, hk.tcb, setTcb_self, if_pos hf]
  unfold Kernel.tk0
  rw [hact, if_neg nofun]
  dsimp only
  split_ifs with hs
  · rw [hkeep _ (Keeps.refl c _ t)]
    exact ⟨pl, h₁⟩
  · obtain ⟨pl', h', hk⟩ := h₁.qtktn ((hr hs).congr (fun u hu => setTcb_of_ne k _ hu)
      (fun _ => id) rfl) (Or.inl rfl)
    rw [hkeep _ hk]
    exact ⟨pl', h'⟩

/-- `tk0` for a task that is not fixed, or not any longer. -/
theorem Inv.tk0_of_gone (h : (k.setTcb t { k.tcb t with act := false }).Inv c pl (some t) none)
    (hact : (k.tcb t).act = true)
    (hb : (c.sys (k.tcb t).pcb || k.owns c t) = true)
    (hr : (k.tcb t).svst ≠ 0 → k.Reported c t v) :
    ∃ pl', (k.tk0 c t v).1.Inv c pl' none none := by
  have hb₁ : (c.sys ((k.setTcb t { k.tcb t with act := false }).tcb t).pcb ||
      (k.setTcb t { k.tcb t with act := false }).owns c t) = true := by
    have ho : (k.setTcb t { k.tcb t with act := false }).owns c t = k.owns c t :=
      owns_setTcb (by rfl) t
    rw [ho, setTcb_self]
    exact hb
  unfold Kernel.tk0
  rw [hact, if_neg nofun]
  dsimp only
  split_ifs with hs
  · exact h.tk3_of_gone hb₁ v.grant
  · obtain ⟨pl', h', hk⟩ := h.qtktn ((hr hs).congr (fun u hu => setTcb_of_ne k _ hu)
      (fun _ => id) rfl) (Or.inr rfl)
    refine h'.tk3_of_gone ?_ v.grant
    rw [hk.tcb]
    rcases Bool.or_eq_true_iff.mp hb₁ with hs | ho
    · rw [hs]
      rfl
    · rw [hk.owns ho, Bool.or_true]

/-- `TKILL2` for an active task off the lists and without I/O. -/
theorem Inv.tkill2 (h : k.Inv c pl none none) (hact : (k.tcb t).act = true)
    (ht : pl t = .off) (hioc : (k.tcb t).ioc = 0)
    (hr : (k.tcb t).svst ≠ 0 → k.Reported c t v) :
    ∃ pl', (k.tkill2 c t v).1.Inv c pl' none none := by
  have hfine := h.fine t (by rintro ⟨⟩)
  have hl : (k.tcb t).live = true := by rw [Tcb.live, hact, Bool.true_or]
  have hoff := hfine.off ht hl
  unfold Kernel.tkill2
  rw [if_neg (by simp [hfine.dir hl])]
  unfold Kernel.unlist
  cases hrem : (k.tcb t).rem with
  | false =>
    rw [if_neg (by rintro ⟨⟩)]
    cases hf : (k.tcb t).fix with
    | true => exact h.tk0_of_fixed hact ht hioc hf hrem hr
    | false =>
      have hg : ({ k.tcb t with act := false } : Tcb P).Gone (pl t) :=
        ⟨by simp [Tcb.live, hf], ht, hioc⟩
      have h₁ : (k.setTcb t { k.tcb t with act := false }).Inv c pl (some t) none :=
        h.setGone rfl hg
      exact h₁.tk0_of_gone hact (hoff (Or.inl hf)) hr
  | true =>
    rw [if_pos rfl]
    generalize hk' : ({ k with tlist := Function.update k.tlist t false }.setTcb t
      { k.tcb t with fix := false } : Kernel T P) = k'
    have htcb : k'.tcb t = { k.tcb t with fix := false } := hk' ▸ setTcb_self ..
    have ho : k'.owns c t = k.owns c t := hk' ▸ owns_setTcb (by rfl) t
    have h₁ : (k'.setTcb t { k'.tcb t with act := false }).Inv c pl (some t) none := by
      have hg : ({ k.tcb t with fix := false, act := false } : Tcb P).Gone (pl t) :=
        ⟨rfl, ht, hioc⟩
      have h₁ : (k.setTcb t { k.tcb t with fix := false, act := false }).Inv c pl (some t) none :=
        h.setGone rfl hg
      rw [htcb, ← hk', setTcb_setTcb]
      exact h₁.tlist false
    refine h₁.tk0_of_gone ?_ ?_ ?_
    · rw [htcb]
      exact hact
    · rw [ho, htcb]
      exact hoff (Or.inr hrem)
    · intro hs
      rw [htcb] at hs
      rw [← hk']
      refine (hr hs).congr (fun u hu => setTcb_of_ne _ _ hu) (fun u hu => ?_) rfl
      by_cases he : u = t
      · rw [he]
        exact hfine.dir hl
      · exact (Function.update_of_ne he ..).symm.trans hu

omit [DecidableEq P] [Fintype T] in
/-- A task leaves the list it is on, or the loader. -/
theorem Inv.leave (h : k.Inv c pl none none) (hb : k'.Books c (Function.update pl t .off))
    (h₁ : k'.tcb = k.tcb) (h₂ : k'.tlist = k.tlist) (h₃ : k'.bsy = k.bsy) (h₄ : k'.own = k.own)
    (ht : (k.tcb t).Fine .off (c.sys (k.tcb t).pcb) (k.owns c t) (k.tlist t)) :
    k'.Inv c (Function.update pl t .off) none none := by
  have ho : ∀ u, k'.owns c u = k.owns c u := by
    intro u
    simp only [Kernel.owns, h₁, h₃, h₄]
  refine h.change t hb ?_ ?_ (by rintro ⟨⟩) ?_
  · intro p hp _ hbsy u
    by_cases hu : u = t
    · rw [hu, Function.update_self]
      rintro ⟨⟩
    · rw [Function.update_of_ne hu]
      exact h.served p hp (by rintro ⟨⟩) (h₃ ▸ hbsy) u
  · intro u hu
    exact ⟨congrFun h₁ u, congrFun h₂ u, ho u, Function.update_of_ne hu ..⟩
  · rw [ho, h₁, h₂, Function.update_self]
    exact ht

/-- `TKILL` from `tk5` on. -/
theorem Inv.tk5 (h : k.Inv c pl none none) (hact : (k.tcb t).act = true) (ht : pl t = .off)
    (hr : (k.tcb t).svst ≠ 0 → k.Reported c t v) :
    ∃ pl', (k.tk5 c t v).1.Inv c pl' none none := by
  unfold Kernel.tk5
  by_cases hioc : (k.tcb t).ioc = 0
  · rw [if_neg (not_not_intro hioc)]
    exact h.tkill2 hact ht hioc hr
  · rw [if_pos hioc]
    exact ⟨pl, h⟩

/-- If `t` waits for its partition, it is fixed and stays installed, or the partition is
system-controlled. -/
def Spared (c : Config T P) (k : Kernel T P) (t : T) : Prop :=
  k.ftcb (.wait (k.tcb t).pcb) t = none ∨ c.sys (k.tcb t).pcb = true ∨
    (k.tcb t).fix = true ∧ (k.tcb t).rem = false

/-- `TKILL` from `tk6` on. -/
theorem Inv.tk6 (h : k.Inv c pl none none) (hact : (k.tcb t).act = true)
    (hw : k.Spared c t) (hr : (k.tcb t).svst ≠ 0 → k.Reported c t v) :
    ∃ pl', (k.tk6 c t v).1.Inv c pl' none none := by
  have hfine := h.fine t nofun
  unfold Kernel.tk6
  dsimp only
  cases hout : (k.tcb t).out with
  | false => exact h.tk5 hact (hfine.off_of_out hout) hr
  | true =>
    rw [if_neg nofun]
    by_cases hpw : pl t = .linked (.wait (k.tcb t).pcb)
    · -- on the wait list of its partition
      obtain ⟨cell, hun, hbooks⟩ := h.unltcb _ hpw
      rw [hun]
      rw [hpw] at hfine
      refine (h.leave hbooks rfl rfl rfl rfl (hfine.giveUp fun hf => ?_)).tk5 hact
        (Function.update_self ..) hr
      rcases hw with hw | hw | ⟨hw, hw'⟩
      · exact absurd hw (h.ftcb_ne_none hpw)
      · rw [hw]
        rfl
      · rcases hf with hf | hf
        · exact nomatch hf.symm.trans hw
        · exact nomatch hf.symm.trans hw'
    · rw [h.unltcb_eq_none hpw]
      dsimp only
      by_cases hpl : pl t = .linked .ldr
      · -- on the queue of the loader
        obtain ⟨cell, hun, hbooks⟩ := h.unltcb _ hpl
        rw [hun]
        exact (h.leave hbooks rfl rfl rfl rfl (hfine.takeBack (Or.inl hpl))).tk5 hact
          (Function.update_self ..) hr
      · rw [h.unltcb_eq_none hpl]
        dsimp only
        split_ifs with hldr
        · exact h.tk5 hact (hfine.off_of_ldr hldr) hr
        · exact ⟨pl, h⟩

/-- `TKILL`. -/
theorem Inv.tkill (h : k.Inv c pl none none) {e : ℕ} (hn : v.ioc ≤ (k.tcb t).ioc)
    (hw : (k.tcb t).act = true → k.Spared c t)
    (hr : (k.tcb t).act = true → v.oio ||| e ≠ 0 → k.Reported c t v) :
    ∃ pl', (k.tkill c t e v).1.Inv c pl' none none := by
  unfold Kernel.tkill
  dsimp only
  split_ifs with hsys hact habo
  · exact ⟨pl, h⟩
  · exact ⟨pl, h⟩
  · exact ⟨pl, h⟩
  · have hact : (k.tcb t).act = true := by simpa using hact
    refine Inv.tk6 (h.setTcb (by rintro ⟨⟩) rfl ((h.fine t (by rintro ⟨⟩)).abort hact _ hn)) ?_ ?_ ?_
    · rw [setTcb_self]
      exact hact
    · unfold Spared
      rw [setTcb_self]
      exact hw hact
    · intro hs
      rw [setTcb_self] at hs
      exact (hr hact hs).congr (fun u hu => setTcb_of_ne k _ hu) (fun _ => id) rfl

/-- `SETFRE`. -/
theorem Inv.setfre (h : k.Inv c pl none none) (hioc : (k.tcb t).ioc ≠ 0)
    (hr : (k.tcb t).abo = true → (k.tcb t).svst ≠ 0 → k.Reported c t v) :
    ∃ pl', (k.setfre c t v).Inv c pl' none none := by
  have hfine := h.fine t (by rintro ⟨⟩)
  obtain ⟨hact, hout⟩ := hfine.io hioc
  have h₁ : (k.setTcb t { k.tcb t with ioc := (k.tcb t).ioc - 1 }).Inv c pl none none :=
    h.setTcb (by rintro ⟨⟩) rfl { hfine with io := fun _ => ⟨hact, hout⟩ }
  unfold Kernel.setfre
  dsimp only
  split_ifs with hz
  · refine h₁.tkill2 ?_ (hfine.off_of_out hout) ?_ ?_
    · rw [setTcb_self]
      exact hact
    · rw [setTcb_self]
      exact hz.1
    · intro hs
      rw [setTcb_self] at hs
      exact (hr hz.2 hs).congr (fun u hu => setTcb_of_ne k _ hu) (fun _ => id) rfl
  · exact ⟨pl, h₁⟩

/-! ## The loader -/

omit [DecidableEq P] [Fintype T] in
/-- The loader is done with a task. -/
theorem Inv.loaded (h : k.Inv c pl none none) (ht : k.loading = some t) :
    { k with loading := none }.Inv c (Function.update pl t .off) none none := by
  have hp := (h.loading t).mp ht
  have hne : ∀ u, u ≠ t → pl u ≠ .loader := by
    intro u hu he
    exact hu (Option.some.inj (((h.loading u).mpr he).symm.trans ht))
  refine h.leave ⟨?_, fun u => ⟨nofun, fun he => ?_⟩, h.owner, h.idle, h.freed⟩ rfl rfl rfl rfl
    ((h.fine t nofun).takeBack (Or.inr hp))
  · obtain ⟨l, hl, hm⟩ := h.lists
    refine ⟨l, hl, fun hd u => (hm hd u).trans ?_⟩
    by_cases hu : u = t
    · rw [hu, hp, Function.update_self]
      exact ⟨nofun, nofun⟩
    · rw [Function.update_of_ne hu]
  · by_cases hu : u = t
    · rw [hu, Function.update_self] at he
      exact nomatch he
    · rw [Function.update_of_ne hu] at he
      exact absurd he (hne u hu)

omit [Fintype T] in
/-- The loader takes a task off its queue. -/
theorem Inv.next (h : k.Inv c pl none none) : ∃ pl', k.next.Inv c pl' none none := by
  unfold Kernel.next
  cases hld : k.loading with
  | some t => exact ⟨pl, h⟩
  | none =>
    cases hh : k.lnk (.head .ldr) with
    | none => exact ⟨pl, h⟩
    | some t =>
      obtain ⟨ht, hbooks⟩ := h.toBooks.unlink_head hh
      have hne : ∀ u, pl u ≠ .loader := fun u he => nomatch hld.symm.trans ((h.loading u).mpr he)
      have hfine := h.fine t nofun
      rw [ht] at hfine
      refine ⟨Function.update pl t .loader, h.change t ⟨?_, fun u => ?_, h.owner, h.idle,
        h.freed⟩ ?_ ?_ nofun ?_⟩
      · obtain ⟨l, hl, hm⟩ := hbooks.lists
        refine ⟨l, hl, fun hd u => (hm hd u).trans ?_⟩
        by_cases hu : u = t
        · rw [hu, Function.update_self, Function.update_self]
          exact ⟨nofun, nofun⟩
        · rw [Function.update_of_ne hu, Function.update_of_ne hu]
      · by_cases hu : u = t
        · rw [hu, Function.update_self]
          exact ⟨fun _ => rfl, fun _ => rfl⟩
        · rw [Function.update_of_ne hu]
          exact ⟨fun he => absurd (Option.some.inj he).symm hu, fun he => absurd he (hne u)⟩
      · intro p hp hq hb u
        by_cases hu : u = t
        · rw [hu, Function.update_self]
          exact nofun
        · rw [Function.update_of_ne hu]
          exact h.served p hp hq hb u
      · intro u hu
        exact ⟨rfl, rfl, rfl, Function.update_of_ne hu ..⟩
      · rw [Function.update_self]
        exact hfine.taken

/-- The end of `TLOAD`, without error. -/
theorem Inv.ldend (h : k.Inv c pl none none)
    (hr : ∀ t, k.loading = some t → (k.tcb t).abo = true → (k.tcb t).svst ≠ 0 →
      k.Reported c t v) :
    ∃ pl', (k.ldend c v).Inv c pl' none none := by
  unfold Kernel.ldend
  cases hld : k.loading with
  | none => exact ⟨pl, h⟩
  | some t =>
    have hp := (h.loading t).mp hld
    have hfine := h.fine t (by rintro ⟨⟩)
    have hload := hfine.load (Or.inr hp)
    have h₁ := h.loaded hld
    dsimp only
    unfold Kernel.ldgo
    split_ifs with habo
    · refine h₁.tkill2 (hfine.abo ?_ habo) (Function.update_self ..) ?_ ?_
      · rw [hp]
        rintro ⟨⟩
      · by_contra hc
        cases hload.2.1.symm.trans (hfine.io hc).2
      · exact fun hs => (hr t hld habo hs).congr (fun _ _ => rfl) (fun _ => id) rfl
    · exact ⟨_, h₁.ldgo2 (by rintro ⟨⟩) (Function.update_self ..) hload.2.2.2⟩

/-- `lderr`. -/
theorem Inv.lderr (h : k.Inv c pl none none) {e : ℕ}
    (hn : ∀ t, k.loading = some t → v.ioc ≤ (k.tcb t).ioc)
    (hr : ∀ t, k.loading = some t → (k.tcb t).act = true → v.oio ||| e ≠ 0 →
      k.Reported c t v) :
    ∃ pl', (k.lderr c e v).Inv c pl' none none := by
  unfold Kernel.lderr
  cases hld : k.loading with
  | none => exact ⟨pl, h⟩
  | some t =>
    have hfine := h.fine t (by rintro ⟨⟩)
    have hload := hfine.load (Or.inr ((h.loading t).mp hld))
    have h₁ := h.loaded hld
    have hfine₁ := h₁.fine t nofun
    rw [Function.update_self] at hfine₁
    have h₂ : ({ k with loading := none }.setTcb t { k.tcb t with ldr := true }).Inv c
        (Function.update pl t .off) none none := by
      refine h₁.setTcb nofun rfl ?_
      rw [Function.update_self]
      exact {
        wait := nofun
        load := by rintro (h | h) <;> exact nomatch h
        off := hfine₁.off
        mem := hfine₁.mem
        ldr := fun _ _ => hload.2.2.2
        abo := fun hp => absurd rfl hp
        io := hfine₁.io
        dir := hfine₁.dir
        own := hfine₁.own }
    refine h₂.tkill ?_ (fun _ => Or.inl (h₂.ftcb_eq_none ?_)) fun hact hs => ?_
    · rw [setTcb_self]
      exact hn t hld
    · rw [Function.update_self]
      exact nofun
    · rw [setTcb_self] at hact
      exact (hr t hld hact hs).congr (fun u hu => setTcb_of_ne _ _ hu) (fun _ => id) rfl

/-! ## Priority -/

omit [DecidableEq P] [Fintype T] in
/-- `ALTPRI` leaves the lists as they are. -/
theorem Inv.altpri (h : k.Inv c pl none q) (e : ℕ) (inst : Bool) :
    (k.altpri t e inst).Inv c pl none q := by
  unfold Kernel.altpri
  dsimp only
  generalize (if e = 0 then (k.tcb t).dpri else e) = n
  have hfine := h.fine t nofun
  split_ifs
  · exact h
  · exact h.setTcb nofun rfl { hfine with }
  · exact h.setTcb nofun rfl { hfine with }
  · exact h

end Kernel

end RSX280.Pars
