import RSX280.Debug

/-!
# Making and breaking a debugger link

`Kernel.Linked` is the invariant of the debugger links: every task is in order
(`Tcb.Tied`), the two sides of a link agree, and every descriptor in the pool is in use.
`$DBCON` and `$DBDIS` keep it as long as the debugger executes no AST, and so does the
end of a task, which breaks its link.
-/

namespace RSX280.Sched

open Links

universe u

variable {T : Type u}

/-- A debug event for `b` does not make it execute an AST: it has declared no routine for
it, or has ASTs disabled. -/
structure Tcb.Deaf (b : Tcb T) : Prop where
  idle : b.st.ast = false
  deaf : b.attr.ast = false ∨ b.fndast .db = none

namespace Kernel

/-- `g` debugs `t`: the descriptor of `t` names `g`. -/
def Debugs (k : Kernel T) (g t : T) : Prop :=
  ∃ d x, (k.tcb t).xdt = some (.desc d) ∧ k.xdb d = some x ∧ x.tcb = g

/-- The links are in order. -/
structure Linked (k : Kernel T) : Prop where
  tied : ∀ t, (k.tcb t).Tied
  /-- the debugger a descriptor names points to the debugged task -/
  desc : ∀ t d, (k.tcb t).xdt = some (.desc d) →
    ∃ x, k.xdb d = some x ∧ (k.tcb x.tcb).xdt = some (.task t)
  /-- and that has a descriptor that names it -/
  task : ∀ g t, (k.tcb g).xdt = some (.task t) → k.Debugs g t
  /-- every descriptor in the pool is in use -/
  used : ∀ d x, k.xdb d = some x → ∃ t, (k.tcb t).xdt = some (.desc d)
  wild : .wildXdt ∉ k.faults

variable {k k' : Kernel T} {g t u : T} {d : ℕ}

theorem Debugs.congr (h : k.Debugs g t) (hx : (k'.tcb t).xdt = (k.tcb t).xdt)
    (hd : k'.xdb = k.xdb) : k'.Debugs g t := by
  obtain ⟨d, x, h₁, h₂, h₃⟩ := h
  exact ⟨d, x, hx.trans h₁, by rw [hd]; exact h₂, h₃⟩

/-- The links and the descriptors decide who debugs whom. -/
theorem Calm.debugs (hc : k.Calm k') (h : k'.Debugs g t) : k.Debugs g t :=
  h.congr (hc.xdt t).symm hc.xdb.symm

/-- A task has at most one debugger. -/
theorem Debugs.unique (hg : k.Debugs g t) (hu : k.Debugs u t) : g = u := by
  obtain ⟨d, x, hd, hx, rfl⟩ := hg
  obtain ⟨e, y, he, hy, rfl⟩ := hu
  obtain rfl : d = e := Xdt.desc.inj (Option.some.inj (hd.symm.trans he))
  exact congrArg Xdb.tcb (Option.some.inj (hx.symm.trans hy))

/-- A debugged task is no debugger. -/
theorem Debugs.leads (h : k.Debugs g t) : (k.tcb t).leads = false := by
  obtain ⟨d, x, hd, -, -⟩ := h
  unfold Tcb.leads
  rw [hd]

theorem Linked.calm (h : k.Linked) (hc : k.Calm k') : k'.Linked where
  tied t := hc.tied t (h.tied t)
  desc t d hd := by
    obtain ⟨x, hx, ht⟩ := h.desc t d ((hc.xdt t).symm.trans hd)
    exact ⟨x, by rw [hc.xdb]; exact hx, (hc.xdt _).trans ht⟩
  task g t hg := (h.task g t ((hc.xdt g).symm.trans hg)).congr (hc.xdt t) hc.xdb
  used d x hx := by
    rw [hc.xdb] at hx
    obtain ⟨t, ht⟩ := h.used d x hx
    exact ⟨t, (hc.xdt t).trans ht⟩
  wild hf := h.wild (hc.wild hf)

/-- A debugger points to the task it debugs. -/
theorem Linked.xdt_of_debugs (h : k.Linked) (hg : k.Debugs g t) :
    (k.tcb g).xdt = some (.task t) := by
  obtain ⟨d, x, hd, hx, rfl⟩ := hg
  obtain ⟨x', hx', ht⟩ := h.desc t d hd
  rwa [Option.some.inj (hx'.symm.trans hx)] at ht

/-- No two tasks share a descriptor. -/
theorem Linked.eq_of_desc (h : k.Linked) (ht : (k.tcb t).xdt = some (.desc d))
    (hu : (k.tcb u).xdt = some (.desc d)) : t = u := by
  obtain ⟨x, hx, hxt⟩ := h.desc t d ht
  obtain ⟨y, hy, hyu⟩ := h.desc u d hu
  rw [Option.some.inj (hx.symm.trans hy)] at hxt
  exact Xdt.task.inj (Option.some.inj (hxt.symm.trans hyu))

/-- A task without link has no mark in `T.ST`. -/
theorem Linked.xdt_eq_false (h : k.Linked) (ht : (k.tcb t).xdt = none) :
    (k.tcb t).st.xdt = false :=
  (h.tied t).xdt_eq_false ht

/-- A task that is not active, or is being aborted, has no link. -/
theorem Linked.xdt_of_abo (h : k.Linked) (ha : (k.tcb t).st1.abo = true) :
    (k.tcb t).xdt = none := by
  by_contra hne
  exact nomatch ha.symm.trans ((h.tied t).alive hne).2

theorem Linked.xdt_of_inactive (h : k.Linked) (ha : (k.tcb t).st.act = false) :
    (k.tcb t).xdt = none := by
  by_contra hne
  exact nomatch ha.symm.trans ((h.tied t).alive hne).1

variable [DecidableEq T]

/-! ## Connect and disconnect -/

/-- A descriptor, a link from the debugged task to it and one from the debugger to the
debugged task. -/
theorem Linked.attach (h : k.Linked) (hne : t ≠ g) {c : Ctx T} (hc : (k.tcb t).ctx = some c)
    {c' : Ctx T} (hc' : (k.tcb g).ctx = some c') (ht : (k.tcb t).xdt = none)
    (hg : (k.tcb g).xdt = none) (hast : (k.tcb g).st.ast = false)
    (hact : (k.tcb t).st.act = true ∧ (k.tcb t).st1.abo = false)
    (hgact : (k.tcb g).st.act = true ∧ (k.tcb g).st1.abo = false)
    (hd : k.xdb d = none) (efn dsb : ℕ) : (k.attach g t efn dsb d).Linked := by
  have htt : (k.attach g t efn dsb d).tcb t =
      { k.tcb t with ctx := some { c with xdt := some (.desc d) } } := by
    simp [Kernel.attach, Kernel.setCtx, Kernel.setTcb, hne, hc]
  have htg : (k.attach g t efn dsb d).tcb g =
      { k.tcb g with
        st := { (k.tcb g).st with xdt := true }
        ctx := some { c' with xdt := some (.task t) } } := by
    simp [Kernel.attach, Kernel.setCtx, Kernel.setTcb, hne.symm, hc']
  have hrest : ∀ u, u ≠ t → u ≠ g → (k.attach g t efn dsb d).tcb u = k.tcb u := by
    intro u hu hu'
    simp [Kernel.attach, Kernel.setCtx, Kernel.setTcb, hu, hu']
  have hxdb : (k.attach g t efn dsb d).xdb = Function.update k.xdb d (some ⟨g, dsb, efn⟩) := rfl
  have hxt : ((k.attach g t efn dsb d).tcb t).xdt = some (.desc d) := by
    rw [htt]
    rfl
  have hxg : ((k.attach g t efn dsb d).tcb g).xdt = some (.task t) := by
    rw [htg]
    rfl
  -- the links there were are between other tasks and through other descriptors
  have hkeep : ∀ u, (k.tcb u).xdt ≠ none → u ≠ t ∧ u ≠ g := by
    intro u hu
    exact ⟨fun he => hu (he ▸ ht), fun he => hu (he ▸ hg)⟩
  refine ⟨fun u => ?_, fun u e hu => ?_, fun a u ha => ?_, fun e x he => ?_, h.wild⟩
  · by_cases hut : u = t
    · rw [hut, htt]
      have hm := (h.tied t).mark
      rw [show (k.tcb t).leads = false by unfold Tcb.leads; rw [ht]] at hm
      exact ⟨hm, (h.tied t).hidden, fun _ => hact, (h.tied t).saved⟩
    · by_cases hug : u = g
      · rw [hug, htg]
        refine ⟨?_, fun ha => (by cases hast.symm.trans ha), fun _ => hgact, fun ha =>
          (by cases hast.symm.trans ha)⟩
        refine Eq.trans (Tcb.marked_of_not_ast ?_) rfl
        exact hast
      · rw [hrest u hut hug]
        exact h.tied u
  · by_cases hut : u = t
    · rw [hut] at hu ⊢
      obtain rfl : d = e := Xdt.desc.inj (Option.some.inj (hxt.symm.trans hu))
      refine ⟨⟨g, dsb, efn⟩, ?_, hxg⟩
      rw [hxdb, Function.update_self]
    · have hug : u ≠ g := by
        intro he
        rw [he, hxg] at hu
        cases hu
      rw [hrest u hut hug] at hu
      obtain ⟨x, hx, hxu⟩ := h.desc u e hu
      have hed : e ≠ d := by
        intro he
        rw [he, hd] at hx
        cases hx
      obtain ⟨h₁, h₂⟩ := hkeep x.tcb (by rw [hxu]; rintro ⟨⟩)
      refine ⟨x, ?_, ?_⟩
      · rw [hxdb, Function.update_of_ne hed]
        exact hx
      · rw [hrest _ h₁ h₂]
        exact hxu
  · by_cases hag : a = g
    · rw [hag] at ha ⊢
      obtain rfl : t = u := Xdt.task.inj (Option.some.inj (hxg.symm.trans ha))
      refine ⟨d, ⟨g, dsb, efn⟩, hxt, ?_, rfl⟩
      rw [hxdb, Function.update_self]
    · have hat : a ≠ t := by
        intro he
        rw [he, hxt] at ha
        cases ha
      rw [hrest a hat hag] at ha
      obtain ⟨e, x, hu, hx, hxa⟩ := h.task a u ha
      have hed : e ≠ d := by
        intro he
        rw [he, hd] at hx
        cases hx
      obtain ⟨h₁, h₂⟩ := hkeep u (by rw [hu]; rintro ⟨⟩)
      refine ⟨e, x, ?_, ?_, hxa⟩
      · rw [hrest _ h₁ h₂]
        exact hu
      · rw [hxdb, Function.update_of_ne hed]
        exact hx
  · by_cases hed : e = d
    · exact ⟨t, hed ▸ hxt⟩
    · rw [hxdb, Function.update_of_ne hed] at he
      obtain ⟨u, hu⟩ := h.used e x he
      obtain ⟨h₁, h₂⟩ := hkeep u (by rw [hu]; rintro ⟨⟩)
      exact ⟨u, by rw [hrest u h₁ h₂]; exact hu⟩

/-- Both links and the descriptor of a connection go together. -/
theorem Linked.detach (h : k.Linked) (ht : (k.tcb t).xdt = some (.desc d))
    {x : Xdb T} (hx : k.xdb d = some x) (hast : (k.tcb x.tcb).st.ast = false) :
    (k.detach x.tcb t d).Linked ∧ ((k.detach x.tcb t d).tcb t).xdt = none ∧
      ((k.detach x.tcb t d).tcb x.tcb).xdt = none := by
  have hg := h.xdt_of_debugs ⟨d, x, ht, hx, rfl⟩
  generalize hgx : x.tcb = g at *
  have hne : t ≠ g := by
    intro he
    rw [he, hg] at ht
    cases ht
  have htt : (k.detach g t d).tcb t =
      { k.tcb t with ctx := (k.tcb t).ctx.map fun c => { c with xdt := none } } := by
    simp [Kernel.detach, Kernel.setCtx, Kernel.setTcb, hne]
  have htg : (k.detach g t d).tcb g =
      { k.tcb g with
        st := { (k.tcb g).st with xdt := false }
        ctx := (k.tcb g).ctx.map fun c => { c with xdt := none } } := by
    simp [Kernel.detach, Kernel.setCtx, Kernel.setTcb, hne.symm]
  have hrest : ∀ u, u ≠ t → u ≠ g → (k.detach g t d).tcb u = k.tcb u := by
    intro u hu hu'
    simp [Kernel.detach, Kernel.setCtx, Kernel.setTcb, hu, hu']
  have hxdb : (k.detach g t d).xdb = Function.update k.xdb d none := rfl
  have hnone : ∀ c : Option (Ctx T),
      (c.map fun c => ({ c with xdt := none } : Ctx T)).bind (fun c => c.xdt) = none := by
    intro c
    cases c <;> rfl
  have hxt : ((k.detach g t d).tcb t).xdt = none := by
    rw [htt]
    exact hnone _
  have hxg : ((k.detach g t d).tcb g).xdt = none := by
    rw [htg]
    exact hnone _
  have hpair : ∀ u, ((k.detach g t d).tcb u).xdt ≠ none → u ≠ t ∧ u ≠ g :=
    fun u hu => ⟨fun he => hu (he ▸ hxt), fun he => hu (he ▸ hxg)⟩
  -- nor has either of them another descriptor
  have hother : ∀ e u, (k.tcb u).xdt = some (.desc e) → e ≠ d → u ≠ t ∧ u ≠ g := by
    intro e u hu hed
    constructor
    · intro he
      rw [he] at hu
      exact hed (Xdt.desc.inj (Option.some.inj (hu.symm.trans ht)))
    · intro he
      rw [he, hg] at hu
      cases hu
  refine ⟨⟨fun u => ?_, fun u e hu => ?_, fun a u ha => ?_, fun e y he => ?_, h.wild⟩, hxt, hxg⟩
  · by_cases hut : u = t
    · rw [hut]
      have hl : ((k.detach g t d).tcb t).leads = false := by unfold Tcb.leads; rw [hxt]
      have hm := (h.tied t).mark
      rw [show (k.tcb t).leads = false by unfold Tcb.leads; rw [ht]] at hm
      refine ⟨?_, ?_, fun hc => absurd hxt hc, ?_⟩
      · rw [hl, htt]
        exact hm
      · rw [htt]
        exact (h.tied t).hidden
      · rw [htt]
        exact (h.tied t).saved
    · by_cases hug : u = g
      · rw [hug]
        have hl : ((k.detach g t d).tcb g).leads = false := by unfold Tcb.leads; rw [hxg]
        have hag : ((k.detach g t d).tcb g).st.ast = false := by
          rw [htg]
          exact hast
        refine ⟨?_, fun ha => (by cases hag.symm.trans ha), fun hc => absurd hxg hc, fun ha =>
          (by cases hag.symm.trans ha)⟩
        rw [hl, Tcb.marked_of_not_ast hag, htg]
      · rw [hrest u hut hug]
        exact h.tied u
  · obtain ⟨hut, hug⟩ := hpair u (by rw [hu]; rintro ⟨⟩)
    rw [hrest u hut hug] at hu
    obtain ⟨y, hy, hyu⟩ := h.desc u e hu
    have hed : e ≠ d := fun he => hut (h.eq_of_desc (he ▸ hu) ht)
    have hyt : y.tcb ≠ t := by
      intro he
      rw [he, ht] at hyu
      cases hyu
    have hyg : y.tcb ≠ g := by
      intro he
      rw [he] at hyu
      exact hut (Xdt.task.inj (Option.some.inj (hyu.symm.trans hg)))
    refine ⟨y, ?_, ?_⟩
    · rw [hxdb, Function.update_of_ne hed]
      exact hy
    · rw [hrest _ hyt hyg]
      exact hyu
  · obtain ⟨hat, hag⟩ := hpair a (by rw [ha]; rintro ⟨⟩)
    rw [hrest a hat hag] at ha
    obtain ⟨e, y, hu, hy, hya⟩ := h.task a u ha
    have hed : e ≠ d := by
      intro he
      rw [he] at hy
      exact hag (hya.symm.trans ((congrArg Xdb.tcb (Option.some.inj (hy.symm.trans hx))).trans hgx))
    obtain ⟨hut, hug⟩ := hother e u hu hed
    refine ⟨e, y, ?_, ?_, hya⟩
    · rw [hrest _ hut hug]
      exact hu
    · rw [hxdb, Function.update_of_ne hed]
      exact hy
  · by_cases hed : e = d
    · rw [hxdb, hed, Function.update_self] at he
      cases he
    · rw [hxdb, Function.update_of_ne hed] at he
      obtain ⟨u, hu⟩ := h.used e y he
      obtain ⟨hut, hug⟩ := hother e u hu hed
      exact ⟨u, by rw [hrest u hut hug]; exact hu⟩

/-! ## Operations that break a link -/

variable [Fintype T]

/-- `$DBRES` does not end an AST. -/
theorem dbres_ast (k : Kernel T) (t u : T) :
    ((k.dbres t).1.tcb u).st.ast = (k.tcb u).st.ast := by
  have h : (k.dbres t).1.tcb = (k.setTcb t (k.tcb t).dbres.tcb).tcb := settle_tcb _
  rw [h]
  rcases eq_or_ne u t with rfl | hu
  · rw [setTcb_self]
    rfl
  · rw [setTcb_of_ne hu]

/-- `$DBDIS` of a debugged task whose debugger executes no AST. -/
theorem Linked.dbdis (h : k.Linked) (ho : k.Ok) (hl : (k.tcb t).leads = false)
    (hq : ∀ g, k.Debugs g t → (k.tcb g).st.ast = false) :
    (k.dbdis t).1.Linked ∧ ((k.dbdis t).1.tcb t).xdt = none ∧
      ∀ g, k.Debugs g t → ((k.dbdis t).1.tcb g).xdt = none := by
  have hc := k.calm_dbres t
  have h₁ := h.calm hc
  obtain ⟨l, hlist⟩ := ho
  unfold Kernel.dbdis
  split
  · rename_i hf
    have hx : (k.tcb t).xdt = none := by
      by_contra hne
      exact nomatch (hlist.fntcb_eq_none.mp hf).symm.trans ((h.tied t).alive hne).1
    refine ⟨h₁, (hc.xdt t).trans hx, fun g hg => ?_⟩
    obtain ⟨d, x, hd, -, -⟩ := hg
    exact nomatch hx.symm.trans hd
  · dsimp only
    split
    · rename_i hx
      have hx' : (k.tcb t).xdt = none := (hc.xdt t).symm.trans hx
      refine ⟨h₁, hx, fun g hg => ?_⟩
      obtain ⟨d, x, hd, -, -⟩ := hg
      exact nomatch hx'.symm.trans hd
    · rename_i u hx
      have hx' : (k.tcb t).xdt = some (.task u) := (hc.xdt t).symm.trans hx
      exact nomatch hl.symm.trans (Tcb.leads_eq_true.mpr ⟨u, hx'⟩)
    · rename_i d hx
      obtain ⟨x, hxd, -⟩ := h₁.desc t d hx
      rw [hxd]
      dsimp only
      have hdeb : k.Debugs x.tcb t := hc.debugs ⟨d, x, hx, hxd, rfl⟩
      have hast : ((k.dbres t).1.tcb x.tcb).st.ast = false :=
        (k.dbres_ast t x.tcb).trans (hq _ hdeb)
      obtain ⟨h₂, ht, hg⟩ := h₁.detach hx hxd hast
      refine ⟨h₂, ht, fun g' hg' => ?_⟩
      rw [hg'.unique hdeb]
      exact hg

/-! ### The debugger hears of it -/

omit [DecidableEq T] [Fintype T] in
/-- A debug event for `b` does not make it execute an AST. -/
theorem deaf_setast {b c : Tcb T} (h : b.Deaf) {a : ℕ} {dat : List UInt8} {m : Bool}
    (hc : b.qast .db a dat m = some c) : c.setast.tcb.st.ast = false := by
  have hst : c.st = b.st ∧ c.attr = b.attr ∧ b.fndast .db ≠ none := by
    unfold Tcb.qast at hc
    dsimp only at hc
    split at hc
    · exact nomatch hc
    · rename_i ha
      split_ifs at hc
      cases hc
      refine ⟨rfl, rfl, fun hn => ?_⟩
      rw [hn] at ha
      exact nomatch ha
  rcases h.deaf with hd | hd
  · unfold Tcb.setast
    rw [hst.1, hst.2.1, hd, h.idle]
    simpa [hst.1] using h.idle
  · exact absurd hd hst.2.2

theorem sdinfo_ast {a : ℕ} {dat : List UInt8} {m₁ m₂ : Bool} (h : (k.tcb g).Deaf) :
    ((k.sdinfo g .db a dat m₁ m₂).tcb g).st.ast = false := by
  have hqast : ∀ k : Kernel T, (k.tcb g).Deaf → ∀ dat,
      ((k.qast g .db 0 dat m₂).tcb g).st.ast = false := by
    intro k hk dat
    unfold Kernel.qast
    split
    · exact hk.idle
    · rename_i c hc
      rw [settle_tcb, setTcb_self]
      exact deaf_setast hk hc
  unfold sdinfo
  split
  · split
    · apply hqast
      rw [setTcb_self]
      exact ⟨h.idle, h.deaf⟩
    · exact h.idle
  · apply hqast
    rw [setTcb_self]
    exact ⟨h.idle, h.deaf⟩

/-- Setting a flag does not change the first status byte. -/
theorem setflg_ast (k : Kernel T) (t u : T) (e : ℕ) :
    ((k.setflg t e).1.tcb u).st.ast = (k.tcb u).st.ast := by
  have htcont : ∀ b : Tcb T, b.tcont.tcb.st.ast = b.st.ast := fun b =>
    congrArg (·.2.2.1) b.tcont_tie
  unfold setflg
  split
  · rfl
  split
  · rfl
  dsimp only
  have hone : ∀ b : Tcb T, b.st.ast = (k.tcb t).st.ast →
      ((k.setTcb t b).tcb u).st.ast = (k.tcb u).st.ast := by
    intro b hb
    rcases eq_or_ne u t with rfl | hu
    · rw [setTcb_self, hb]
    · rw [setTcb_of_ne hu]
  split
  · unfold Kernel.tcont Kernel.onTask
    split
    · exact hone _ rfl
    · rw [settle_tcb, setTcb_setTcb, setTcb_self]
      exact hone _ (htcont _)
  · exact hone _ rfl

/-- `$DBNOT` for a task that is no debugger. -/
theorem Linked.calm_dbnot (h : k.Linked) (hl : (k.tcb t).leads = false) (dat : List UInt8)
    (m₁ m₂ : Bool) : k.Calm (k.dbnot t dat m₁ m₂).1 := by
  unfold dbnot
  split
  · exact Calm.refl k
  · rename_i u hx
    exact nomatch hl.symm.trans (Tcb.leads_eq_true.mpr ⟨u, hx⟩)
  · rename_i d hx
    obtain ⟨x, hxd, -⟩ := h.desc t d hx
    rw [hxd]
    dsimp only
    have h₁ := k.calm_sdinfo x.tcb .db x.dsb dat m₁ m₂
    split
    · exact h₁
    · exact h₁.trans (calm_setflg _ _ _)

theorem dbnot_ast {dat : List UInt8} {m₁ m₂ : Bool} (hg : k.Debugs g t) (h : (k.tcb g).Deaf) :
    ((k.dbnot t dat m₁ m₂).1.tcb g).st.ast = false := by
  obtain ⟨d, x, hd, hx, rfl⟩ := hg
  have hd' : (k.tcb t).ctx.bind (·.xdt) = some (.desc d) := hd
  unfold dbnot
  rw [hd']
  dsimp only
  rw [hx]
  dsimp only
  split
  · exact sdinfo_ast h
  · rw [setflg_ast]
    exact sdinfo_ast h

/-! ### The end of a task -/

/-- A debugger that ends executes no AST, and when a debugged task ends its debugger does
not either and will not because of it. -/
structure Loose (k : Kernel T) (t : T) : Prop where
  idle : (k.tcb t).leads = true → (k.tcb t).st.ast = false
  deaf : ∀ g, k.Debugs g t → (k.tcb g).Deaf

/-- `CLNDBG` breaks the link there is. -/
theorem Linked.clndbg (h : k.Linked) (ho : k.Ok) (hl : k.Loose t) {dat : List UInt8} {m₁ m₂ : Bool}
    (hok : (k.tcb t).st.xdt = false → k.Quiet t m₂) :
    (k.clndbg t dat m₁ m₂).Linked ∧ ((k.clndbg t dat m₁ m₂).tcb t).xdt = none := by
  have hst : (k.tcb t).leads = true → (k.tcb t).st.xdt = true := by
    intro hlead
    rw [← Tcb.marked_of_not_ast (hl.idle hlead), (h.tied t).mark, hlead]
  unfold Kernel.clndbg
  split
  · rename_i hx
    exact ⟨h, hx⟩
  · rename_i u hx _
    -- a debugger
    have hu := h.task t u hx
    obtain ⟨h₁, -, h₂⟩ := h.dbdis ho hu.leads fun g hg => by
      rw [hg.unique hu]
      exact hl.idle (Tcb.leads_eq_true.mpr ⟨u, hx⟩)
    exact ⟨h₁, h₂ t hu⟩
  · rename_i d hx hs
    obtain ⟨u, hu⟩ := Tcb.leads_eq_true.mp ((h.tied t).leads_of_xdt hs)
    exact nomatch hu.symm.trans hx
  · rename_i y hx hs
    -- a debugged task, whose debugger is told first
    have hlead : (k.tcb t).leads = false := by
      by_contra hc
      exact nomatch hs.symm.trans (hst (by simpa using hc))
    have hc := h.calm_dbnot hlead dat m₁ m₂
    have hlead' : ((k.dbnot t dat m₁ m₂).1.tcb t).leads = false := by
      unfold Tcb.leads at hlead ⊢
      rw [hc.xdt t]
      exact hlead
    obtain ⟨h₁, h₂, -⟩ := (h.calm hc).dbdis (ho.dbnot (hok hs)) hlead' fun g hg =>
      dbnot_ast (hc.debugs hg) (hl.deaf g (hc.debugs hg))
    exact ⟨h₁, h₂⟩

end Kernel

end RSX280.Sched
