import RSX280.ChkptOps

/-!
# The end of a task, and of its I/O

A task that is aborted leaves the list it is on and gives up its checkpoint space
(`Inv.tk1`), and when its I/O has ended, its memory (`Inv.tkill2`). One that the loader is
working on is left to the loader.
-/

namespace RSX280.Chkpt

open Queue Spans Subpars
open Sched (Ret)
open Pars (ea2pg)

universe u v w

namespace Kernel

variable {T : Type u} {P : Type v} {F : Type w} [DecidableEq T] [DecidableEq P] [DecidableEq F]
  {c : Config T F} {q : Meets} {k k' k₁ k₂ : Kernel T P F} {sp sp' sp₁ sp₂ : T → Spot}
  {x y : Option T} {t u : T} {p : P} {b b' : Tcb P} {m : Main T} {s : Spot} {v : KillEnv T}

/-! ## Leaving -/

omit [DecidableEq P] [DecidableEq F] in
theorem Leaves.setTcb (h : k.Leaves k' t b) (hb : b'.pcb = b.pcb) (hcp : b'.cpcb = b.cpcb)
    (hioc : b'.ioc = b.ioc) : k.Leaves (k'.setTcb t b') t b' := by
  have htcb : (k'.setTcb t b').tcb = Function.update k.tcb t b' := by
    rw [Kernel.setTcb]
    dsimp only
    rw [h.tcb, Function.update_idem]
  refine ⟨⟨h.main, h.bsy, h.own, h.io, h.given⟩, h.wait, h.ldq, h.loading, htcb, ?_, hb.trans h.pcb, hioc.trans h.ioc⟩
  have hc : (fun u => ((k'.setTcb t b').tcb u).cpcb) = fun u => (k'.tcb u).cpcb := by
    funext u
    rw [htcb, h.tcb]
    rcases eq_or_ne u t with rfl | hu
    · rw [Function.update_self, Function.update_self, hcp]
    · rw [Function.update_of_ne hu, Function.update_of_ne hu]
  rw [Spaced, hc]
  exact h.spaced

omit [DecidableEq P] in
/-- The task gives up its checkpoint space. -/
theorem Leaves.frecpcb (h : k.Leaves k' t b) (hckp : b.cpcb.isSome = true) :
    k.Leaves (k'.frecpcb t) t { b with cpcb := none } := by
  have htt : k'.tcb t = b := by rw [h.tcb, Function.update_self]
  obtain ⟨i, hi⟩ := Option.isSome_iff_exists.mp hckp
  have hspace := h.spaced.frecpcb (t := t) (i := i) (by rw [htt, hi])
  have hheld := held_freecs (k'.setTcb t { k'.tcb t with cpcb := none }) (k'.tcb t).cpcb
  refine ⟨⟨hheld.main.trans h.main, hheld.bsy.trans h.bsy, hheld.own.trans h.own,
    hheld.io.trans h.io, hheld.given.trans h.given⟩, fun p => ?_, hheld.ldq.trans h.ldq,
    fun u => ?_, hheld.tcb.trans ?_, hspace, h.pcb, h.ioc⟩
  · rw [Kernel.frecpcb, hheld.wait]
    exact h.wait p
  · rw [Kernel.frecpcb, hheld.loading]
    exact h.loading u
  · rw [Kernel.setTcb, htt]
    dsimp only
    rw [h.tcb, Function.update_idem]

/-! ## The end of a task -/

/-- If `TKTN` is requested, it has a context block or releases nobody else's memory. -/
def Reports (c : Config T F) (k : Kernel T P F) (v : KillEnv T) : Prop :=
  ∀ u, c.tktn = some u → k.Clears u v.req.ctx

omit [DecidableEq T] [DecidableEq P] [DecidableEq F] in
theorem Reports.congr (h : k.Reports c v) (hs : k.Same k') (hb : k'.bsy = k.bsy) :
    k'.Reports c v :=
  fun u hu => (h u hu).congr hs hb

theorem Inv.qtktn (h : k.Inv q sp x) (hx : ∀ u, c.tktn = some u → x ≠ some u)
    (hreq : q.steady → k.Reports c v) :
    ∃ sp', (k.qtktn c v).Inv q sp' x ∧ k.Aside sp (k.qtktn c v) sp' c.tktn ∧
      k.Same (k.qtktn c v) := by
  rw [Kernel.qtktn]
  split
  · exact ⟨sp, h, (Aside.refl k sp none).mono _, Same.refl k⟩
  next u hu =>
  split
  · exact ⟨sp, h, (Aside.refl k sp none).mono _, Same.refl k⟩
  · rw [hu]
    exact h.trqst2 (hx u hu) fun hst => hreq hst u hu

omit [DecidableEq P] [DecidableEq F] in
/-- A task with `TA.REM` leaves the directory before it ends. -/
theorem Inv.unlist (h : k.Inv q sp x) (ht : sp t = .lost) : (k.unlist t).Inv q sp x ∧
    k.Same (k.unlist t) ∧ (k.unlist t).bsy = k.bsy ∧
    ((k.unlist t).tcb t).act = (k.tcb t).act ∧
    ((k.unlist t).tcb t).svst = (k.tcb t).svst ∧ ((k.unlist t).tcb t).cpcb = (k.tcb t).cpcb := by
  rw [Kernel.unlist]
  split
  · have htl : Inv q { k with tlist := Function.update k.tlist t false } sp x :=
      ⟨⟨h.lists.wait, h.lists.queue, h.lists.load, h.lists.waitNodup, h.lists.queueNodup⟩,
        ⟨h.mem.laid, h.mem.small, h.mem.home⟩, h.space, h.fine, h.dead, h.ioc, h.owns, h.steady,
        h.order, h.given⟩
    obtain ⟨hact, habo, hn, hcp, -⟩ : Tcb.Fine q _ _ _ _ .lost := ht ▸ h.fine t
    refine ⟨htl.setTcb rfl rfl rfl (fun _ _ => rfl) ?_,
      ⟨setTcb_pcb (k := { k with tlist := Function.update k.tlist t false }) rfl,
        fun _ => rfl⟩, rfl, ?_⟩
    · rw [ht]
      exact ⟨hact, habo, hn, hcp, fun hc => (nomatch hc)⟩
    · rw [setTcb_self]
      exact ⟨rfl, rfl, rfl⟩
  · exact ⟨h, Same.refl k, rfl, rfl, rfl, rfl⟩

/-- `TKILL2` for a task that has been aborted, holds no checkpoint space and has no I/O
outstanding. -/
theorem Inv.tkill2 (h : k.Inv q sp none) (ht : sp t = .lost) (hcp : (k.tcb t).cpcb = none)
    (hself : c.tktn = some t → (k.tcb t).svst = 0)
    (hreq : q.steady → k.Reports c v) :
    ∃ sp', (k.tkill2 c t v).1.Inv q sp' none := by
  rw [Kernel.tkill2]
  split
  · exact ⟨sp, h⟩
  obtain ⟨h₁, hsame₁, hbsy₁, hact₁, hsvst₁, hcp₁⟩ := h.unlist ht
  obtain ⟨k₁, hk₁⟩ : ∃ k₁, k₁ = k.unlist t := ⟨_, rfl⟩
  rw [← hk₁] at h₁ hsame₁ hbsy₁ hact₁ hsvst₁ hcp₁ ⊢
  obtain ⟨hact, habo, hn, -, hfix⟩ : Tcb.Fine q _ _ _ _ .lost := ht ▸ h₁.fine t
  rw [tk0, if_neg (by rw [hact]; simp)]
  dsimp only
  obtain ⟨k₂, hk₂⟩ : ∃ k₂, k₂ = k₁.setTcb t { k₁.tcb t with act := false } := ⟨_, rfl⟩
  rw [← hk₂]
  have hsame₂ : k₁.Same k₂ := hk₂ ▸ same_setTcb rfl
  have hbsy₂ : k₂.bsy = k₁.bsy := by rw [hk₂]; rfl
  -- the message to `TKTN`
  have hmsg : ∀ {sp₂ x}, k₂.Inv q sp₂ x → (∀ u, u ≠ t → x ≠ some u) → ∃ sp₃,
      (if (k₁.tcb t).svst = 0 then k₂ else k₂.qtktn c v).Inv q sp₃ x ∧
      ((k₂.tcb t).fix = true → (if (k₁.tcb t).svst = 0 then k₂ else k₂.qtktn c v).tcb t =
        k₂.tcb t) ∧ (sp₂ t = .dead → sp₃ t = .dead) := by
    intro sp₂ x h₂ hx
    by_cases hs : (k₁.tcb t).svst = 0
    · rw [if_pos hs]
      exact ⟨sp₂, h₂, fun _ => rfl, id⟩
    · rw [if_neg hs]
      have hne : c.tktn ≠ some t := fun hc => hs (hsvst₁.trans (hself hc))
      obtain ⟨sp₃, h₃, has₃, -⟩ := h₂.qtktn (c := c) (v := v)
        (fun u hu => hx u fun he => hne (he ▸ hu))
        fun hst => ((hreq hst).congr hsame₁ hbsy₁).congr hsame₂ hbsy₂
      obtain ⟨hf, hd⟩ := has₃ t hne
      exact ⟨sp₃, h₃, hf, fun hs => (hd (Or.inl hs)).trans hs⟩
  cases hf : (k₁.tcb t).fix with
  | true =>
    obtain ⟨hout, hckp, hcpn, hm, hldr⟩ := hfix hf
    have h₂ : k₂.Inv q (Function.update sp t .core) none := by
      rw [hk₂]
      refine h₁.set rfl rfl rfl (fun _ hw => nomatch ht.symm.trans hw)
        (Or.inr ⟨⟨nofun, nofun, nofun⟩, by rw [ht]; exact ⟨nofun, nofun, nofun⟩⟩)
        (fun _ => by rw [ht]; exact nofun) (fun _ _ => id) nofun ?_
      exact ⟨by rw [hf]; rfl, hout, hckp, hcpn, fun ha => (nomatch ha), fun _ => hn, hm, hldr⟩
    obtain ⟨sp₃, h₃, htcb₃, -⟩ := hmsg h₂ fun _ _ => nofun
    have hf₂ : (k₂.tcb t).fix = true := by rw [hk₂, setTcb_self]; exact hf
    refine ⟨sp₃, ?_⟩
    rw [tk3, if_pos (by rw [htcb₃ hf₂, hf₂])]
    exact h₃
  | false =>
    have h₂ : k₂.Inv q (Function.update sp t .dead) (some t) := by
      rw [hk₂]
      refine h₁.set rfl rfl rfl (fun _ hw => nomatch ht.symm.trans hw)
        (Or.inr ⟨⟨nofun, nofun, nofun⟩, by rw [ht]; exact ⟨nofun, nofun, nofun⟩⟩)
        (fun _ => by rw [ht]; exact nofun) (fun _ _ => nofun) (fun _ => rfl) ?_
      exact ⟨rfl, habo, hf, hn, hcp₁.trans hcp⟩
    obtain ⟨sp₃, h₃, -, hd₃⟩ := hmsg h₂ fun u hu hc => hu (Option.some.inj hc).symm
    obtain ⟨k₃, hk₃⟩ : ∃ k₃, k₃ = if (k₁.tcb t).svst = 0 then k₂ else k₂.qtktn c v := ⟨_, rfl⟩
    rw [← hk₃] at h₃ ⊢
    have hdead := hd₃ (Function.update_self ..)
    obtain ⟨-, -, hf₃, -⟩ : Tcb.Fine q _ _ _ _ .dead := hdead ▸ h₃.fine t
    obtain ⟨sp₄, h₄, -, hoff, -⟩ := h₃.tfree (c := c) (v := v.look) (y := none) (Or.inl hdead)
      (fun _ hs => nomatch hdead.symm.trans hs) fun u hu hc => absurd (Option.some.inj hc).symm hu
    refine ⟨sp₄, ?_⟩
    rw [tk3, if_neg (by rw [hf₃]; exact nofun)]
    refine h₄.setTcb rfl rfl rfl (fun _ _ => rfl) ?_
    have hfine := h₄.fine t
    rw [hoff] at hfine ⊢
    exact hfine

/-- A task leaves a list, or the loader, and ends. -/
theorem Inv.leaveEnd (h : k.Inv q sp none) (hk : k.Leaves k' t b) (ht : sp t ≠ .off)
    (howns : q.steady → sp t = .wait → k.sys t = true) (hn : k.io t = []) (hact : b.act = true)
    (habo : b.abo = true) (hfix : b.fix = false) (hcp : b.cpcb = none)
    (hself : c.tktn = some t → b.svst = 0)
    (hreq : q.steady → k.Reports c v) :
    ∃ sp', (k'.tkill2 c t v).1.Inv q sp' none := by
  have htt : k'.tcb t = b := by rw [hk.tcb, Function.update_self]
  have hsame : k.Same k' := by
    refine ⟨fun u => ?_, fun p => by rw [hk.main]⟩
    rw [hk.tcb]
    rcases eq_or_ne u t with rfl | hu
    · rw [Function.update_self, hk.pcb]
    · rw [Function.update_of_ne hu]
  have h₁ := h.leave hk (s := .lost) ⟨nofun, nofun, nofun⟩ nofun ht howns
    ⟨hact, habo, by rw [hn]; rfl, fun _ => hcp, fun hf => nomatch hfix.symm.trans hf⟩
  exact h₁.tkill2 (Function.update_self ..) (by rw [htt, hcp]) (by rw [htt]; exact hself)
    fun hst => (hreq hst).congr hsame hk.bsy

/-- `TKILL` from `tk1` on, for a task that has been taken off its list. -/
theorem Inv.tk1 (h : k.Inv q sp none) (hk : k.Leaves k' t b) (ht : sp t ≠ .off)
    (howns : q.steady → sp t = .wait → k.sys t = true) (hn : k.io t = []) (hact : b.act = true)
    (habo : b.abo = true) (hfix : b.fix = false) (hckp : b.ckp = b.cpcb.isSome)
    (hself : c.tktn = some t → b.svst = 0)
    (hreq : q.steady → k.Reports c v) :
    ∃ sp', (k'.tk1 c t v).1.Inv q sp' none := by
  have htt : k'.tcb t = b := by rw [hk.tcb, Function.update_self]
  have hioc : b.ioc = 0 := by rw [hk.ioc, (h.ioc t).1, hn]; rfl
  rw [Kernel.tk1, htt]
  cases hc : b.cpcb with
  | none =>
    rw [if_neg (by rw [hckp, hc]; exact nofun), tk5, if_neg (by rw [htt, hioc]; exact fun h => h rfl)]
    exact h.leaveEnd hk ht howns hn hact habo hfix hc hself hreq
  | some i =>
    have hk' := hk.frecpcb (by rw [hc]; rfl)
    have htt' : (k'.frecpcb t).tcb t = { b with cpcb := none } := by
      rw [hk'.tcb, Function.update_self]
    rw [if_pos (by rw [hckp, hc]; rfl), tk5, if_neg (by rw [htt']; exact fun h => h hioc)]
    exact h.leaveEnd hk' ht howns hn hact habo hfix rfl hself hreq

omit [DecidableEq T] [DecidableEq P] [DecidableEq F] in
/-- A task that is active and not being aborted. -/
theorem Inv.live (h : k.Inv q sp x) (hact : (k.tcb t).act = true) (habo : (k.tcb t).abo = false) :
    ((k.tcb t).out || (k.tcb t).ckp) = false ∧ sp t = .core ∨
      ((k.tcb t).out || (k.tcb t).ckp) = true ∧ (k.tcb t).fix = false ∧
        (k.tcb t).ckp = (k.tcb t).cpcb.isSome ∧ k.io t = [] ∧
        (sp t = .wait ∨ sp t = .queue ∨ sp t = .load ∧ (k.tcb t).ldr = false ∨
          sp t = .stuck ∧ (k.tcb t).ldr = true) := by
  have hf := h.fine t
  cases hsp : sp t <;> rw [hsp] at hf
  · exact nomatch hact.symm.trans hf.1
  · obtain ⟨-, hfix, -, hckp, hn, hout, -, -⟩ := hf
    exact Or.inr ⟨by rw [hout, Bool.true_or], hfix, hckp, List.eq_nil_of_length_eq_zero hn,
      Or.inl rfl⟩
  · obtain ⟨-, hfix, -, hckp, hn, hout, -, -⟩ := hf
    exact Or.inr ⟨hout, hfix, hckp, List.eq_nil_of_length_eq_zero hn, Or.inr (Or.inl rfl)⟩
  · obtain ⟨-, hfix, hckp, hn, hout, -, hldr⟩ := hf
    exact Or.inr ⟨hout, hfix, hckp, List.eq_nil_of_length_eq_zero hn,
      Or.inr (Or.inr (Or.inl ⟨rfl, hldr⟩))⟩
  · obtain ⟨-, hout, hckp, -⟩ := hf
    exact Or.inl ⟨by rw [hout, hckp]; rfl, rfl⟩
  · obtain ⟨-, hfix, -, hckp, hn, hout, hldr, -⟩ := hf
    exact Or.inr ⟨hout, hfix, hckp, List.eq_nil_of_length_eq_zero hn,
      Or.inr (Or.inr (Or.inr ⟨rfl, hldr⟩))⟩
  · exact nomatch habo.symm.trans hf.2.1
  · exact nomatch hact.symm.trans hf.1

/-- `TKILL` from `tk6` on, for a task out of memory that the loader is not working on. -/
theorem Inv.tk6 (h : k.Inv q sp none) (hst : k.Stored k') (hw : k'.wait = k.wait)
    (hq : k'.ldq = k.ldq) (hl : k'.loading = k.loading) (htcb : k'.tcb = Function.update k.tcb t b)
    (hspace : k'.Spaced) (hpcb : b.pcb = (k.tcb t).pcb) (hioc : b.ioc = (k.tcb t).ioc)
    (hsp : sp t = .wait ∨ sp t = .queue ∨ sp t = .stuck ∧ b.ldr = true)
    (hown : q.steady → t ∈ k.wait (k.tcb t).pcb → k.sys t = true) (hn : k.io t = [])
    (hact : b.act = true) (habo : b.abo = true) (hfix : b.fix = false)
    (hckp : b.ckp = b.cpcb.isSome) (hself : c.tktn = some t → b.svst = 0)
    (hreq : q.steady → k.Reports c v) :
    ∃ sp', (k'.tk6 c t v).1.Inv q sp' none := by
  have htt : k'.tcb t = b := by rw [htcb, Function.update_self]
  have hnw : ∀ p, sp t ≠ .wait → k.wait p = (k.wait p).erase t := fun p hs =>
    (List.erase_of_not_mem fun hc => hs ((h.lists.wait p t).mp hc).1).symm
  have hnq : sp t ≠ .queue → k.ldq = k.ldq.erase t := fun hs =>
    (List.erase_of_not_mem fun hc => hs ((h.lists.queue t).mp hc)).symm
  have hnl : sp t ≠ .load → ∀ u, k.loading = some u ↔ u ≠ t ∧ k.loading = some u := by
    intro hs u
    refine ⟨fun hl => ⟨?_, hl⟩, And.right⟩
    rintro rfl
    exact hs ((h.lists.load u).mp hl)
  have hoff : sp t ≠ .off := by
    rcases hsp with hsp | hsp | ⟨hsp, -⟩ <;> rw [hsp] <;> exact nofun
  have hwait : ∀ p, t ∈ k'.wait p ↔ sp t = .wait ∧ (k.tcb t).pcb = p := fun p => by
    rw [hw]
    exact h.lists.wait p t
  have hqueue : t ∈ k'.ldq ↔ sp t = .queue := by
    rw [hq]
    exact h.lists.queue t
  unfold Kernel.tk6
  dsimp only
  rw [htt, hpcb]
  rcases hsp with hsp | hsp | ⟨hsp, hldr⟩
  · rw [if_pos ((hwait _).mpr ⟨hsp, rfl⟩)]
    refine h.tk1 ⟨⟨hst.main, hst.bsy, hst.own, hst.io, hst.given⟩, fun p => ?_,
      hq.trans (hnq (by rw [hsp]; exact nofun)), fun u => ?_, htcb, hspace, hpcb, hioc⟩ hoff
      (fun hst _ => hown hst ((h.lists.wait _ t).mpr ⟨hsp, rfl⟩)) hn hact habo hfix hckp hself hreq
    · dsimp only
      rw [hw]
      rcases eq_or_ne p (k.tcb t).pcb with rfl | hp
      · rw [Function.update_self]
      · rw [Function.update_of_ne hp, List.erase_of_not_mem]
        exact fun hc => hp ((h.lists.wait p t).mp hc).2.symm
    · dsimp only
      rw [hl]
      exact hnl (by rw [hsp]; exact nofun) u
  · have hmem : t ∉ k'.wait (k.tcb t).pcb := fun hc =>
      nomatch hsp.symm.trans ((hwait _).mp hc).1
    rw [if_neg hmem, if_pos (hqueue.mpr hsp)]
    refine h.tk1 ⟨⟨hst.main, hst.bsy, hst.own, hst.io, hst.given⟩, fun p => ?_, ?_, fun u => ?_,
      htcb, hspace, hpcb, hioc⟩ hoff (fun _ hc => nomatch hsp.symm.trans hc) hn hact habo hfix
      hckp hself hreq
    · exact (congrFun hw p).trans (hnw p (by rw [hsp]; exact nofun))
    · dsimp only
      rw [hq]
    · dsimp only
      rw [hl]
      exact hnl (by rw [hsp]; exact nofun) u
  · have hmem : t ∉ k'.wait (k.tcb t).pcb := fun hc =>
      nomatch hsp.symm.trans ((hwait _).mp hc).1
    have hmemq : t ∉ k'.ldq := fun hc => nomatch hsp.symm.trans (hqueue.mp hc)
    rw [if_neg hmem, if_neg hmemq, if_pos hldr]
    refine h.tk1 ⟨hst, fun p => ?_, hq.trans (hnq (by rw [hsp]; exact nofun)), fun u => ?_,
      htcb, hspace, hpcb, hioc⟩ hoff (fun _ hc => nomatch hsp.symm.trans hc) hn hact habo hfix
      hckp hself hreq
    · exact (congrFun hw p).trans (hnw p (by rw [hsp]; exact nofun))
    · rw [hl]
      exact hnl (by rw [hsp]; exact nofun) u

omit [DecidableEq P] [DecidableEq F] in
theorem spaced_setTcb (h : k.Spaced) (hb : b.cpcb = (k.tcb t).cpcb) : (k.setTcb t b).Spaced := by
  have he : (fun u => ((k.setTcb t b).tcb u).cpcb) = fun u => (k.tcb u).cpcb := by
    funext u
    rcases eq_or_ne u t with rfl | hu
    · rw [setTcb_self, hb]
    · rw [setTcb_of_ne k b hu]
  rw [Spaced, he]
  exact h

/-- `TKILL`. -/
theorem Inv.tkill {e : ℕ} (h : k.Inv q sp none) (hv : v.rest.Sublist (k.io t))
    (hself : c.tktn = some t → v.oio ||| e = 0)
    (hreq : q.steady → k.Reports c v)
    (hown : q.steady → t ∈ k.wait (k.tcb t).pcb → k.sys t = true) :
    ∃ sp', (k.tkill c t e v).1.Inv q sp' none := by
  unfold Kernel.tkill
  dsimp only
  split
  · exact ⟨sp, h⟩
  split
  · exact ⟨sp, h⟩
  next hact =>
  rw [Bool.not_eq_true', Bool.not_eq_false] at hact
  split
  · exact ⟨sp, h⟩
  next habo =>
  rw [Bool.not_eq_true] at habo
  obtain ⟨hioc, hbyte⟩ := h.ioc t
  have hlen := hv.length_le
  obtain ⟨b, hb⟩ : ∃ b : Tcb P, b = { k.tcb t with
    svst := v.oio ||| e, abo := true, ioc := ((k.tcb t).ioc +
      256 * ((k.io t).length - v.rest.length) - ((k.io t).length - v.rest.length)) % 256 } :=
    ⟨_, rfl⟩
  have hbioc : b.ioc = v.rest.length := by
    rw [hb]
    dsimp only
    rw [hioc]
    omega
  rw [← hb]
  obtain ⟨k₁, hk₁⟩ : ∃ k₁, k₁ = { k with io := Function.update k.io t v.rest }.setTcb t b :=
    ⟨_, rfl⟩
  rw [← hk₁]
  have hb₁ : k₁.tcb t = b := by rw [hk₁, setTcb_self]
  have hbs : b.pcb = (k.tcb t).pcb ∧ b.cpcb = (k.tcb t).cpcb ∧ b.pri = (k.tcb t).pri ∧
      b.act = true ∧ b.abo = true ∧ b.fix = (k.tcb t).fix ∧ b.out = (k.tcb t).out ∧
      b.ckp = (k.tcb t).ckp ∧ b.ldr = (k.tcb t).ldr ∧ b.svst = v.oio ||| e := by
    rw [hb]
    exact ⟨rfl, rfl, rfl, hact, rfl, rfl, rfl, rfl, rfl, rfl⟩
  obtain ⟨hpcb, hcp, hpri, hbact, hbabo, hbfix, hbout, hbckp, hbldr, hbsvst⟩ := hbs
  rcases h.live hact habo with ⟨hin, hsp⟩ | ⟨hout, hfix, hckp, hnil, hsp⟩
  · rw [if_neg (by rw [hin]; exact nofun), tk5, hb₁]
    obtain ⟨hlive, ho, hc, hcpn, -, -, hm, hldr⟩ : Tcb.Fine q _ _ _ _ .core := hsp ▸ h.fine t
    have hsteady : q.steady → ∀ r ∈ v.rest, r.1 = (k.region t).1 ∧ r.2 ≤ (k.region t).2 :=
      fun hq r hr => h.steady hq t r (hv.mem hr)
    split
    · next hne =>
      refine ⟨_, h.setIo hpcb hcp hbioc (by omega) (fun _ _ => hpri) (Or.inl hsp.symm)
        (fun _ => by rw [hsp]; exact nofun) (fun _ _ => id) nofun hsteady ?_ hk₁⟩
      refine ⟨by rw [hbact, Bool.true_or], hbout.trans ho, hbckp.trans hc, hcp.trans hcpn,
        fun _ _ => hbioc ▸ hne, fun ha => (nomatch hbact.symm.trans ha), hm, hbldr.trans hldr⟩
    · next heq =>
      have hlost := h.setIo (s := .lost) hpcb hcp hbioc (by omega) (fun _ _ => hpri)
        (Or.inr ⟨⟨nofun, nofun, nofun⟩, by rw [hsp]; exact ⟨nofun, nofun, nofun⟩⟩)
        (fun _ => by rw [hsp]; exact nofun) (fun _ _ => id) nofun hsteady
        ⟨hbact, hbabo, by rw [← hbioc]; exact not_not.mp heq, fun _ => hcp.trans hcpn,
          fun _ => ⟨hbout.trans ho, hbckp.trans hc, hcp.trans hcpn, hm, hbldr.trans hldr⟩⟩ hk₁
      have hsame : k.Same k₁ := by
        rw [hk₁]
        exact ⟨setTcb_pcb (k := { k with io := Function.update k.io t v.rest }) hpcb, fun _ => rfl⟩
      exact hlost.tkill2 (Function.update_self ..) (by rw [hb₁, hcp, hcpn])
        (by rw [hb₁, hbsvst]; exact hself) fun hst => (hreq hst).congr hsame (by rw [hk₁]; rfl)
  · rw [if_pos hout]
    have hrest : v.rest = [] := List.eq_nil_of_length_eq_zero (by rw [hnil] at hlen; simpa using hlen)
    have hio : k₁.io = k.io := by
      rw [hk₁, hrest, ← hnil]
      exact Function.update_eq_self ..
    have hioc' : b.ioc = (k.tcb t).ioc := by rw [hbioc, hioc, hrest, hnil]
    have hspot : sp t = .load ∧ (k.tcb t).ldr = false ∨
        (sp t = .wait ∨ sp t = .queue ∨ sp t = .stuck ∧ b.ldr = true) := by
      rw [hbldr]
      rcases hsp with hsp | hsp | hsp | hsp
      · exact Or.inr (Or.inl hsp)
      · exact Or.inr (Or.inr (Or.inl hsp))
      · exact Or.inl hsp
      · exact Or.inr (Or.inr (Or.inr hsp))
    rcases hspot with ⟨hsp, hldr⟩ | hsp
    · have hnw : ∀ p, t ∉ k₁.wait p := by
        rw [hk₁]
        exact fun p hc => nomatch hsp.symm.trans ((h.lists.wait p t).mp hc).1
      have hnq : t ∉ k₁.ldq := by
        rw [hk₁]
        exact fun hc => nomatch hsp.symm.trans ((h.lists.queue t).mp hc)
      have hnl : ¬(k₁.tcb t).ldr = true := by
        rw [hb₁, hbldr, hldr]
        exact nofun
      unfold Kernel.tk6
      dsimp only
      rw [if_neg (hnw _), if_neg hnq, if_neg hnl]
      obtain ⟨-, -, -, hn, ho, hm, -⟩ : Tcb.Fine q _ _ _ _ .load := hsp ▸ h.fine t
      refine ⟨_, h.setIo hpcb hcp hbioc (by omega) (fun _ _ => hpri) (Or.inl hsp.symm)
        (fun _ => by rw [hsp]; exact nofun) (fun _ _ => id) nofun
        (fun hq r hr => h.steady hq t r (hv.mem hr)) ?_ hk₁⟩
      exact ⟨hbact, hbfix.trans hfix, by rw [hbckp, hcp, hckp], by rw [hrest]; rfl,
        by rw [hbout, hbckp, ho], hm, hbldr.trans hldr⟩
    · refine h.tk6 ⟨?_, ?_, ?_, hio, ?_⟩ ?_ ?_ ?_ ?_ ?_ hpcb hioc' hsp hown hnil hbact hbabo
        (hbfix.trans hfix) (by rw [hbckp, hcp, hckp]) (by rw [hbsvst]; exact hself) hreq
      all_goals rw [hk₁]
      any_goals rfl
      exact spaced_setTcb (k := { k with io := Function.update k.io t v.rest }) h.space hcp

/-! ## Input and output -/

omit [DecidableEq P] [DecidableEq F] in
/-- `QIO`, by a task in memory that is not being aborted. `T.IOC` does not wrap. -/
theorem Inv.qio (h : k.Inv q sp none) (hact : (k.tcb t).act = true)
    (habo : (k.tcb t).abo = false) (hin : ((k.tcb t).out || (k.tcb t).ckp) = false)
    (hioc : (k.tcb t).ioc < 255) : ∃ sp', (k.qio t).Inv q sp' none := by
  have hsp : sp t = .core := by
    rcases h.live hact habo with ⟨-, hsp⟩ | ⟨hout, -⟩
    · exact hsp
    · exact nomatch hin.symm.trans hout
  obtain ⟨hlive, ho, hc, hcp, -, -, hm, hldr⟩ : Tcb.Fine q _ _ _ _ .core := hsp ▸ h.fine t
  have hlen : (k.io t ++ [k.region t]).length = (k.tcb t).ioc + 1 := by
    rw [List.length_append, (h.ioc t).1]
    rfl
  refine ⟨_, h.setIo rfl rfl (l := k.io t ++ [k.region t]) (b := { k.tcb t with
    ioc := ((k.tcb t).ioc + 1) % 256 }) ?_ (Nat.mod_lt _ (by omega)) (fun _ _ => rfl)
    (Or.inl hsp.symm) (fun _ => by rw [hsp]; exact nofun) (fun _ _ => id) nofun
    (fun hq r hr => ?_) ?_ rfl⟩
  · dsimp only
    rw [hlen, Nat.mod_eq_of_lt (by omega)]
  · rcases List.mem_append.mp hr with hr | hr
    · exact h.steady hq t r hr
    · rw [List.mem_singleton.mp hr]
      exact ⟨rfl, le_rfl⟩
  · rw [hlen]
    exact ⟨hlive, ho, hc, hcp, fun _ ha => (nomatch habo.symm.trans ha),
      fun ha => (nomatch hact.symm.trans ha), hm, hldr⟩

/-- `SETFRE`, at the end of request `i`. -/
theorem Inv.setfre {i : ℕ} {z pool : Bool} (h : k.Inv q sp none) (hi : i < (k.io t).length)
    (hself : (k.tcb t).abo = true → c.tktn = some t → (k.tcb t).svst = 0)
    (hreq : q.steady → k.Reports c v) :
    ∃ sp', (k.setfre c t i v z pool).Inv q sp' none := by
  have hne : (k.io t).length ≠ 0 := by omega
  -- only a task in memory has requests
  have hsp : sp t = .core := by
    have hf := h.fine t
    cases hsp : sp t <;> rw [hsp] at hf
    · exact absurd hf.2.2.2.1 hne
    · exact absurd hf.2.2.2.2.1 hne
    · exact absurd hf.2.2.2.2.1 hne
    · exact absurd hf.2.2.2.1 hne
    · exact absurd hf.2.2.2.2.1 hne
    · exact absurd hf.2.2.1 hne
    · exact absurd hf.2.2.2.1 hne
  obtain ⟨hlive, ho, hc, hcp, -, hidle, hm, hldr⟩ : Tcb.Fine q _ _ _ _ .core := hsp ▸ h.fine t
  have hact : (k.tcb t).act = true := by
    cases ha : (k.tcb t).act with
    | true => rfl
    | false => exact absurd (hidle ha) hne
  obtain ⟨hioc, hbyte⟩ := h.ioc t
  have hlen : ((k.io t).eraseIdx i).length = (k.io t).length - 1 := List.length_eraseIdx_of_lt hi
  obtain ⟨b, hb⟩ : ∃ b : Tcb P, b = { k.tcb t with ioc := ((k.tcb t).ioc + 255) % 256 } :=
    ⟨_, rfl⟩
  have hbi : b.ioc = ((k.tcb t).ioc + 255) % 256 := by rw [hb]
  have hbioc : b.ioc = ((k.io t).eraseIdx i).length := by
    rw [hbi, hlen, hioc]
    omega
  have hbs : b.pcb = (k.tcb t).pcb ∧ b.cpcb = (k.tcb t).cpcb ∧ b.pri = (k.tcb t).pri ∧
      b.act = true ∧ b.abo = (k.tcb t).abo ∧ b.out = false ∧ b.ckp = false ∧ b.ldr = false ∧
      b.svst = (k.tcb t).svst := by
    rw [hb]
    exact ⟨rfl, rfl, rfl, hact, rfl, ho, hc, hldr, rfl⟩
  obtain ⟨hpcb, hbcp, hpri, hbact, hbabo, hbout, hbckp, hbldr, hbsvst⟩ := hbs
  have hsteady : q.steady → ∀ r ∈ (k.io t).eraseIdx i,
      r.1 = (k.region t).1 ∧ r.2 ≤ (k.region t).2 :=
    fun hq r hr => h.steady hq t r (List.mem_of_mem_eraseIdx hr)
  unfold Kernel.setfre
  simp only [← hb]
  obtain ⟨k₁, hk₁⟩ : ∃ k₁, k₁ =
    { k with io := Function.update k.io t ((k.io t).eraseIdx i) }.setTcb t b := ⟨_, rfl⟩
  rw [← hk₁]
  -- the task stays in memory unless it was waiting for this request to end
  have hstay : (b.abo = true → b.ioc ≠ 0) → k₁.Inv q sp none := by
    intro hn
    have hset := h.setIo (s := sp t) hpcb hbcp hbioc (by omega) (fun _ _ => hpri) (Or.inl rfl) id
      (fun _ _ => id) (fun hd => nomatch hsp.symm.trans hd) hsteady
      (by
        rw [hsp]
        exact ⟨by rw [hbact, Bool.true_or], hbout, hbckp, hbcp.trans hcp,
          fun _ ha => hbioc ▸ hn ha, fun ha => (nomatch hbact.symm.trans ha), hm, hbldr⟩) hk₁
    rwa [Function.update_eq_self] at hset
  split
  · next hn => exact ⟨sp, hstay fun _ => by rwa [hbi]⟩
  next hz =>
  split
  · next ha =>
    have hlost := h.setIo (s := .lost) hpcb hbcp hbioc (by omega) (fun _ _ => hpri)
      (Or.inr ⟨⟨nofun, nofun, nofun⟩, by rw [hsp]; exact ⟨nofun, nofun, nofun⟩⟩)
      (fun _ => by rw [hsp]; exact nofun) (fun _ _ => id) nofun hsteady
      ⟨hbact, hbabo.trans ha, by rw [← hbioc, hbi]; exact not_not.mp hz, fun _ => hbcp.trans hcp,
        fun _ => ⟨hbout, hbckp, hbcp.trans hcp, hm, hbldr⟩⟩ hk₁
    have hb₁ : k₁.tcb t = b := by rw [hk₁, setTcb_self]
    have hsame : k.Same k₁ := by
      rw [hk₁]
      exact ⟨setTcb_pcb (k := { k with io := Function.update k.io t ((k.io t).eraseIdx i) }) hpcb,
        fun _ => rfl⟩
    exact hlost.tkill2 (Function.update_self ..) (by rw [hb₁, hbcp, hcp])
      (by rw [hb₁, hbsvst]; exact hself ha) fun hst => (hreq hst).congr hsame (by rw [hk₁]; rfl)
  next ha =>
  have h₁ := hstay fun habo => absurd (hbabo.symm.trans habo) ha
  split
  · obtain ⟨sp₂, h₂, -⟩ := h₁.chkpt (c := c) hsp z pool
    exact ⟨sp₂, h₂⟩
  · exact ⟨sp, h₁⟩

end Kernel

end RSX280.Chkpt
