import RSX280.ChkptBooks

/-!
# The moves of a task

Each lemma here takes one task from one spot to the next and shows that everything stays in
order.
-/

namespace RSX280.Chkpt

open Queue Spans Subpars
open Sched (Ret)

universe u v w

/-- A spot on no list. -/
def Spot.Free (s : Spot) : Prop := s ≠ .wait ∧ s ≠ .queue ∧ s ≠ .load

namespace Kernel

variable {T : Type u} {P : Type v} {F : Type w} [DecidableEq T] {q : Meets}
  {k k' : Kernel T P F} {sp sp' : T → Spot} {x x' : Option T} {t u : T} {p : P} {b : Tcb P}
  {m : Main T} {s : Spot}

/-! ## Status bits -/

theorem setTcb_pcb (hb : b.pcb = (k.tcb t).pcb) (u : T) :
    ((k.setTcb t b).tcb u).pcb = (k.tcb u).pcb := by
  rcases eq_or_ne u t with rfl | hu
  · rw [setTcb_self, hb]
  · rw [setTcb_of_ne k b hu]

/-- The control block of a task is changed, with its requests and perhaps its spot, but not
the lists. -/
theorem Inv.setIo {l : List (ℕ × ℕ)} (h : k.Inv q sp x) (hb : b.pcb = (k.tcb t).pcb)
    (hcp : b.cpcb = (k.tcb t).cpcb) (hioc : b.ioc = l.length) (hbyte : b.ioc < 256)
    (hpri : q.order → sp t = .wait → b.pri = (k.tcb t).pri)
    (hs : s = sp t ∨ s.Free ∧ (sp t).Free) (hoff : s ≠ .off → sp t ≠ .off)
    (hx : ∀ u, u ≠ t → x = some u → x' = some u) (hxt : s = .dead → x' = some t)
    (hl : q.steady → ∀ r ∈ l, r.1 = (k.region t).1 ∧ r.2 ≤ (k.region t).2)
    (hf : b.Fine q l.length (k.sys t) (k.linked t) s)
    (hk : k' = { k with io := Function.update k.io t l }.setTcb t b) :
    k'.Inv q (Function.update sp t s) x' := by
  have hpcb : ∀ u, (k'.tcb u).pcb = (k.tcb u).pcb := by
    subst hk
    exact setTcb_pcb hb
  have htt : k'.tcb t = b := by
    subst hk
    exact setTcb_self ..
  have htu : ∀ u, u ≠ t → k'.tcb u = k.tcb u := by
    subst hk
    exact fun u hu => setTcb_of_ne _ b hu
  have hmain : k'.main = k.main := by
    subst hk
    rfl
  have hio : k'.io = Function.update k.io t l := by
    subst hk
    rfl
  have hc : ∀ p, (k.main p).Changed (k'.main p) t := fun p => by
    rw [hmain]
    exact Main.changed_refl ..
  have hsys : k'.sys t = k.sys t := by rw [sys, sys, hpcb, hmain]
  have hlinked : k'.linked t = k.linked t := by rw [linked, linked, hpcb, hmain]
  have hregion : ∀ u, k'.region u = k.region u := by
    intro u
    simp only [region, hpcb, hmain]
  have howns : ∀ u, k'.owns u = k.owns u := by
    intro u
    simp only [Kernel.owns, hpcb]
    subst hk
    rfl
  have hwait : k'.wait = k.wait := by
    subst hk
    rfl
  have hldq : k'.ldq = k.ldq := by
    subst hk
    rfl
  have hloading : k'.loading = k.loading := by
    subst hk
    rfl
  refine h.change t ?_ ⟨by rw [hmain]; exact h.mem.laid, by rw [hmain]; exact h.mem.small, ?_⟩ ?_
    ?_ ?_ ?_ ?_ ?_ (fun _ u _ _ => hregion u) ?_ ?_ ?_
  · refine h.lists.move t s hpcb (fun _ _ _ => by rw [hwait]) (fun p => ?_)
      (fun _ _ => by rw [hldq]) ?_ (fun _ _ => by rw [hloading]) ?_
      (by rw [hwait]; exact h.lists.waitNodup) (by rw [hldq]; exact h.lists.queueNodup)
    · rw [hwait]
      refine (h.lists.wait p t).trans (and_congr_left fun _ => ?_)
      rcases hs with rfl | ⟨hs, ht⟩
      · exact Iff.rfl
      · exact iff_of_false ht.1 hs.1
    · rw [hldq]
      refine (h.lists.queue t).trans ?_
      rcases hs with rfl | ⟨hs, ht⟩
      · exact Iff.rfl
      · exact iff_of_false ht.2.1 hs.2.1
    · rw [hloading]
      refine (h.lists.load t).trans ?_
      rcases hs with rfl | ⟨hs, ht⟩
      · exact Iff.rfl
      · exact iff_of_false ht.2.2 hs.2.2
  · intro p u hu
    rw [hmain] at hu ⊢
    rw [hpcb]
    exact h.mem.home p u hu
  · have he : (fun u => (k'.tcb u).cpcb) = fun u => (k.tcb u).cpcb := by
      funext u
      rcases eq_or_ne u t with rfl | hu
      · rw [htt, hcp]
      · rw [htu u hu]
    rw [Spaced, he]
    subst hk
    exact h.space
  · intro u hu
    obtain ⟨h₁, h₂, -⟩ := rest_of_changed hpcb hc hu
    exact ⟨Function.update_of_ne hu .., htu u hu, by rw [hio, Function.update_of_ne hu], h₁, h₂⟩
  · rw [htt, hsys, hlinked, hio, Function.update_self, Function.update_self]
    exact hf
  · intro u hu
    rcases eq_or_ne u t with rfl | hne
    · rw [Function.update_self] at hu
      exact hxt hu
    · rw [Function.update_of_ne hne] at hu
      exact hx u hne (h.dead u hu)
  · rw [htt, hio, Function.update_self]
    exact ⟨hioc, hbyte⟩
  · intro hq u hu hto
    rcases eq_or_ne u t with rfl | hne
    · rw [howns]
      refine h.owns hq u ⟨hsys ▸ hto.1, ?_, ?_⟩
      · exact hoff (by simpa using hto.2.1)
      · intro hw
        rcases hs with hs | hs
        · exact hto.2.2 ((Function.update_self ..).trans (hs.trans hw))
        · exact hs.2.1 hw
    · rw [howns]
      exact hu hne
  · intro hq r hr
    rw [hio, Function.update_self] at hr
    rw [hregion]
    exact hl hq r hr
  · intro hq p
    rw [hwait]
    refine (h.order hq p).congr fun u hu => ?_
    rcases eq_or_ne u t with rfl | hne
    · rw [htt]
      exact hpri hq ((h.lists.wait p u).mp hu).1
    · rw [htu u hne]
  · subst hk
    exact h.given

/-- The control block of a task is changed, and perhaps its spot, but not the lists. -/
theorem Inv.set (h : k.Inv q sp x) (hb : b.pcb = (k.tcb t).pcb) (hcp : b.cpcb = (k.tcb t).cpcb)
    (hioc : b.ioc = (k.tcb t).ioc) (hpri : q.order → sp t = .wait → b.pri = (k.tcb t).pri)
    (hs : s = sp t ∨ s.Free ∧ (sp t).Free) (hoff : s ≠ .off → sp t ≠ .off)
    (hx : ∀ u, u ≠ t → x = some u → x' = some u) (hxt : s = .dead → x' = some t)
    (hf : b.Fine q (k.io t).length (k.sys t) (k.linked t) s) :
    (k.setTcb t b).Inv q (Function.update sp t s) x' := by
  obtain ⟨h₁, h₂⟩ := h.ioc t
  refine h.setIo hb hcp (hioc.trans h₁) (hioc ▸ h₂) hpri hs hoff hx hxt
    (fun hq => h.steady hq t) hf ?_
  rw [Function.update_eq_self]

/-- The control block of a task is changed. -/
theorem Inv.setTcb (h : k.Inv q sp x) (hb : b.pcb = (k.tcb t).pcb)
    (hcp : b.cpcb = (k.tcb t).cpcb) (hioc : b.ioc = (k.tcb t).ioc)
    (hpri : q.order → sp t = .wait → b.pri = (k.tcb t).pri)
    (hf : b.Fine q (k.io t).length (k.sys t) (k.linked t) (sp t)) : (k.setTcb t b).Inv q sp x := by
  have hset : (k.setTcb t b).Inv q (Function.update sp t (sp t)) x :=
    h.set hb hcp hioc hpri (Or.inl rfl) id (fun _ _ => id) (fun hs => h.dead t hs) hf
  rwa [Function.update_eq_self] at hset

/-! ## Leaving a list -/

/-- Nothing but control blocks, lists and checkpoint space has changed. -/
structure Stored (k k' : Kernel T P F) : Prop where
  main : k'.main = k.main
  bsy : k'.bsy = k.bsy
  own : k'.own = k.own
  io : k'.io = k.io
  given : k'.given = k.given

/-- A task has left the list it is on, or the loader, with control block `b`. -/
structure Leaves (k k' : Kernel T P F) (t : T) (b : Tcb P) : Prop extends k.Stored k' where
  wait : ∀ p, k'.wait p = (k.wait p).erase t
  ldq : k'.ldq = k.ldq.erase t
  loading : ∀ u, k'.loading = some u ↔ u ≠ t ∧ k.loading = some u
  tcb : k'.tcb = Function.update k.tcb t b
  spaced : k'.Spaced
  pcb : b.pcb = (k.tcb t).pcb
  ioc : b.ioc = (k.tcb t).ioc

/-- A task leaves the list it is on, or the loader, for spot `s`. -/
theorem Inv.leave (h : k.Inv q sp x) (hk : k.Leaves k' t b) (hs : s.Free) (hd : s ≠ .dead)
    (ht : sp t ≠ .off) (howns : q.steady → sp t = .wait → k.sys t = true)
    (hf : b.Fine q (k.io t).length (k.sys t) (k.linked t) s) :
    k'.Inv q (Function.update sp t s) x := by
  obtain ⟨hst, hw, hq, hl, htcb, hspace, hb, hioc⟩ := hk
  have htt : k'.tcb t = b := by rw [htcb, Function.update_self]
  have htu : ∀ u, u ≠ t → k'.tcb u = k.tcb u := by
    intro u hu
    rw [htcb, Function.update_of_ne hu]
  have hpcb : ∀ u, (k'.tcb u).pcb = (k.tcb u).pcb := by
    intro u
    rcases eq_or_ne u t with rfl | hu
    · rw [htt, hb]
    · rw [htu u hu]
  have hsys : ∀ u, k'.sys u = k.sys u := fun u => by rw [sys, sys, hpcb, hst.main]
  have hlinked : ∀ u, k'.linked u = k.linked u := fun u => by rw [linked, linked, hpcb, hst.main]
  have hregion : ∀ u, k'.region u = k.region u := by
    intro u
    simp only [region, hpcb, hst.main]
  have howns' : ∀ u, k'.owns u = k.owns u := by
    intro u
    simp only [Kernel.owns, hpcb, hst.bsy, hst.own]
  refine h.change t ?_ ?_ hspace (fun u hu => ?_) ?_ ?_ ?_ ?_ ?_ ?_ ?_ ?_
  · refine h.lists.move t s hpcb (fun p u hu => ?_) (fun p => ?_) (fun u hu => ?_) ?_
      (fun u hu => ?_) ?_ (fun p => ?_) ?_
    · rw [hw, List.mem_erase_of_ne hu]
    · rw [hw]
      exact iff_of_false (h.lists.waitNodup p).not_mem_erase fun hc => hs.1 hc.1
    · rw [hq, List.mem_erase_of_ne hu]
    · rw [hq]
      exact iff_of_false h.lists.queueNodup.not_mem_erase hs.2.1
    · rw [hl, and_iff_right hu]
    · exact iff_of_false (fun hc => ((hl t).mp hc).1 rfl) hs.2.2
    · rw [hw]
      exact (h.lists.waitNodup p).erase t
    · rw [hq]
      exact h.lists.queueNodup.erase t
  · refine ⟨by rw [hst.main]; exact h.mem.laid, by rw [hst.main]; exact h.mem.small, ?_⟩
    intro p u hu
    rw [hst.main] at hu ⊢
    rw [hpcb]
    exact h.mem.home p u hu
  · exact ⟨Function.update_of_ne hu .., htu u hu, congrFun hst.io u, hsys u, by rw [hlinked]⟩
  · rw [htt, hsys, hlinked, hst.io, Function.update_self]
    exact hf
  · intro u hu
    rcases eq_or_ne u t with rfl | hne
    · exact absurd ((Function.update_self ..).symm.trans hu) hd
    · rw [Function.update_of_ne hne] at hu
      exact h.dead u hu
  · rw [htt, hioc, hst.io]
    exact h.ioc t
  · intro hsteady u hu hto
    rw [howns']
    rcases eq_or_ne u t with rfl | hne
    · refine h.owns hsteady u ⟨hsys u ▸ hto.1, ht, fun hc => ?_⟩
      cases (hto.1.symm.trans (hsys u)).trans (howns hsteady hc)
    · exact hu hne
  · exact fun _ u _ _ => hregion u
  · intro hsteady r hr
    rw [hregion]
    rw [hst.io] at hr
    exact h.steady hsteady t r hr
  · intro ho p
    rw [hw]
    refine ((h.order ho p).sublist List.erase_sublist).congr fun u hu => ?_
    rcases eq_or_ne u t with rfl | hne
    · exact absurd hu (h.lists.waitNodup p).not_mem_erase
    · rw [htu u hne]
  · intro ho p g hg
    rw [hst.given] at hg
    exact h.given ho p g hg

/-! ## Assignment -/

section Assign

variable [DecidableEq P]

/-- A waiting task is given memory and queued to the loader. -/
theorem Inv.toQueue (h : k.Inv q sp x) (ht : sp t = .wait) (hp : (k.tcb t).pcb = p)
    (hw : k'.wait = Function.update k.wait p ((k.wait p).erase t))
    (hq : k'.ldq = enqueue (fun u => (k.tcb u).pri) t k.ldq) (hl : k'.loading = k.loading)
    (htcb : k'.tcb = k.tcb) (hspace : k'.Spaced) (hio : k'.io = k.io) (hmem : k'.Mem)
    (hc : ∀ p, (k.main p).Changed (k'.main p) t) (hlinked : k.sys t = true → k'.linked t)
    (howns : q.steady → ∀ u, (u ≠ t → k.owns u) → k'.Takes (Function.update sp t .queue) u →
      k'.owns u)
    (hgiven : q.order → ∀ p, ∀ g ∈ k'.given p, ∀ n ∈ g.fit, n ≤ g.pri) :
    k'.Inv q (Function.update sp t .queue) x := by
  have hpcb : ∀ u, (k'.tcb u).pcb = (k.tcb u).pcb := fun u => by rw [htcb]
  have hpri : (fun u => (k'.tcb u).pri) = fun u => (k.tcb u).pri := by rw [htcb]
  obtain ⟨hact, hfix, habo, hckp, hn, hout, -, hldr⟩ : Tcb.Fine q _ _ _ _ .wait := ht ▸ h.fine t
  have hnil : k.io t = [] := List.eq_nil_of_length_eq_zero hn
  have hsub : ∀ p', (k'.wait p').Sublist (k.wait p') := by
    intro p'
    rw [hw]
    rcases eq_or_ne p' p with rfl | hne
    · rw [Function.update_self]
      exact List.erase_sublist
    · rw [Function.update_of_ne hne]
  have htq : t ∉ k.ldq := fun hc => nomatch ht.symm.trans ((h.lists.queue t).mp hc)
  refine h.change t ?_ hmem hspace (fun u hu => ?_) ?_ ?_ ?_ howns ?_ ?_ ?_ hgiven
  · refine h.lists.move t .queue hpcb (fun p' u hu => ?_) (fun p' => ?_) (fun u hu => ?_) ?_
      (fun u _ => by rw [hl]) ?_ (fun p' => (h.lists.waitNodup p').sublist (hsub p')) ?_
    · rw [hw]
      rcases eq_or_ne p' p with rfl | hne
      · rw [Function.update_self, List.mem_erase_of_ne hu]
      · rw [Function.update_of_ne hne]
    · refine iff_of_false (fun hm => ?_) nofun
      rw [hw] at hm
      rcases eq_or_ne p' p with rfl | hne
      · rw [Function.update_self] at hm
        exact (h.lists.waitNodup p').not_mem_erase hm
      · rw [Function.update_of_ne hne] at hm
        exact hne (((h.lists.wait p' t).mp hm).2.symm.trans hp)
    · rw [hq, mem_enqueue, or_iff_right hu]
    · rw [hq, mem_enqueue]
      exact iff_of_true (Or.inl rfl) rfl
    · rw [hl, h.lists.load, ht]
      exact iff_of_false nofun nofun
    · rw [hq]
      exact nodup_enqueue h.lists.queueNodup htq
  · obtain ⟨h₁, h₂, -⟩ := rest_of_changed hpcb hc hu
    exact ⟨Function.update_of_ne hu .., by rw [htcb], by rw [hio], h₁, h₂⟩
  · have hsys : k'.sys t = k.sys t := by rw [sys, sys, hpcb, (hc _).sys]
    rw [htcb, hio, hsys, Function.update_self]
    exact ⟨hact, hfix, habo, hckp, hn, by rw [hout, Bool.true_or], hlinked, hldr⟩
  · intro u hu
    rcases eq_or_ne u t with rfl | hne
    · rw [Function.update_self] at hu
      cases hu
    · rw [Function.update_of_ne hne] at hu
      exact h.dead u hu
  · rw [htcb, hio]
    exact h.ioc t
  · exact fun _ u hu _ => (rest_of_changed hpcb hc hu).2.2
  · intro _ r hr
    rw [hio, hnil] at hr
    exact absurd hr List.not_mem_nil
  · intro ho p'
    rw [hpri]
    exact (h.order ho p').sublist (hsub p')

theorem Inv.grant [DecidableEq F] {v : Look T} (h : k.Inv q sp x) (hp : (k.main p).sys = true)
    (ht : t ∈ k.wait p) (hm : (k.main p).malloc t (k.pages p t) = (m, .ok))
    (hfit : q.order → ∀ n ∈ k.fit v p, n ≤ (k.tcb t).pri) :
    (k.grant v p t m).Inv q (Function.update sp t .queue) x := by
  obtain ⟨hspt, hpcb⟩ := (h.lists.wait p t).mp ht
  have hlaid := h.mem.laid p hp
  obtain ⟨hc, hmem, hsize⟩ := hlaid.malloc_ok hm
  obtain ⟨-, -, -, -, -, -, hnl, -⟩ : Tcb.Fine q _ _ _ _ .wait := hspt ▸ h.fine t
  have hpages : ((k.main p).pcb t).size = k.pages p t := (Nat.mod_eq_of_lt (h.mem.small p t)).symm
  have hlaid' : m.Laid := by
    have := hlaid.malloc (by rwa [linked, hpcb] at hnl) hpages
    rwa [hm] at this
  have hmem' : (k.setMain p m).Mem := by
    refine h.mem.setMain hc (fun _ => hlaid') ?_ fun _ => ⟨hc.sys.trans hp, hpcb⟩
    exact hsize.trans_lt (h.mem.small p t)
  refine h.toQueue hspt hpcb rfl rfl rfl rfl h.space rfl ⟨hmem'.laid, hmem'.small, hmem'.home⟩
    (changed_setMain hc) (fun _ => ?_) (fun hst u hu hto => hu fun he => ?_)
    (fun ho p' g hg => ?_)
  all_goals dsimp only [Kernel.grant, qldr, setMain] at *
  · rw [linked]
    dsimp only
    rw [hpcb, Function.update_self]
    exact hmem
  · have hs := hto.1
    rw [sys] at hs
    dsimp only at hs
    rw [he, hpcb, Function.update_self, hc.sys, hp] at hs
    cases hs
  · rcases eq_or_ne p' p with rfl | hne
    · rw [Function.update_self] at hg
      rcases List.mem_append.mp hg with hg | hg
      · exact h.given ho p' g hg
      · rw [List.mem_singleton.mp hg]
        exact hfit ho
    · rw [Function.update_of_ne hne] at hg
      exact h.given ho p' g hg

theorem Inv.assign [DecidableEq F] {l : List T} (h : k.Inv q sp x)
    (hp : (k.main p).sys = false) (hb : k.bsy p = false) (ht : k.wait p = t :: l) :
    (k.assign p t).Inv q (Function.update sp t .queue) x := by
  obtain ⟨hspt, hpcb⟩ := (h.lists.wait p t).mp (ht ▸ List.mem_cons_self)
  have hs : k.sys t = false := by rw [sys, hpcb, hp]
  refine h.toQueue hspt hpcb rfl rfl rfl rfl h.space rfl ⟨h.mem.laid, h.mem.small, h.mem.home⟩
    (fun _ => Main.changed_refl ..) (fun hc => by cases hs.symm.trans hc)
    (fun hst u hu hto => ?_) (fun ho p' g hg => ?_)
  all_goals dsimp only [Kernel.assign, qldr] at *
  · rcases eq_or_ne u t with rfl | hne
    · refine ⟨?_, ?_⟩
      all_goals
        dsimp only
        rw [hpcb, Function.update_self]
    · obtain ⟨h₁, h₂⟩ := hu hne
      have hpu : (k.tcb u).pcb ≠ p := by
        intro he
        rw [he, hb] at h₁
        cases h₁
      refine ⟨?_, ?_⟩
      all_goals
        dsimp only
        rw [Function.update_of_ne hpu]
      · exact h₁
      · exact h₂
  · rcases eq_or_ne p' p with rfl | hne
    · rw [Function.update_self] at hg
      rcases List.mem_append.mp hg with hg | hg
      · exact h.given ho p' g hg
      · rw [List.mem_singleton.mp hg]
        intro n hn
        obtain ⟨u, hu, rfl⟩ := List.mem_map.mp hn
        rcases List.mem_cons.mp (ht ▸ hu) with rfl | hu
        · exact le_rfl
        · exact (List.pairwise_cons.mp (ht ▸ h.order ho p')).1 u hu
    · rw [Function.update_of_ne hne] at hg
      exact h.given ho p' g hg

end Assign

/-! ## Waiting -/

/-- A task is queued to the wait list of its partition: a new one, or one that gives up its
memory. -/
theorem Inv.toWait [DecidableEq P] (h : k.Inv q sp x) (ht : sp t ≠ .wait) (htq : sp t ≠ .queue)
    (hw : k'.wait = Function.update k.wait (k.tcb t).pcb
      (enqueue (fun u => (k'.tcb u).pri) t (k.wait (k.tcb t).pcb)))
    (hq : k'.ldq = k.ldq) (hl : ∀ u, k'.loading = some u ↔ u ≠ t ∧ k.loading = some u)
    (htcb : k'.tcb = Function.update k.tcb t b) (hspace : k'.Spaced) (hio : k'.io = k.io)
    (hmem : k'.Mem) (hb : b.pcb = (k.tcb t).pcb) (hioc : b.ioc = (k.tcb t).ioc)
    (hrest : ∀ u, u ≠ t → k'.sys u = k.sys u ∧ (k'.linked u ↔ k.linked u))
    (hregion : q.steady → ∀ u, u ≠ t → k.io u ≠ [] → k'.region u = k.region u)
    (hn : k.io t = []) (hf : b.Fine q 0 (k'.sys t) (k'.linked t) .wait)
    (howns : q.steady → ∀ u, u ≠ t → k.Takes sp u → k.owns u → k'.owns u)
    (hgiven : k'.given = k.given) : k'.Inv q (Function.update sp t .wait) x := by
  have htt : k'.tcb t = b := by rw [htcb, Function.update_self]
  have htu : ∀ u, u ≠ t → k'.tcb u = k.tcb u := by
    intro u hu
    rw [htcb, Function.update_of_ne hu]
  have hpcb : ∀ u, (k'.tcb u).pcb = (k.tcb u).pcb := by
    intro u
    rcases eq_or_ne u t with rfl | hu
    · rw [htt, hb]
    · rw [htu u hu]
  have htw : ∀ p, t ∉ k.wait p := fun p hc => ht ((h.lists.wait p t).mp hc).1
  have hfall : q.order → ∀ p, Falling (fun u => (k'.tcb u).pri) (k.wait p) := by
    intro ho p
    refine (h.order ho p).congr fun u hu => ?_
    rw [htu u fun he => htw p (he ▸ hu)]
  refine h.change t ?_ hmem hspace (fun u hu => ?_) ?_ (fun u hu => ?_) ?_ (fun hst u hu hto => ?_)
    hregion ?_ (fun ho p => ?_) ?_
  · refine h.lists.move t .wait hpcb (fun p u hu => ?_) (fun p => ?_) (fun u _ => by rw [hq]) ?_
      (fun u hu => by rw [hl, and_iff_right hu]) ?_ (fun p => ?_) (hq ▸ h.lists.queueNodup)
    · rw [hw]
      rcases eq_or_ne p (k.tcb t).pcb with rfl | hne
      · rw [Function.update_self, mem_enqueue, or_iff_right hu]
      · rw [Function.update_of_ne hne]
    · rw [hw]
      rcases eq_or_ne p (k.tcb t).pcb with rfl | hne
      · rw [Function.update_self, mem_enqueue]
        exact iff_of_true (Or.inl rfl) ⟨rfl, rfl⟩
      · rw [Function.update_of_ne hne]
        exact iff_of_false (htw p) fun hc => hne hc.2.symm
    · rw [hq, h.lists.queue]
      exact iff_of_false htq nofun
    · exact iff_of_false (fun hc => ((hl t).mp hc).1 rfl) nofun
    · rw [hw]
      rcases eq_or_ne p (k.tcb t).pcb with rfl | hne
      · rw [Function.update_self]
        exact nodup_enqueue (h.lists.waitNodup _) (htw _)
      · rw [Function.update_of_ne hne]
        exact h.lists.waitNodup p
  · obtain ⟨h₁, h₂⟩ := hrest u hu
    exact ⟨Function.update_of_ne hu .., htu u hu, by rw [hio], h₁, h₂⟩
  · rw [htt, hio, hn, Function.update_self]
    exact hf
  · rcases eq_or_ne u t with rfl | hne
    · rw [Function.update_self] at hu
      cases hu
    · rw [Function.update_of_ne hne] at hu
      exact h.dead u hu
  · rw [htt, hioc, hio]
    exact h.ioc t
  · rcases eq_or_ne u t with rfl | hne
    · exact absurd (Function.update_self ..) hto.2.2
    · refine howns hst u hne ?_ (hu hne)
      rwa [Takes, Function.update_of_ne hne, (hrest u hne).1] at hto
  · intro _ r hr
    rw [hio, hn] at hr
    exact absurd hr List.not_mem_nil
  · rw [hw]
    rcases eq_or_ne p (k.tcb t).pcb with rfl | hne
    · rw [Function.update_self]
      exact (hfall ho _).enqueue
    · rw [Function.update_of_ne hne]
      exact hfall ho p
  · intro ho p g hg
    rw [hgiven] at hg
    exact h.given ho p g hg

/-! ## Checkpoint control blocks -/

section Files

variable [DecidableEq F]

/-- Everything but the checkpoint space is as it was. -/
structure Held (k k' : Kernel T P F) : Prop extends k.Stored k' where
  tcb : k'.tcb = k.tcb
  wait : k'.wait = k.wait
  ldq : k'.ldq = k.ldq
  loading : k'.loading = k.loading
  tlist : k'.tlist = k.tlist

omit [DecidableEq T] in
theorem held_freecs (k : Kernel T P F) (i : Option ℕ) : k.Held (k.freecs i) := by
  unfold freecs
  dsimp only
  repeat' split
  all_goals exact ⟨⟨rfl, rfl, rfl, rfl, rfl⟩, rfl, rfl, rfl, rfl, rfl⟩

/-- A task that has a checkpoint control block gives it up. -/
theorem Spaced.frecpcb {i : ℕ} (h : k.Spaced) (ht : (k.tcb t).cpcb = some i) :
    (k.frecpcb t).Spaced := by
  obtain ⟨-, -, f, hf, hmem⟩ := h.held t i ht
  have hcp : (fun u => (Function.update k.tcb t { k.tcb t with cpcb := none } u).cpcb) =
      Function.update (fun u => (k.tcb u).cpcb) t none := by
    funext u
    rcases eq_or_ne u t with rfl | hu
    · rw [Function.update_self, Function.update_self]
    · rw [Function.update_of_ne hu, Function.update_of_ne hu]
  cases hu : (k.file f).unlpcb i with
  | none => exact absurd hmem (Main.unlpcb_eq_none hu)
  | some l =>
    have hfree := h.free ht hf (Main.unlpcb_eq_some hu)
    rw [← hcp] at hfree
    simp only [Kernel.frecpcb, freecs, ht, Kernel.setTcb, hf, hu]
    exact hfree

/-- `ALLCS` for a task that has none. -/
theorem Spaced.allcs {c : Config T F} {n i : ℕ} {pool : Bool} (h : k.Spaced)
    (ht : (k.tcb t).cpcb = none) (ha : k.allcs c n pool = .ok (k', i)) (hb : b.cpcb = some i) :
    k.Held k' ∧ (k'.setTcb t b).Spaced := by
  rw [Kernel.allcs] at ha
  split at ha
  · cases ha
  next f l₁ rel l₂ hs =>
  split at ha
  · cases ha
  have hgap : ckpgap (k.file f) n = some (l₁, rel, l₂) := by
    have key : ∀ l, k.acs1 n l = some (f, l₁, rel, l₂) →
        ckpgap (k.file f) n = some (l₁, rel, l₂) := by
      intro l
      induction l with
      | nil => exact fun hs => (nomatch hs)
      | cons g l ih =>
        intro hs
        rw [acs1] at hs
        split at hs
        · exact ih hs
        · split at hs
          · exact ih hs
          · next hg =>
            cases hs
            exact hg
    exact key _ hs
  obtain ⟨rfl, rfl⟩ := Prod.mk.inj (Except.ok.inj ha)
  refine ⟨⟨⟨rfl, rfl, rfl, rfl, rfl⟩, rfl, rfl, rfl, rfl, rfl⟩, ?_⟩
  have hcp : (fun u => (Function.update k.tcb t b u).cpcb) =
      Function.update (fun u => (k.tcb u).cpcb) t (some k.count) := by
    funext u
    rcases eq_or_ne u t with rfl | hu
    · rw [Function.update_self, Function.update_self, hb]
    · rw [Function.update_of_ne hu, Function.update_of_ne hu]
  have hnew := h.alloc ht hgap
  rw [← hcp] at hnew
  exact hnew

/-- What `$ASNTP` looks at is unchanged. -/
structure Inert (k k' : Kernel T P F) : Prop extends k.Stored k' where
  wait : k'.wait = k.wait
  tlist : k'.tlist = k.tlist
  loading : k'.loading = k.loading
  tcb : ∀ u, (k'.tcb u).pcb = (k.tcb u).pcb ∧ (k'.tcb u).pri = (k.tcb u).pri ∧
    (k'.tcb u).ldr = (k.tcb u).ldr ∧ (k'.tcb u).abo = (k.tcb u).abo

omit [DecidableEq T] [DecidableEq F] in
theorem Inert.refl (k : Kernel T P F) : k.Inert k :=
  ⟨⟨rfl, rfl, rfl, rfl, rfl⟩, rfl, rfl, rfl, fun _ => ⟨rfl, rfl, rfl, rfl⟩⟩

omit [DecidableEq T] [DecidableEq F] in
theorem Inert.trans {k₁ k₂ k₃ : Kernel T P F} (h : k₁.Inert k₂) (h' : k₂.Inert k₃) :
    k₁.Inert k₃ where
  main := h'.main.trans h.main
  bsy := h'.bsy.trans h.bsy
  own := h'.own.trans h.own
  io := h'.io.trans h.io
  given := h'.given.trans h.given
  wait := h'.wait.trans h.wait
  tlist := h'.tlist.trans h.tlist
  loading := h'.loading.trans h.loading
  tcb u := by
    obtain ⟨h₁, h₂, h₃, h₄⟩ := h.tcb u
    obtain ⟨h₁', h₂', h₃', h₄'⟩ := h'.tcb u
    exact ⟨h₁'.trans h₁, h₂'.trans h₂, h₃'.trans h₃, h₄'.trans h₄⟩

omit [DecidableEq F] in
theorem inert_setTcb (k : Kernel T P F) (hb : b.pcb = (k.tcb t).pcb)
    (hpri : b.pri = (k.tcb t).pri) (hldr : b.ldr = (k.tcb t).ldr)
    (habo : b.abo = (k.tcb t).abo) : k.Inert (k.setTcb t b) := by
  refine ⟨⟨rfl, rfl, rfl, rfl, rfl⟩, rfl, rfl, rfl, fun u => ?_⟩
  rcases eq_or_ne u t with rfl | hu
  · rw [setTcb_self]
    exact ⟨hb, hpri, hldr, habo⟩
  · rw [setTcb_of_ne k b hu]
    exact ⟨rfl, rfl, rfl, rfl⟩

omit [DecidableEq F] in
/-- A task in memory that gets a checkpoint control block is queued to the loader. -/
theorem Inv.toLoader (h : k.Inv q sp x) (ht : sp t = .core) (hk : k.Held k')
    (hspace : (k'.setTcb t b).Spaced) (hb : b.pcb = (k.tcb t).pcb)
    (hioc : b.ioc = (k.tcb t).ioc) (hn : k.io t = [])
    (hf : b.Fine q 0 (k.sys t) (k.linked t) .queue) :
    ((k'.setTcb t b).qldr t).Inv q (Function.update sp t .queue) x := by
  have hpcb : ∀ u, (((k'.setTcb t b).qldr t).tcb u).pcb = (k.tcb u).pcb := by
    intro u
    change ((k'.setTcb t b).tcb u).pcb = _
    rw [setTcb_pcb (by rw [hk.tcb, hb]), hk.tcb]
  have htu : ∀ u, u ≠ t → ((k'.setTcb t b).qldr t).tcb u = k.tcb u := by
    intro u hu
    change (k'.setTcb t b).tcb u = _
    rw [setTcb_of_ne _ _ hu, hk.tcb]
  have htt : ((k'.setTcb t b).qldr t).tcb t = b := setTcb_self ..
  have hmain : ((k'.setTcb t b).qldr t).main = k.main := hk.main
  have hio : ((k'.setTcb t b).qldr t).io = k.io := hk.io
  have hc : ∀ p, (k.main p).Changed (((k'.setTcb t b).qldr t).main p) t := by
    intro p
    rw [hmain]
    exact Main.changed_refl ..
  have hwait : ((k'.setTcb t b).qldr t).wait = k.wait := hk.wait
  have hldq : ((k'.setTcb t b).qldr t).ldq =
      enqueue (fun u => ((k'.setTcb t b).tcb u).pri) t k.ldq := by
    rw [← hk.ldq]
    rfl
  have hloading : ((k'.setTcb t b).qldr t).loading = k.loading := hk.loading
  have htq : t ∉ k.ldq := fun hc => by cases ht.symm.trans ((h.lists.queue t).mp hc)
  refine h.change t ?_ ⟨?_, ?_, fun p u hu => ?_⟩ hspace (fun u hu => ?_) ?_ (fun u hu => ?_) ?_
    (fun hst u hu hto => ?_) (fun _ u hu _ => (rest_of_changed hpcb hc hu).2.2) ?_
    (fun ho p => ?_) ?_
  · refine h.lists.move t .queue hpcb (fun p u _ => by rw [hwait]) (fun p => ?_) (fun u hu => ?_)
      ?_ (fun u _ => by rw [hloading]) ?_ (by rw [hwait]; exact h.lists.waitNodup) ?_
    · rw [hwait, h.lists.wait, ht]
      exact iff_of_false (fun hc => by cases hc.1) fun hc => by cases hc.1
    · rw [hldq, mem_enqueue, or_iff_right hu]
    · rw [hldq, mem_enqueue]
      exact iff_of_true (Or.inl rfl) rfl
    · rw [hloading, h.lists.load, ht]
      exact iff_of_false (by rintro ⟨⟩) (by rintro ⟨⟩)
    · rw [hldq]
      exact nodup_enqueue h.lists.queueNodup htq
  · rw [hmain]
    exact h.mem.laid
  · rw [hmain]
    exact h.mem.small
  · rw [hmain] at hu ⊢
    rw [hpcb]
    exact h.mem.home p u hu
  · obtain ⟨h₁, h₂, -⟩ := rest_of_changed hpcb hc hu
    exact ⟨Function.update_of_ne hu .., htu u hu, by rw [hio], h₁, h₂⟩
  · have h₁ : ((k'.setTcb t b).qldr t).sys t = k.sys t := by rw [sys, sys, hpcb, hmain]
    have h₂ : ((k'.setTcb t b).qldr t).linked t = k.linked t := by
      rw [linked, linked, hpcb, hmain]
    rw [htt, h₁, h₂, hio, hn, Function.update_self]
    exact hf
  · rcases eq_or_ne u t with rfl | hne
    · rw [Function.update_self] at hu
      cases hu
    · rw [Function.update_of_ne hne] at hu
      exact h.dead u hu
  · rw [htt, hioc, hio]
    exact h.ioc t
  · have ho : ((k'.setTcb t b).qldr t).owns u = k.owns u := by
      rw [Kernel.owns, Kernel.owns, hpcb]
      change (k'.bsy _ = true ∧ k'.own _ = some u) = _
      rw [hk.bsy, hk.own]
    rw [ho]
    rcases eq_or_ne u t with rfl | hne
    · refine h.owns hst u ⟨?_, ?_, ?_⟩
      · rw [← hto.1, sys, sys, hpcb, hmain]
      · rw [ht]
        rintro ⟨⟩
      · rw [ht]
        rintro ⟨⟩
    · exact hu hne
  · intro _ r hr
    rw [hio, hn] at hr
    exact absurd hr List.not_mem_nil
  · rw [hwait]
    refine (h.order ho p).congr fun u hu => ?_
    rw [htu u]
    rintro rfl
    cases ht.symm.trans ((h.lists.wait p u).mp hu).1
  · intro ho p g hg
    refine h.given ho p g ?_
    rw [← hk.given]
    exact hg

/-- `$CHKPT` for a task in memory. -/
theorem Inv.chkpt [DecidableEq P] {c : Config T F} (h : k.Inv q sp x) (ht : sp t = .core)
    (y pool : Bool) : ∃ sp', (k.chkpt c t y pool).1.Inv q sp' x ∧
      (∀ u, u ≠ t → sp' u = sp u ∧ (k.chkpt c t y pool).1.tcb u = k.tcb u) ∧
      k.Inert (k.chkpt c t y pool).1 := by
  obtain ⟨hlive, hout, hckp, hcp, habo, hact, hm, hldr⟩ : Tcb.Fine q _ _ _ _ .core := ht ▸ h.fine t
  rw [Kernel.chkpt]
  split
  · exact ⟨sp, h, fun _ _ => ⟨rfl, rfl⟩, Inert.refl k⟩
  next hguard =>
  have hfix : (k.tcb t).fix = false := by
    cases hf : (k.tcb t).fix with
    | false => rfl
    | true => simp [hf] at hguard
  have hb : (k.tcb t).act = true := by rwa [hfix, Bool.or_false] at hlive
  have hnabo : (k.tcb t).abo = false := by
    cases hf : (k.tcb t).abo with
    | false => rfl
    | true => simp [hf] at hguard
  split
  · refine ⟨sp, h.setTcb rfl rfl rfl (fun _ _ => rfl) ?_,
      fun u hu => ⟨rfl, setTcb_of_ne k _ hu⟩, inert_setTcb k rfl rfl rfl rfl⟩
    rw [ht]
    exact ⟨hlive, hout, hckp, hcp, habo, hact, hm, hldr⟩
  next hioc =>
  have hn : k.io t = [] := by
    rw [(h.ioc t).1] at hioc
    exact List.eq_nil_of_length_eq_zero (not_not.mp hioc)
  split
  · exact ⟨sp, h, fun _ _ => ⟨rfl, rfl⟩, Inert.refl k⟩
  next k' i ha =>
  obtain ⟨hk, hspace⟩ := h.space.allcs (t := t)
    (b := { k.tcb t with cpcb := some i, ckp := true, ckr := false }) hcp ha rfl
  refine ⟨_, h.toLoader ht hk hspace rfl rfl hn
    ⟨hb, hfix, hnabo, rfl, rfl, by simp, hm, hldr⟩, fun u hu => ⟨Function.update_of_ne hu .., ?_⟩, ?_⟩
  · change (k'.setTcb t _).tcb u = _
    rw [setTcb_of_ne _ _ hu, hk.tcb]
  have hset : k'.Inert (k'.setTcb t { k.tcb t with cpcb := some i, ckp := true, ckr := false }) :=
    inert_setTcb k' (by rw [hk.tcb]) (by rw [hk.tcb]) (by rw [hk.tcb]) (by rw [hk.tcb])
  have hheld : k.Inert k' := ⟨hk.toStored, hk.wait, hk.tlist, hk.loading, fun u => by
    rw [hk.tcb]
    exact ⟨rfl, rfl, rfl, rfl⟩⟩
  have hall := hheld.trans hset
  exact ⟨⟨hall.main, hall.bsy, hall.own, hall.io, hall.given⟩, hall.wait, hall.tlist,
    hall.loading, hall.tcb⟩

end Files

end Kernel

end RSX280.Chkpt
