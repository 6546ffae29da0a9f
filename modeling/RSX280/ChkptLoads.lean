import RSX280.ChkptEnds

/-!
# The loader, and changes of size and priority

The loader takes a task off its queue and loads it, reads it from the checkpoint file or
writes it there (`Inv.next`, `Inv.ldend`, `Inv.lderr`). `EXTTSK` keeps a task where it is,
moves it or has it checkpointed (`Inv.exttsk`).
-/

namespace RSX280.Chkpt

open Queue Spans Subpars
open Sched (Ret)
open Pars (ea2pg)

universe u v w

/-- Whether a task is in order depends on these fields only. -/
theorem Tcb.Fine.keep {P : Type v} {q : Meets} {b b' : Tcb P} {n : ℕ} {sys : Bool} {m : Prop}
    {s : Spot} (h : b.Fine q n sys m s) (hact : b'.act = b.act) (hfix : b'.fix = b.fix)
    (habo : b'.abo = b.abo) (hckp : b'.ckp = b.ckp) (hcp : b'.cpcb = b.cpcb)
    (hout : b'.out = b.out) (hldr : b'.ldr = b.ldr) : b'.Fine q n sys m s := by
  cases s <;> simp only [Tcb.Fine, hact, hfix, habo, hckp, hcp, hout, hldr] at h ⊢ <;> exact h

namespace Kernel

variable {T : Type u} {P : Type v} {F : Type w} [DecidableEq T] [DecidableEq P] [DecidableEq F]
  {c : Config T F} {q : Meets} {k k' k₁ k₂ : Kernel T P F} {sp sp' sp₁ sp₂ : T → Spot}
  {x y : Option T} {t u : T} {p : P} {b b' : Tcb P} {m : Main T} {s : Spot} {v : KillEnv T}

/-! ## The loader -/

omit [DecidableEq P] [DecidableEq F] in
/-- The loader takes a task off its queue. -/
theorem Inv.next (h : k.Inv q sp none) : ∃ sp', k.next.Inv q sp' none := by
  rw [Kernel.next]
  split
  next t l hl hq =>
    have ht : sp t = .queue := (h.lists.queue t).mp (hq ▸ List.mem_cons_self)
    obtain ⟨htl, hnd⟩ := List.nodup_cons.mp (hq ▸ h.lists.queueNodup)
    obtain ⟨hact, hfix, -, hckp, hn, hout, hm, hldr⟩ : Tcb.Fine q _ _ _ _ .queue := ht ▸ h.fine t
    refine ⟨Function.update sp t .load, h.change t ?_ ⟨h.mem.laid, h.mem.small, h.mem.home⟩
      h.space (fun u hu => ⟨Function.update_of_ne hu .., rfl, rfl, rfl, Iff.rfl⟩) ?_ (fun u hu => ?_)
      (h.ioc t) (fun hst u hu hto => ?_) (fun _ _ _ _ => rfl) (fun hst => h.steady hst t) h.order
      h.given⟩
    · refine h.lists.move t .load (fun _ => rfl) (fun _ _ _ => Iff.rfl) (fun p => ?_)
        (fun u hu => ?_) ?_ (fun u hu => ?_) (iff_of_true rfl rfl) h.lists.waitNodup hnd
      · refine iff_of_false (fun hc => ?_) fun hc => nomatch hc.1
        exact nomatch ht.symm.trans ((h.lists.wait p t).mp hc).1
      · rw [hq, List.mem_cons, or_iff_right hu]
      · exact iff_of_false htl nofun
      · rw [hl]
        exact iff_of_false (fun hc => hu (Option.some.inj hc).symm) nofun
    · rw [Function.update_self]
      exact ⟨hact, hfix, hckp, hn, hout, hm, hldr⟩
    · rcases eq_or_ne u t with rfl | hne
      · rw [Function.update_self] at hu
        cases hu
      · rw [Function.update_of_ne hne] at hu
        exact h.dead u hu
    · rcases eq_or_ne u t with rfl | hne
      · exact h.owns hst u ⟨hto.1, by rw [ht]; exact nofun, by rw [ht]; exact nofun⟩
      · exact hu hne
  · exact ⟨sp, h⟩

omit [DecidableEq P] [DecidableEq F] in
/-- The loader is done with a task. -/
theorem Inv.unload (h : k.Inv q sp x) (hl : k.loading = some t) :
    k.Leaves { k with loading := none } t (k.tcb t) := by
  have ht := (h.lists.load t).mp hl
  refine ⟨⟨rfl, rfl, rfl, rfl, rfl⟩, fun p => ?_, ?_, fun u => ?_,
    (Function.update_eq_self ..).symm, h.space, rfl, rfl⟩
  · refine (List.erase_of_not_mem fun hc => ?_).symm
    exact nomatch ht.symm.trans ((h.lists.wait p t).mp hc).1
  · exact (List.erase_of_not_mem fun hc => nomatch ht.symm.trans ((h.lists.queue t).mp hc)).symm
  · rw [hl]
    refine iff_of_false nofun fun hc => hc.1 ?_
    exact (Option.some.inj hc.2).symm

omit [DecidableEq P] [DecidableEq F] in
/-- A task that has been loaded is in memory. -/
theorem Inv.toCore (h : k.Inv q sp x) (ht : sp t = .load) (hk : k.Leaves k' t b)
    (hact : b.act = true) (hout : b.out = false) (hckp : b.ckp = false) (hcp : b.cpcb = none)
    (habo : b.abo = false) (hldr : b.ldr = false) : ∃ sp', k'.Inv q sp' x := by
  obtain ⟨-, -, -, hn, -, hm, -⟩ : Tcb.Fine q _ _ _ _ .load := ht ▸ h.fine t
  refine ⟨_, h.leave hk (s := .core) ⟨nofun, nofun, nofun⟩ nofun (by rw [ht]; exact nofun)
    (fun _ hw => nomatch ht.symm.trans hw) ?_⟩
  exact ⟨by rw [hact, Bool.true_or], hout, hckp, hcp, fun _ ha => (nomatch habo.symm.trans ha),
    fun _ => hn, hm, hldr⟩

omit [DecidableEq T] [DecidableEq P] [DecidableEq F] in
/-- Only a task in memory has requests. -/
theorem Inv.core_of_io (h : k.Inv q sp x) (hio : k.io t ≠ []) : sp t = .core := by
  have hne : (k.io t).length ≠ 0 := fun hc => hio (List.eq_nil_of_length_eq_zero hc)
  have hf := h.fine t
  cases hsp : sp t <;> rw [hsp] at hf
  · exact absurd hf.2.2.2.1 hne
  · exact absurd hf.2.2.2.2.1 hne
  · exact absurd hf.2.2.2.2.1 hne
  · exact absurd hf.2.2.2.1 hne
  · exact absurd hf.2.2.2.2.1 hne
  · exact absurd hf.2.2.1 hne
  · exact absurd hf.2.2.2.1 hne

omit [DecidableEq F] in
/-- The task has no memory any more, and will ask for `n` pages. -/
theorem Mem.swap {n : ℕ} (h : k.Mem) (hn : n < 256) (hk : k' = (k.mfree t).resize t n) :
    k'.Mem ∧ ¬k'.linked t ∧ k.Apart k' ∧ k.Same k' ∧ ∀ u, u ≠ t → (k'.linked u ↔ k.linked u) ∧
      (k.sys t = true ∨ (k.tcb u).pcb ≠ (k.tcb t).pcb →
        k'.region u = k.region u ∧ k'.bsy (k.tcb u).pcb = k.bsy (k.tcb u).pcb) := by
  obtain ⟨hmem, hnl, hc⟩ := h.mfree t
  have hapart := apart_mfree k t
  have hpcb : ∀ u, ((k.mfree t).tcb u).pcb = (k.tcb u).pcb := fun u => by rw [hapart.tcb]
  have hsame : k.Same (k.mfree t) := ⟨hpcb, fun p => (hc p).sys⟩
  obtain ⟨hmem', hnl', hrest⟩ := hmem.resize hnl hn
  subst hk
  refine ⟨hmem', hnl', hapart.trans (apart_resize ..), hsame.trans (same_resize ..), fun u hu => ?_⟩
  obtain ⟨-, hlinked, hregion⟩ := rest_of_changed hpcb hc hu
  obtain ⟨hlinked', hregion'⟩ := hrest u hu
  refine ⟨hlinked'.trans hlinked, fun hp => ⟨(hregion' ?_).trans hregion, bsy_mfree hp⟩⟩
  rwa [hsame.sys, hpcb, hpcb]

/-- A task that has been written to the checkpoint file gives up its memory and waits
again. -/
theorem Inv.swap {v : Look T} {n : ℕ} (h : k.Inv q sp x) (hk : k.Leaves k₁ t b) (ht : sp t = .load)
    (hckp : b.ckp = b.cpcb.isSome) (hact : b.act = true) (hfix : b.fix = false)
    (habo : b.abo = false) (hout : b.out = true) (hldr : b.ldr = false) (hn : n < 256) :
    ∃ sp', (((k₁.mfree t).resize t n).trq6 c t v).Inv q sp' x := by
  obtain ⟨-, -, -, hio, -⟩ : Tcb.Fine q _ _ _ _ .load := ht ▸ h.fine t
  have hpcb₁ : ∀ u, (k₁.tcb u).pcb = (k.tcb u).pcb := by
    intro u
    rw [hk.tcb]
    rcases eq_or_ne u t with rfl | hu
    · rw [Function.update_self, hk.pcb]
    · rw [Function.update_of_ne hu]
  have hmem₁ : k₁.Mem := by
    refine ⟨by rw [hk.main]; exact h.mem.laid, by rw [hk.main]; exact h.mem.small, fun p u hu => ?_⟩
    rw [hk.main] at hu ⊢
    rw [hpcb₁]
    exact h.mem.home p u hu
  have hsys₁ : ∀ u, k₁.sys u = k.sys u := fun u => by rw [sys, sys, hpcb₁, hk.main]
  have hlinked₁ : ∀ u, k₁.linked u = k.linked u := fun u => by rw [linked, linked, hpcb₁, hk.main]
  have hregion₁ : ∀ u, k₁.region u = k.region u := fun u => by simp only [region, hpcb₁, hk.main]
  obtain ⟨k₂, hk₂⟩ : ∃ k₂, k₂ = (k₁.mfree t).resize t n := ⟨_, rfl⟩
  obtain ⟨hmem₂, hnl₂, hapart, hsame, hrest⟩ := hmem₁.swap hn hk₂
  rw [← hk₂]
  have hpcb₂ : ∀ u, (k₂.tcb u).pcb = (k.tcb u).pcb := fun u => (hsame.pcb u).trans (hpcb₁ u)
  have hwait : ∀ p, k.wait p = k₂.wait p := by
    intro p
    rw [hapart.wait, hk.wait, List.erase_of_not_mem]
    exact fun hc => by cases ht.symm.trans ((h.lists.wait p t).mp hc).1
  have hldq : k₂.ldq = k.ldq := by
    rw [hapart.ldq, hk.ldq, List.erase_of_not_mem]
    exact fun hc => by cases ht.symm.trans ((h.lists.queue t).mp hc)
  have halone : q.steady → ∀ u, u ≠ t → k.owns u →
      k₁.sys t = true ∨ (k₁.tcb u).pcb ≠ (k₁.tcb t).pcb := by
    intro hst u hu ho
    rw [hsys₁, hpcb₁, hpcb₁]
    exact h.alone hst (by rw [ht]; rintro ⟨⟩) (by rw [ht]; rintro ⟨⟩) hu ho
  have h₃ : (k₂.qpar t).Inv q (Function.update sp t .wait) x := by
    refine h.toWait (b := b) (by rw [ht]; rintro ⟨⟩) (by rw [ht]; rintro ⟨⟩) ?_ hldq (fun u => ?_)
      (hapart.tcb.trans hk.tcb) (hapart.spaced.mpr hk.spaced) (hapart.io.trans hk.io)
      ⟨hmem₂.laid, hmem₂.small, hmem₂.home⟩ hk.pcb hk.ioc (fun u hu => ?_)
      (fun hst u hu hne => ?_) (List.eq_nil_of_length_eq_zero hio) ?_ (fun hst u hu _ ho => ?_)
      (hapart.given.trans hk.given)
    · dsimp only [qpar]
      rw [hpcb₂, hwait, funext hwait]
    · change k₂.loading = some u ↔ _
      rw [hapart.loading]
      exact hk.loading u
    · refine ⟨(hsame.sys u).trans (hsys₁ u), (hrest u hu).1.trans ?_⟩
      rw [hlinked₁]
    · refine ((hrest u hu).2 ?_).1.trans (hregion₁ u)
      have hcore := h.core_of_io hne
      by_cases hs : k.sys u = true
      · by_cases hp : (k₁.tcb u).pcb = (k₁.tcb t).pcb
        · left
          rwa [sys, ← hp, ← sys, hsys₁]
        · exact Or.inr hp
      · exact halone hst u hu (h.owns hst u ⟨by simpa using hs, by rw [hcore]; rintro ⟨⟩,
          by rw [hcore]; rintro ⟨⟩⟩)
    · exact ⟨hact, hfix, habo, hckp, rfl, hout, hnl₂, hldr⟩
    · have hb := ((hrest u hu).2 (halone hst u hu ho)).2
      rw [hpcb₁] at hb
      change k₂.bsy (k₂.tcb u).pcb = true ∧ k₂.own (k₂.tcb u).pcb = some u
      rw [hpcb₂, hb, hapart.own, hk.bsy, hk.own]
      exact ho
  obtain ⟨sp₄, h₄, -⟩ := h₃.asntp (c := c) (v := v) (k₂.tcb t).pcb
  exact ⟨sp₄, h₄⟩

/-- `$LDGO`. -/
theorem Inv.ldgo (h : k.Inv q sp none) (hk : k.Leaves k' t (k.tcb t)) (ht : sp t = .load)
    (hc : (k.tcb t).ckp = false)
    (hself : (k.tcb t).abo = true → c.tktn = some t → (k.tcb t).svst = 0)
    (hreq : q.steady → k.Reports c v) :
    ∃ sp', (k'.ldgo c t v).Inv q sp' none := by
  have htt : k'.tcb t = k.tcb t := by rw [hk.tcb, Function.update_self]
  obtain ⟨hact, hfix, hckp, hn, -, -, -⟩ : Tcb.Fine q _ _ _ _ .load := ht ▸ h.fine t
  have hcp : (k.tcb t).cpcb = none := by
    rw [hc] at hckp
    exact Option.not_isSome_iff_eq_none.mp (by rw [← hckp]; exact nofun)
  rw [Kernel.ldgo, htt]
  split
  · next ha =>
    exact h.leaveEnd hk (by rw [ht]; exact nofun) (fun _ hw => nomatch ht.symm.trans hw)
      (List.eq_nil_of_length_eq_zero hn) hact ha hfix hcp (hself ha) hreq
  · rw [ldgo2, htt]
    exact h.toCore ht (hk.setTcb rfl rfl rfl) hact rfl rfl hcp rfl rfl

/-- `$LDCKR`. -/
theorem Inv.ldckr (h : k.Inv q sp none) (hk : k.Leaves k' t (k.tcb t)) (ht : sp t = .load)
    (hc : (k.tcb t).ckp = true)
    (hself : (k.tcb t).abo = true → c.tktn = some t → (k.tcb t).svst = 0)
    (hreq : q.steady → k.Reports c v) :
    ∃ sp', (k'.ldckr c t v).Inv q sp' none := by
  obtain ⟨hact, hfix, hckp, hn, -, -, hldr⟩ : Tcb.Fine q _ _ _ _ .load := ht ▸ h.fine t
  have hfree := hk.frecpcb (hckp.symm.trans hc)
  have htt : (k'.frecpcb t).tcb t = { k.tcb t with cpcb := none } := by
    rw [hfree.tcb, Function.update_self]
  unfold Kernel.ldckr
  simp only [htt, setTcb_self]
  split
  · next ha =>
    exact h.leaveEnd (hfree.setTcb rfl rfl rfl) (by rw [ht]; exact nofun)
      (fun _ hw => nomatch ht.symm.trans hw) (List.eq_nil_of_length_eq_zero hn) hact ha hfix rfl
      (hself ha) hreq
  · next ha =>
    exact h.toCore ht (hfree.setTcb rfl rfl rfl) hact rfl rfl rfl (by simpa using ha) hldr

/-- `$LDCKW`. -/
theorem Inv.ldckw (h : k.Inv q sp none) (hk : k.Leaves k' t (k.tcb t)) (ht : sp t = .load)
    (hc : (k.tcb t).ckp = true)
    (hself : (k.tcb t).abo = true → c.tktn = some t → (k.tcb t).svst = 0)
    (hreq : q.steady → k.Reports c v) :
    ∃ sp', (k'.ldckw c t v).Inv q sp' none := by
  have htt : k'.tcb t = k.tcb t := by rw [hk.tcb, Function.update_self]
  obtain ⟨hact, hfix, hckp, hn, -, -, hldr⟩ : Tcb.Fine q _ _ _ _ .load := ht ▸ h.fine t
  have hfree := hk.frecpcb (hckp.symm.trans hc)
  unfold Kernel.ldckw
  dsimp only
  rw [htt]
  split
  · next ha =>
    exact h.leaveEnd hfree (by rw [ht]; exact nofun) (fun _ hw => nomatch ht.symm.trans hw)
      (List.eq_nil_of_length_eq_zero hn) hact ha hfix rfl (hself ha) hreq
  · next ha =>
    exact h.swap (hk.setTcb rfl rfl rfl) ht hckp hact hfix (by simpa using ha) rfl hldr
      ((Nat.mod_lt _ (by omega)).trans (by omega))

/-- The end of `TLOAD`, without error. -/
theorem Inv.ldend (h : k.Inv q sp none)
    (hself : ∀ t, k.loading = some t → (k.tcb t).abo = true → c.tktn = some t →
      (k.tcb t).svst = 0)
    (hreq : q.steady → k.Reports c v) :
    ∃ sp', (k.ldend c v).Inv q sp' none := by
  unfold Kernel.ldend
  split
  · exact ⟨sp, h⟩
  next t hl =>
  have ht := (h.lists.load t).mp hl
  have hk := h.unload hl
  dsimp only
  split
  · next hc => exact h.ldgo hk ht (by simpa using hc) (hself t hl) hreq
  next hc =>
  split
  · exact h.ldckr hk ht (by simpa using hc) (hself t hl) hreq
  · exact h.ldckw hk ht (by simpa using hc) (hself t hl) hreq

/-- `lderr` of `TLOAD`. A task that `TKILL` does not abort, because it is being aborted
already or because it belongs to the system, keeps its checkpoint space. -/
theorem Inv.lderr {e : ℕ} (h : k.Inv q sp none)
    (hrest : ∀ t, k.loading = some t → v.rest.Sublist (k.io t))
    (htidy : q.tidy → ∀ t, k.loading = some t →
      (k.tcb t).abo = true ∨ c.mcrtcb = some t ∨ c.ldrtcb = t → (k.tcb t).ckp = false)
    (hself : ∀ t, k.loading = some t → c.tktn = some t → v.oio ||| e = 0)
    (hreq : q.steady → k.Reports c v) :
    ∃ sp', (k.lderr c e v).Inv q sp' none := by
  unfold Kernel.lderr
  split
  · exact ⟨sp, h⟩
  next t hl =>
  have ht := (h.lists.load t).mp hl
  obtain ⟨hact, hfix, hckp, hn, hout, -, -⟩ : Tcb.Fine q _ _ _ _ .load := ht ▸ h.fine t
  have hnil := List.eq_nil_of_length_eq_zero hn
  have hcp : (k.tcb t).ckp = false → (k.tcb t).cpcb = none := by
    intro hc
    rw [hc] at hckp
    exact Option.not_isSome_iff_eq_none.mp (by rw [← hckp]; exact nofun)
  have hoff : sp t ≠ .off := by rw [ht]; exact nofun
  have hw : q.steady → sp t = .wait → k.sys t = true := fun _ hw => nomatch ht.symm.trans hw
  have hk : k.Leaves ({ k with loading := none }.setTcb t { k.tcb t with ldr := true }) t
      { k.tcb t with ldr := true } := (h.unload hl).setTcb rfl rfl rfl
  obtain ⟨k₁, hk₁⟩ : ∃ k₁, k₁ = { k with loading := none }.setTcb t { k.tcb t with ldr := true } :=
    ⟨_, rfl⟩
  rw [← hk₁] at hk ⊢
  have htt : k₁.tcb t = { k.tcb t with ldr := true } := by rw [hk.tcb, Function.update_self]
  have hio : k₁.io t = [] := by rw [hk.io, hnil]
  unfold Kernel.tkill
  simp only [htt, hio]
  split
  · next hs =>
    -- the task belongs to the system
    cases ha : (k.tcb t).abo with
    | true =>
      refine ⟨_, h.leave hk (s := .lost) ⟨nofun, nofun, nofun⟩ nofun hoff hw ⟨hact, ha, hn, ?_, ?_⟩⟩
      · exact fun hq => hcp (htidy hq t hl (Or.inl ha))
      · exact fun hf => nomatch hfix.symm.trans hf
    | false =>
      refine ⟨_, h.leave hk (s := .stuck) ⟨nofun, nofun, nofun⟩ nofun hoff hw
        ⟨hact, hfix, ha, hckp, hn, hout, rfl, ?_⟩⟩
      exact fun hq => hcp (htidy hq t hl (Or.inr (hs.imp_left id)))
  rw [if_neg (by rw [hact]; exact nofun)]
  split
  · next ha =>
    refine ⟨_, h.leave hk (s := .lost) ⟨nofun, nofun, nofun⟩ nofun hoff hw ⟨hact, ha, hn, ?_, ?_⟩⟩
    · exact fun hq => hcp (htidy hq t hl (Or.inl ha))
    · exact fun hf => nomatch hfix.symm.trans hf
  have hrest : v.rest = [] := by
    have hlen := (hrest t hl).length_le
    rw [hnil] at hlen
    exact List.eq_nil_of_length_eq_zero (Nat.le_zero.mp hlen)
  have hupd : Function.update k₁.io t [] = k₁.io := by
    rw [← hio]
    exact Function.update_eq_self ..
  rw [hrest, hupd]
  obtain ⟨b, hb⟩ : ∃ b : Tcb P, b = { k.tcb t with
    svst := v.oio ||| e, ldr := true, abo := true, ioc := ((k.tcb t).ioc +
      256 * (([] : List (ℕ × ℕ)).length - ([] : List (ℕ × ℕ)).length) -
        (([] : List (ℕ × ℕ)).length - ([] : List (ℕ × ℕ)).length)) % 256 } := ⟨_, rfl⟩
  have hbioc : b.ioc = (k.tcb t).ioc := by
    rw [hb]
    exact Nat.mod_eq_of_lt (h.ioc t).2
  have hset : k.Leaves (k₁.setTcb t b) t b :=
    hk.setTcb (by rw [hb]) (by rw [hb]) hbioc
  rw [← hb]
  change ∃ sp', ((k₁.setTcb t b).tk6 c t v).1.Inv q sp' none
  have hnw : t ∉ (k₁.setTcb t b).wait ((k₁.setTcb t b).tcb t).pcb := by
    rw [hset.wait]
    exact (h.lists.waitNodup _).not_mem_erase
  have hnq : t ∉ (k₁.setTcb t b).ldq := by
    rw [hset.ldq]
    exact h.lists.queueNodup.not_mem_erase
  have hldr : ((k₁.setTcb t b).tcb t).ldr = true := by rw [setTcb_self, hb]
  unfold Kernel.tk6
  dsimp only
  rw [if_neg hnw, if_neg hnq, if_pos hldr]
  exact h.tk1 hset hoff hw hnil (by rw [hb]; exact hact) (by rw [hb]) (by rw [hb]; exact hfix)
    (by rw [hb]; exact hckp) (by rw [hb]; exact hself t hl) hreq

/-! ## Size -/

omit [DecidableEq F] in
/-- A task in memory is given another size. -/
theorem Inv.extend {e : ℕ} (h : k.Inv q sp x) (ht : sp t = .core)
    (hm : (k.main (k.tcb t).pcb).mextnd t e = (m, .ok)) (he : e < 256) (hb : b.pcb = (k.tcb t).pcb)
    (hcp : b.cpcb = (k.tcb t).cpcb) (hioc : b.ioc = (k.tcb t).ioc)
    (hf : ∀ m, (k.tcb t).Fine q (k.io t).length (k.sys t) m .core →
      b.Fine q (k.io t).length (k.sys t) m .core)
    (hs : q.steady → k.io t ≠ [] → (k.main (k.tcb t).pcb).Stays t e) :
    ((k.setMain (k.tcb t).pcb m).setTcb t b).Inv q sp x := by
  have hsys : (k.main (k.tcb t).pcb).sys = true := by
    cases hc : (k.main (k.tcb t).pcb).sys with
    | true => rfl
    | false =>
      rw [Main.mextnd, hc] at hm
      cases hm
  have hlaid := h.mem.laid _ hsys
  obtain ⟨hc, hmem, hold, hsize⟩ := hlaid.mextnd_ok hm
  have hlaid' : m.Laid := by
    have := hlaid.mextnd t e
    rwa [hm] at this
  have hmem' := h.mem.setMain hc (fun _ => hlaid') (hsize.trans_lt he) fun _ =>
    ⟨hc.sys.trans hsys, rfl⟩
  have hpcb : ∀ u, (((k.setMain (k.tcb t).pcb m).setTcb t b).tcb u).pcb = (k.tcb u).pcb :=
    setTcb_pcb (k := k.setMain (k.tcb t).pcb m) hb
  obtain ⟨k₁, hk₁⟩ : ∃ k₁, k₁ = (k.setMain (k.tcb t).pcb m).setTcb t b := ⟨_, rfl⟩
  rw [← hk₁] at hpcb ⊢
  have hmain : k₁.main = (k.setMain (k.tcb t).pcb m).main := by rw [hk₁]; rfl
  have hc₁ : ∀ p, (k.main p).Changed (k₁.main p) t := by
    rw [hmain]
    exact changed_setMain hc
  have hself : k₁.main (k.tcb t).pcb = m := by
    rw [hmain]
    exact Function.update_self ..
  have htt : k₁.tcb t = b := by rw [hk₁, setTcb_self]
  have htu : ∀ u, u ≠ t → k₁.tcb u = k.tcb u := fun u hu => by rw [hk₁, setTcb_of_ne _ b hu]; rfl
  have hio : k₁.io = k.io := by rw [hk₁]; rfl
  have hrest : ∀ u, u ≠ t → k₁.sys u = k.sys u ∧ (k₁.linked u ↔ k.linked u) ∧
      k₁.region u = k.region u := fun u hu => rest_of_changed hpcb hc₁ hu
  have hspace : k₁.Spaced := by
    rw [hk₁]
    exact spaced_setTcb (k := k.setMain (k.tcb t).pcb m) h.space hcp
  have hwt : ∀ p, t ∉ k.wait p := fun p hc => by cases ht.symm.trans ((h.lists.wait p t).mp hc).1
  refine h.change t ?_ ⟨by rw [hmain]; exact hmem'.laid, by rw [hmain]; exact hmem'.small,
    fun p u hu => ?_⟩ hspace (fun u hu => ?_) ?_ h.dead ?_ (fun hst u hu hto => ?_)
    (fun _ u hu _ => (hrest u hu).2.2) (fun hst r hr => ?_) (fun ho p => ?_) ?_
  · have hl := h.lists
    rw [hk₁]
    refine ⟨fun p u => ?_, hl.queue, hl.load, hl.waitNodup, hl.queueNodup⟩
    rw [← hk₁, hpcb, hk₁]
    exact hl.wait p u
  · rw [hmain] at hu ⊢
    rw [hpcb]
    exact hmem'.home p u hu
  · obtain ⟨h₁, h₂, -⟩ := hrest u hu
    exact ⟨rfl, htu u hu, by rw [hio], h₁, h₂⟩
  · have h₁ : k₁.sys t = k.sys t := by rw [sys, sys, hpcb, (hc₁ _).sys]
    have h₂ : k₁.linked t = k.linked t := by
      rw [linked, linked, hpcb, hself]
      exact propext (iff_of_true hmem hold)
    rw [htt, hio, h₁, h₂, ht]
    exact hf _ (ht ▸ h.fine t)
  · rw [htt, hioc, hio]
    exact h.ioc t
  · have ho : k₁.owns u = k.owns u := by
      rw [Kernel.owns, Kernel.owns, hpcb, hk₁]
      rfl
    rw [ho]
    rcases eq_or_ne u t with rfl | hne
    · cases hto.1.symm.trans ((by rw [sys, hpcb, hself, hc.sys, hsys] : k₁.sys u = true))
    · exact hu hne
  · rw [hio] at hr
    obtain ⟨h₁, h₂⟩ := hlaid.mextnd_stays (hs hst (List.ne_nil_of_mem hr)) hm
    obtain ⟨h₃, h₄⟩ := h.steady hst t r hr
    rw [region] at h₃ h₄ ⊢
    rw [if_pos hsys] at h₃ h₄
    rw [hpcb, hself, if_pos (hc.sys.trans hsys)]
    exact ⟨h₃.trans h₁.symm, h₄.trans h₂⟩
  · have hwait : k₁.wait = k.wait := by rw [hk₁]; rfl
    rw [hwait]
    refine (h.order ho p).congr fun u hu => ?_
    rw [htu u]
    rintro rfl
    exact hwt p hu
  · rw [hk₁]
    exact h.given

omit [DecidableEq P] [DecidableEq F] in
/-- A change of a control block that does not matter. -/
theorem Inv.setKeep (h : k.Inv q sp x) (hb : b.pcb = (k.tcb t).pcb) (hioc : b.ioc = (k.tcb t).ioc)
    (hpri : b.pri = (k.tcb t).pri) (hact : b.act = (k.tcb t).act) (hfix : b.fix = (k.tcb t).fix)
    (habo : b.abo = (k.tcb t).abo) (hckp : b.ckp = (k.tcb t).ckp) (hcp : b.cpcb = (k.tcb t).cpcb)
    (hout : b.out = (k.tcb t).out) (hldr : b.ldr = (k.tcb t).ldr) : (k.setTcb t b).Inv q sp x :=
  h.setTcb hb hcp hioc (fun _ _ => hpri) ((h.fine t).keep hact hfix habo hckp hcp hout hldr)

/-- `EXTTSK`, for a task in memory. With I/O outstanding it neither moves nor shrinks. -/
theorem Inv.exttsk {n : ℕ} {z pool : Bool} (h : k.Inv q sp none) (ht : sp t = .core)
    (hs : q.steady → (k.tcb t).ioc ≠ 0 → ∀ top, newtop (k.tcb t) n = .ok top →
      (k.main (k.tcb t).pcb).Stays t (ea2pg top)) : ∃ sp', (k.exttsk c t n z pool).1.Inv q sp' none := by
  unfold Kernel.exttsk
  dsimp only
  split
  · exact ⟨sp, h⟩
  next top htop =>
  split
  · exact ⟨sp, h⟩
  split
  · exact ⟨sp, h.setKeep rfl rfl rfl rfl rfl rfl rfl rfl rfl rfl⟩
  split
  · exact ⟨sp, h⟩
  split
  · exact ⟨sp, h⟩
  split
  · next m hm =>
    refine ⟨sp, h.extend ht hm ((Nat.mod_lt _ (by omega)).trans (by omega)) rfl rfl rfl
      (fun _ hf => hf.keep rfl rfl rfl rfl rfl rfl rfl) fun hst hne => hs hst ?_ top htop⟩
    rw [(h.ioc t).1]
    exact fun hc => hne (List.eq_nil_of_length_eq_zero hc)
  · rw [tryckp]
    split
    · exact ⟨sp, h⟩
    split
    · exact ⟨sp, h⟩
    obtain ⟨sp₁, h₁, -, -⟩ := h.chkpt (c := c) ht z pool
    split
    · next k₁ hk₁ =>
      rw [hk₁] at h₁
      split
      · exact ⟨sp₁, h₁.setKeep rfl rfl rfl rfl rfl rfl rfl rfl rfl rfl⟩
      · exact ⟨sp₁, h₁.setKeep rfl rfl rfl rfl rfl rfl rfl rfl rfl rfl⟩
    · next k₁ e _ hk₁ =>
      rw [hk₁] at h₁
      exact ⟨sp₁, h₁⟩

/-! ## Priority -/

omit [DecidableEq P] [DecidableEq F] in
/-- `ALTPRI`. The priority of a task that waits does not change. -/
theorem Inv.altpri {e : ℕ} {inst : Bool} (h : k.Inv q sp x)
    (hp : q.order → t ∈ k.wait (k.tcb t).pcb →
      (if e = 0 then (k.tcb t).dpri else e) = (k.tcb t).pri) : (k.altpri t e inst).Inv q sp x := by
  have hpri : ∀ d, (k.setTcb t { k.tcb t with
      pri := if e = 0 then (k.tcb t).dpri else e, dpri := d }).Inv q sp x := fun d =>
    h.setTcb rfl rfl rfl (fun ho hw => hp ho ((h.lists.wait _ t).mpr ⟨hw, rfl⟩))
      ((h.fine t).keep rfl rfl rfl rfl rfl rfl rfl)
  unfold Kernel.altpri
  dsimp only
  split
  · split
    · exact h
    · exact hpri _
  · split
    · exact hpri _
    · exact h

end Kernel

end RSX280.Chkpt
