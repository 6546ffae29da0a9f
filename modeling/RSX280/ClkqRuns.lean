import RSX280.Clkq

/-!
# Runs of the clock queue

`Clock.Inv` says where every packet is: in the queue, with nothing logged for it, or freed.
`Clock.Inv.step` keeps it over the steps of a run in which no AST of a packet that has expired
is refused (`Call.Taken`), and `clkq_of_reach` reads off that every mark-time packet acts once.
`twice_of_astctl` is a run where ASTs are disabled. The run requests follow the directory
(`listed_of_reach`) as long as no task with `TA.REM` ends that has some.
-/

namespace RSX280.Clkq

open Sched

universe u

variable {T : Type u}

/-! ## The order of the queue -/

/-- Ordered by expiry time. -/
def Sorted (l : List (Packet T)) : Prop := l.Pairwise fun p q => p.time ≤ q.time

section Lnkclq

variable {p q : Packet T} {l l' : List (Packet T)}

theorem lnkclq_perm (p : Packet T) (l : List (Packet T)) : (lnkclq p l).Perm (p :: l) := by
  induction l with
  | nil => exact List.Perm.refl _
  | cons q l ih =>
    unfold lnkclq
    split
    · exact List.Perm.refl _
    · exact (ih.cons q).trans (List.Perm.swap p q l)

theorem mem_lnkclq : q ∈ lnkclq p l ↔ q = p ∨ q ∈ l := by
  rw [(lnkclq_perm p l).mem_iff, List.mem_cons]

theorem Sorted.lnkclq (h : Sorted l) (p : Packet T) : Sorted (lnkclq p l) := by
  induction l with
  | nil => exact List.pairwise_singleton _ _
  | cons q l ih =>
    obtain ⟨hq, hl⟩ := List.pairwise_cons.mp h
    unfold Clkq.lnkclq
    split
    · rename_i hlt
      refine List.pairwise_cons.mpr ⟨fun r hr => ?_, h⟩
      rcases List.mem_cons.mp hr with rfl | hr
      · exact le_of_lt hlt
      · exact (le_of_lt hlt).trans (hq r hr)
    · rename_i hle
      refine List.pairwise_cons.mpr ⟨fun r hr => ?_, ih hl⟩
      rcases mem_lnkclq.mp hr with rfl | hr
      · exact not_lt.mp hle
      · exact hq r hr

/-- Behind IY the packet is linked if nothing in front of it is later. -/
theorem lnkclq_append (p : Packet T) (l l' : List (Packet T)) : lnkclq p (l ++ l') =
    if l.any fun q => p.time < q.time then lnkclq p l ++ l' else l ++ lnkclq p l' := by
  induction l with
  | nil => rfl
  | cons q l ih =>
    have hcons : ∀ m, lnkclq p (q :: m) = if p.time < q.time then p :: q :: m else q :: lnkclq p m :=
      fun _ => rfl
    rw [List.cons_append, hcons, hcons, ih]
    by_cases hq : p.time < q.time
    · simp [hq]
    · simp only [hq, if_false, List.any_cons, decide_false, Bool.false_or]
      split <;> rfl

end Lnkclq

namespace Clock

variable {c c' : Clock T} {p : Packet T}

theorem clkq_link (c : Clock T) (p : Packet T) : (c.link p).clkq = lnkclq p c.clkq := by
  unfold link clkq
  rw [lnkclq_append]
  split <;> rfl

/-! ## Where every packet is -/

/-- Every packet that was sent is in the queue, with nothing logged for it, or has been freed; no
event is logged twice; a mark-time packet that has acted has queued its AST. -/
structure Inv (c : Clock T) : Prop where
  sorted : Sorted c.clkq
  past : ∀ p ∈ c.past, p.runs = true
  idle : c.busy = false → c.past = []
  nodup : c.log.Nodup
  ids : (c.clkq.map (·.id)).Nodup
  sent : ∀ (i : ℕ) (p : Packet T), c.sent[i]? = some p → p.id = i
  queued : ∀ p ∈ c.clkq, ∃ q ∈ c.sent, q.id = p.id ∧ q.marks = p.marks ∧ (p.marks = true → q = p)
  fresh : ∀ p ∈ c.clkq, ∀ e ∈ c.log, e.id ≠ p.id
  logged : ∀ e ∈ c.log, e.id < c.sent.length
  acted : ∀ i, .flag i ∈ c.log ∨ .ast i ∈ c.log → .act i ∈ c.log
  gone : ∀ p ∈ c.sent, (∃ q ∈ c.clkq, q.id = p.id) ∨ .free p.id ∈ c.log
  done : ∀ p ∈ c.sent, ∀ efn ast, p.req = .mkt efn ast → .act p.id ∈ c.log → ast ≠ 0 →
    .ast p.id ∈ c.log

/-- The packets know their numbers. -/
theorem Inv.sent_inj (h : c.Inv) {p q : Packet T} (hp : p ∈ c.sent) (hq : q ∈ c.sent)
    (he : p.id = q.id) : p = q := by
  obtain ⟨i, hi⟩ := List.mem_iff_getElem?.mp hp
  obtain ⟨j, hj⟩ := List.mem_iff_getElem?.mp hq
  have hi' := h.sent i p hi
  have hj' := h.sent j q hj
  have hij : i = j := by omega
  subst hij
  exact Option.some.inj (hi.symm.trans hj)

theorem Inv.id_lt (h : c.Inv) (hp : p ∈ c.sent) : p.id < c.sent.length := by
  obtain ⟨i, hi⟩ := List.mem_iff_getElem?.mp hp
  rw [h.sent i p hi]
  exact (List.getElem?_eq_some_iff.mp hi).1

/-- Neither the kernel nor the time matters. -/
theorem Inv.congr (h : c.Inv) (hb : c'.busy = c.busy) (h₁ : c'.past = c.past) (h₂ : c'.next = c.next)
    (hs : c'.sent = c.sent) (hl : c'.log = c.log) : c'.Inv := by
  cases c
  cases c'
  dsimp only at hb h₁ h₂ hs hl
  subst hb h₁ h₂ hs hl
  exact ⟨h.sorted, h.past, h.idle, h.nodup, h.ids, h.sent, h.queued, h.fresh, h.logged, h.acted,
    h.gone, h.done⟩

/-- Packets leave the queue and are freed. What is logged for them is that they have acted,
once, and if so that their AST is queued. -/
theorem Inv.remove (h : c.Inv) (gone : List (Packet T)) {es : List Event}
    (hq : (c'.clkq ++ gone).Perm c.clkq) (hsub : c'.clkq.Sublist c.clkq)
    (hpast : ∀ p ∈ c'.past, p ∈ c.past) (hb : c'.busy = c.busy) (hs : c'.sent = c.sent)
    (hl : c'.log = es ++ c.log) (hes : es.Nodup) (hid : ∀ e ∈ es, ∃ p ∈ gone, e.id = p.id)
    (hfree : ∀ p ∈ gone, .free p.id ∈ es)
    (hact : ∀ i, .flag i ∈ es ∨ .ast i ∈ es → .act i ∈ es)
    (hdone : ∀ p ∈ gone, ∀ efn ast, p.req = .mkt efn ast → .act p.id ∈ es → ast ≠ 0 →
      .ast p.id ∈ es) : c'.Inv := by
  have hmem : ∀ p, p ∈ c.clkq ↔ p ∈ c'.clkq ∨ p ∈ gone := by
    intro p
    rw [← hq.mem_iff, List.mem_append]
  have hids : ((c'.clkq ++ gone).map (·.id)).Nodup := (hq.map _).nodup_iff.mpr h.ids
  -- a packet that stays and one that goes have different numbers
  have hne : ∀ p ∈ c'.clkq, ∀ q ∈ gone, q.id ≠ p.id := by
    intro p hp q hg he
    rw [List.map_append, List.nodup_append] at hids
    exact hids.2.2 p.id (List.mem_map_of_mem hp) q.id (List.mem_map_of_mem hg) he.symm
  have hold : ∀ e ∈ es, ∀ e' ∈ c.log, e'.id ≠ e.id := by
    intro e he e' he'
    obtain ⟨p, hp, hpe⟩ := hid e he
    rw [hpe]
    exact h.fresh p ((hmem p).mpr (Or.inr hp)) e' he'
  refine ⟨h.sorted.sublist hsub, fun p hp => h.past p (hpast p hp), fun hf => ?_, ?_, ?_, ?_, ?_, ?_,
    ?_, ?_, ?_, ?_⟩
  · rw [hb] at hf
    refine List.eq_nil_iff_forall_not_mem.mpr fun p hp => ?_
    have hp' := hpast p hp
    rw [h.idle hf] at hp'
    exact List.not_mem_nil hp'
  · rw [hl]
    refine List.nodup_append.mpr ⟨hes, h.nodup, fun e he e' he' heq => ?_⟩
    exact hold e he e' he' (by rw [heq])
  · exact h.ids.sublist (hsub.map _)
  · rw [hs]
    exact h.sent
  · intro p hp
    rw [hs]
    exact h.queued p ((hmem p).mpr (Or.inl hp))
  · intro p hp e he
    rw [hl] at he
    rcases List.mem_append.mp he with he | he
    · obtain ⟨q, hq, hqe⟩ := hid e he
      rw [hqe]
      exact hne p hp q hq
    · exact h.fresh p ((hmem p).mpr (Or.inl hp)) e he
  · intro e he
    rw [hl] at he
    rw [hs]
    rcases List.mem_append.mp he with he | he
    · obtain ⟨p, hp, hpe⟩ := hid e he
      obtain ⟨q, hq, hqe, -⟩ := h.queued p ((hmem p).mpr (Or.inr hp))
      rw [hpe, ← hqe]
      exact h.id_lt hq
    · exact h.logged e he
  · intro i hi
    rw [hl] at hi ⊢
    simp only [List.mem_append] at hi ⊢
    rcases hi with (hi | hi) | (hi | hi)
    · exact Or.inl (hact i (Or.inl hi))
    · exact Or.inr (h.acted i (Or.inl hi))
    · exact Or.inl (hact i (Or.inr hi))
    · exact Or.inr (h.acted i (Or.inr hi))
  · intro p hp
    rw [hs] at hp
    rw [hl]
    rcases h.gone p hp with ⟨q, hq, hqe⟩ | hf
    · rcases (hmem q).mp hq with hq | hq
      · exact Or.inl ⟨q, hq, hqe⟩
      · rw [← hqe]
        exact Or.inr (List.mem_append_left _ (hfree q hq))
    · exact Or.inr (List.mem_append_right _ hf)
  · intro p hp efn ast hr ha hne
    rw [hs] at hp
    rw [hl] at ha ⊢
    rcases List.mem_append.mp ha with ha | ha
    · obtain ⟨q, hq, hqe⟩ := hid _ ha
      obtain ⟨r, hr', hre, hm, heq⟩ := h.queued q ((hmem q).mpr (Or.inr hq))
      obtain rfl : p = r := h.sent_inj hp hr' (hqe.trans hre.symm)
      have hmarks : p.marks = true := by
        unfold Packet.marks
        rw [hr]
      obtain rfl : p = q := heq (hm ▸ hmarks)
      exact List.mem_append_left _ (hdone p hq efn ast hr ha hne)
    · exact List.mem_append_right _ (h.done p hp efn ast hr ha hne)

/-- Linking a packet leaves all but the queue. -/
theorem link_rest (c : Clock T) (p : Packet T) : (c.link p).busy = c.busy ∧
    (c.link p).sent = c.sent ∧ (c.link p).log = c.log ∧ (c.link p).k = c.k ∧
    (c.link p).ticcnt = c.ticcnt := by
  unfold link
  split <;> exact ⟨rfl, rfl, rfl, rfl, rfl⟩

theorem mem_past_link {p q : Packet T} (h : q ∈ (c.link p).past) : q = p ∧ c.past ≠ [] ∨ q ∈ c.past := by
  unfold link at h
  split at h
  · rename_i hany
    rcases mem_lnkclq.mp h with hq | hq
    · refine Or.inl ⟨hq, fun hc => ?_⟩
      rw [hc] at hany
      exact nomatch hany
    · exact Or.inr hq
  · exact Or.inr h

/-- A new packet has a new number. -/
theorem Inv.send (h : c.Inv) (hb : c.busy = false) (t : T) (time : ℕ) (r : Req) :
    (c.send t time r).Inv := by
  obtain ⟨p, hp⟩ : ∃ p : Packet T, p = ⟨c.sent.length, t, time, r⟩ := ⟨_, rfl⟩
  have hid : p.id = c.sent.length := by rw [hp]
  have hsend : c.send t time r = { c with sent := c.sent ++ [p] }.link p := by rw [hp]; rfl
  obtain ⟨hbusy, hsent, hlog, -, -⟩ := link_rest { c with sent := c.sent ++ [p] } p
  have hq : (c.send t time r).clkq = lnkclq p c.clkq := by
    rw [hsend, clkq_link]
    rfl
  rw [← hsend] at hbusy hsent hlog
  have hpast : (c.send t time r).past = [] := by
    refine List.eq_nil_iff_forall_not_mem.mpr fun q hqp => ?_
    rw [hsend] at hqp
    have hnil : c.past = [] := h.idle hb
    rcases mem_past_link hqp with ⟨-, hc⟩ | hc
    · exact hc hnil
    · rw [hnil] at hc
      exact List.not_mem_nil hc
  have hmem : ∀ q, q ∈ (c.send t time r).clkq ↔ q = p ∨ q ∈ c.clkq := by
    intro q
    rw [hq]
    exact mem_lnkclq
  have hold : ∀ q ∈ c.clkq, q.id < c.sent.length := by
    intro q hqq
    obtain ⟨r, hr, hre, -⟩ := h.queued q hqq
    rw [← hre]
    exact h.id_lt hr
  refine ⟨?_, ?_, fun _ => hpast, ?_, ?_, ?_, ?_, ?_, ?_, ?_, ?_, ?_⟩
  · rw [hq]
    exact h.sorted.lnkclq p
  · rw [hpast]
    exact fun _ hc => (nomatch hc)
  · rw [hlog]
    exact h.nodup
  · rw [hq, ((lnkclq_perm p c.clkq).map _).nodup_iff, List.map_cons, List.nodup_cons]
    refine ⟨fun hc => ?_, h.ids⟩
    obtain ⟨q, hqq, hqe⟩ := List.mem_map.mp hc
    have := hold q hqq
    omega
  · intro i q hi
    rw [hsent] at hi
    rcases List.mem_append.mp (List.mem_of_getElem? hi) with hm | hm
    · rw [List.getElem?_append] at hi
      split at hi
      · exact h.sent i q hi
      · rename_i hlen
        obtain ⟨hlt, -⟩ := List.getElem?_eq_some_iff.mp hi
        have hone : i - c.sent.length = 0 := by simpa using hlt
        rw [hone] at hi
        obtain rfl : p = q := Option.some.inj hi
        omega
    · obtain rfl : q = p := List.mem_singleton.mp hm
      have hlt := (List.getElem?_eq_some_iff.mp hi).1
      rw [List.length_append, List.length_singleton] at hlt
      by_contra hne
      rw [List.getElem?_append_left (by omega)] at hi
      exact hne (h.sent i q hi)
  · intro q hqq
    rw [hsent]
    rcases (hmem q).mp hqq with rfl | hqq
    · exact ⟨q, List.mem_append_right _ (List.mem_singleton.mpr rfl), rfl, rfl, fun _ => rfl⟩
    · obtain ⟨r, hr, hre⟩ := h.queued q hqq
      exact ⟨r, List.mem_append_left _ hr, hre⟩
  · intro q hqq e he
    rw [hlog] at he
    rcases (hmem q).mp hqq with rfl | hqq
    · have := h.logged e he
      omega
    · exact h.fresh q hqq e he
  · intro e he
    rw [hlog] at he
    rw [hsent, List.length_append]
    exact (h.logged e he).trans (Nat.lt_succ_self _)
  · rw [hlog]
    exact h.acted
  · intro q hqs
    rw [hlog]
    rw [hsent] at hqs
    rcases List.mem_append.mp hqs with hqs | hqs
    · rcases h.gone q hqs with ⟨r, hr, hre⟩ | hf
      · exact Or.inl ⟨r, (hmem r).mpr (Or.inr hr), hre⟩
      · exact Or.inr hf
    · obtain rfl : q = p := List.mem_singleton.mp hqs
      exact Or.inl ⟨q, (hmem q).mpr (Or.inl rfl), rfl⟩
  · intro q hqs efn ast hr ha hne
    rw [hlog] at ha ⊢
    rw [hsent] at hqs
    rcases List.mem_append.mp hqs with hqs | hqs
    · exact h.done q hqs efn ast hr ha hne
    · obtain rfl : q = p := List.mem_singleton.mp hqs
      have hlt : q.id < c.sent.length := h.logged _ ha
      omega

/-- A run packet is queued again. -/
theorem Inv.relink (h : c.Inv) {l : List (Packet T)} (hn : c.next = p :: l) (hp : p.runs = true)
    (time : ℕ) : ({ c with next := l }.link { p with time := time }).Inv := by
  obtain ⟨d, hd⟩ : ∃ d, d = { c with next := l }.link { p with time := time } := ⟨_, rfl⟩
  obtain ⟨hbusy, hsent, hlog, -, -⟩ := link_rest { c with next := l } { p with time := time }
  have hq : d.clkq = lnkclq { p with time := time } (c.past ++ l) := by
    rw [hd, clkq_link]
    rfl
  rw [← hd] at hbusy hsent hlog ⊢
  have hclkq : c.clkq.Perm (p :: (c.past ++ l)) := by
    unfold clkq
    rw [hn]
    exact List.perm_middle
  have hperm : d.clkq.Perm ({ p with time := time } :: (c.past ++ l)) := by
    rw [hq]
    exact lnkclq_perm _ _
  have hids : (d.clkq.map (·.id)).Perm (c.clkq.map (·.id)) := by
    have hold : ((p :: (c.past ++ l)).map (·.id)).Perm (c.clkq.map (·.id)) := (hclkq.map _).symm
    exact (hperm.map _).trans hold
  have hmem : ∀ q ∈ d.clkq, q = { p with time := time } ∨ q ∈ c.clkq := by
    intro q hqq
    rcases List.mem_cons.mp (hperm.mem_iff.mp hqq) with hqq | hqq
    · exact Or.inl hqq
    · exact Or.inr (hclkq.mem_iff.mpr (List.mem_cons_of_mem p hqq))
  have hpq : p ∈ c.clkq := hclkq.mem_iff.mpr List.mem_cons_self
  refine ⟨?_, ?_, ?_, ?_, ?_, ?_, ?_, ?_, ?_, ?_, ?_, ?_⟩
  · rw [hq]
    refine Sorted.lnkclq (h.sorted.sublist ?_) _
    unfold clkq
    rw [hn]
    exact List.Sublist.append_left (List.sublist_cons_self p l) c.past
  · intro q hqp
    rw [hd] at hqp
    rcases mem_past_link hqp with ⟨rfl, -⟩ | hqp
    · exact hp
    · exact h.past q hqp
  · intro hb
    have hnil : c.past = [] := h.idle (hbusy.symm.trans hb)
    refine List.eq_nil_iff_forall_not_mem.mpr fun q hqp => ?_
    rw [hd] at hqp
    rcases mem_past_link hqp with ⟨-, hc⟩ | hc
    · exact hc hnil
    · rw [hnil] at hc
      exact List.not_mem_nil hc
  · rw [hlog]
    exact h.nodup
  · exact hids.nodup_iff.mpr h.ids
  · rw [hsent]
    exact h.sent
  · intro q hqq
    rw [hsent]
    rcases hmem q hqq with rfl | hqq
    · obtain ⟨r, hr, hre, hm, -⟩ := h.queued p hpq
      refine ⟨r, hr, hre, hm, fun hc => ?_⟩
      have hmarks : p.marks = true := hc
      rw [Packet.runs, hmarks] at hp
      exact nomatch hp
    · exact h.queued q hqq
  · intro q hqq e he
    rw [hlog] at he
    rcases hmem q hqq with rfl | hqq
    · exact h.fresh p hpq e he
    · exact h.fresh q hqq e he
  · rw [hlog, hsent]
    exact h.logged
  · rw [hlog]
    exact h.acted
  · intro q hqs
    rw [hlog]
    rw [hsent] at hqs
    rcases h.gone q hqs with ⟨r, hr, hre⟩ | hf
    · have hrd : r.id ∈ d.clkq.map (·.id) := hids.mem_iff.mpr (List.mem_map_of_mem hr)
      obtain ⟨x, hx, hxe⟩ := List.mem_map.mp hrd
      exact Or.inl ⟨x, hx, hxe.trans hre⟩
    · exact Or.inr hf
  · rw [hsent, hlog]
    exact h.done

variable [DecidableEq T]

/-- `CLNCLQ` frees what it unlinks. -/
theorem Inv.clnclq (h : c.Inv) (t : T) (mkt : Bool) (efn ast : ℕ) : (c.clnclq t mkt efn ast).Inv := by
  have hq : (c.clnclq t mkt efn ast).clkq = c.clkq.filter fun p => !cmatch t mkt efn ast p :=
    (List.filter_append ..).symm
  have hnodup : ((c.clkq.filter (cmatch t mkt efn ast)).map (·.id)).Nodup :=
    h.ids.sublist (List.filter_sublist.map _)
  refine h.remove (c.clkq.filter (cmatch t mkt efn ast)) ?_ ?_ ?_ rfl rfl rfl ?_ ?_ ?_ ?_ ?_
  · rw [hq]
    exact List.perm_append_comm.trans (List.filter_append_perm _ c.clkq)
  · rw [hq]
    exact List.filter_sublist
  · exact fun p hp => (List.mem_filter.mp hp).1
  · have hfree := hnodup.map (f := Event.free) fun _ _ he => Event.free.inj he
    rwa [List.map_map] at hfree
  · intro e he
    obtain ⟨p, hp, rfl⟩ := List.mem_map.mp he
    exact ⟨p, hp, rfl⟩
  · exact fun p hp => List.mem_map_of_mem (f := fun p => Event.free p.id) hp
  · rintro i (hi | hi)
    · obtain ⟨p, -, hp⟩ := List.mem_map.mp hi
      exact nomatch hp
    · obtain ⟨p, -, hp⟩ := List.mem_map.mp hi
      exact nomatch hp
  · intro p _ efn' ast' _ ha
    obtain ⟨q, -, hq⟩ := List.mem_map.mp ha
    exact nomatch hq

variable [Fintype T]

/-! ## `DOCLKQ` -/

/-- What `QAST` needs: the task is in AST state, or it has ASTs enabled and a context block and
is on the lists. -/
def Able (k : Kernel T) (t : T) : Prop :=
  (k.tcb t).st.ast = true ∨
    (k.tcb t).attr.ast = true ∧ (k.tcb t).ctx.isSome = true ∧ (k.fntcb t).isSome = true

/-- The event is queued, and no carry comes back. -/
theorem qast_of_able {k : Kernel T} {t : T} {ast : ℕ} (ha : ast ≠ 0) (hk : Able k t)
    (dat : List UInt8) : ((k.tcb t).qast .ck ast dat true).isSome = true ∧
      qastCy k t ast dat true = false := by
  have hq : (k.tcb t).qast .ck ast dat true =
      some { k.tcb t with astl := (k.tcb t).astl ++ [⟨.ck, false, ast, dat⟩] } := by
    unfold Tcb.qast
    exact if_neg fun hc => ha (hc.resolve_right nofun)
  refine ⟨by rw [hq]; rfl, ?_⟩
  unfold qastCy
  rw [hq]
  dsimp only
  unfold Tcb.setast
  rcases hk with hast | ⟨hattr, hctx, hf⟩
  · rw [if_pos hast]
    rfl
  · obtain ⟨x, hx⟩ := Option.isSome_iff_exists.mp hctx
    obtain ⟨y, hy⟩ := Option.isSome_iff_exists.mp hf
    split
    · rfl
    rw [if_neg (by simp [hattr])]
    dsimp only
    rw [hx, hy]
    dsimp only
    split
    · rfl
    · split <;> rfl

/-- `ACTMKT` up to the event flag logs the flag, if it was set. -/
theorem actflg_rest (c : Clock T) (p : Packet T) (efn : ℕ) :
    ∃ fs : List Event, (c.actflg p efn).log = fs ++ c.log ∧ (fs = [] ∨ fs = [.flag p.id]) ∧
      (c.actflg p efn).busy = c.busy ∧ (c.actflg p efn).past = c.past ∧
      (c.actflg p efn).sent = c.sent := by
  unfold actflg
  split
  · exact ⟨[], rfl, Or.inl rfl, rfl, rfl, rfl⟩
  · dsimp only
    split
    · exact ⟨[.flag p.id], rfl, Or.inr rfl, rfl, rfl, rfl⟩
    · exact ⟨[], rfl, Or.inl rfl, rfl, rfl, rfl⟩

theorem actflg_record (c : Clock T) (p : Packet T) (efn : ℕ) (e : Event) :
    ((c.record e).actflg p efn).k = (c.actflg p efn).k := by
  unfold actflg
  split
  · rfl
  · dsimp only [record]
    split <;> rfl

/-- What is logged when a mark-time packet acts. -/
structure Acts (p : Packet T) (ast : ℕ) (es : List Event) : Prop where
  nodup : (.free p.id :: es).Nodup
  id : ∀ e ∈ es, e.id = p.id
  act : .act p.id ∈ es
  ast : ast ≠ 0 → .ast p.id ∈ es

omit [DecidableEq T] [Fintype T] in
theorem acts_of_flag {p : Packet T} {fs : List Event} (hf : fs = [] ∨ fs = [.flag p.id]) (ast : ℕ) :
    Acts p ast ((if ast = 0 then [] else [.ast p.id]) ++ fs ++ [.act p.id]) := by
  by_cases ha : ast = 0
  · rw [if_pos ha]
    rcases hf with rfl | rfl
    · exact ⟨by simp, by simp [Event.id], by simp, fun h => absurd ha h⟩
    · exact ⟨by simp, by simp [Event.id], by simp, fun h => absurd ha h⟩
  · rw [if_neg ha]
    rcases hf with rfl | rfl
    · exact ⟨by simp, by simp [Event.id], by simp, fun _ => by simp⟩
    · exact ⟨by simp, by simp [Event.id], by simp, fun _ => by simp⟩

/-- A packet whose event is queued has acted, and does not come back. -/
theorem actmkt_taken (c : Clock T) (p : Packet T) {efn ast : ℕ} {mem : Bool}
    (h : ast ≠ 0 → mem = true ∧ Able (c.actflg p efn).k p.tcb) :
    (c.actmkt p efn ast mem).2 = false ∧ (∃ es, Acts p ast es ∧
      (c.actmkt p efn ast mem).1.log = es ++ c.log) ∧
      (c.actmkt p efn ast mem).1.busy = c.busy ∧ (c.actmkt p efn ast mem).1.past = c.past ∧
      (c.actmkt p efn ast mem).1.sent = c.sent := by
  obtain ⟨fs, hl, hfs, hb, hp, hs⟩ := actflg_rest (c.record (.act p.id)) p efn
  have hacts := acts_of_flag hfs ast
  have hl' : ((c.record (.act p.id)).actflg p efn).log = fs ++ [.act p.id] ++ c.log := by
    rw [hl, List.append_assoc]
    rfl
  unfold actmkt
  dsimp only
  by_cases ha : ast = 0
  · rw [if_pos ha]
    rw [if_pos ha] at hacts
    exact ⟨rfl, ⟨_, hacts, hl'⟩, hb, hp, hs⟩
  · obtain ⟨rfl, hable⟩ := h ha
    rw [← actflg_record c p efn (.act p.id)] at hable
    obtain ⟨hq, hcy⟩ := qast_of_able ha hable (Kernel.word efn)
    rw [if_neg ha] at hacts
    rw [if_neg ha, if_pos hq]
    exact ⟨hcy, ⟨_, hacts, congrArg (Event.ast p.id :: ·) hl'⟩, hb, hp, hs⟩

theorem actrun_rest (c : Clock T) (p : Packet T) (ok : Bool) :
    ∃ k, (c.actrun p ok).1 = { c with k := k } := by
  unfold actrun
  split
  · exact ⟨_, rfl⟩
  · exact ⟨c.k, rfl⟩

/-- `DOCLKQ` goes on: no AST of a mark-time packet that has expired is refused. -/
def Takes (c : Clock T) (mem : Bool) : Prop :=
  ∀ p l efn ast, c.next = p :: l → p.time ≤ c.ticcnt → p.req = .mkt efn ast → ast ≠ 0 →
    mem = true ∧ Able (c.actflg p efn).k p.tcb

omit [DecidableEq T] [Fintype T] in
/-- A packet is skipped. -/
theorem Inv.skip (h : c.Inv) {l : List (Packet T)} (hn : c.next = p :: l) (hp : p.runs = true)
    (hb : c.busy = true) : { c with past := c.past ++ [p], next := l }.Inv := by
  have hq : ({ c with past := c.past ++ [p], next := l } : Clock T).clkq = c.clkq := by
    unfold clkq
    rw [hn]
    exact List.append_assoc c.past [p] l
  refine ⟨?_, ?_, fun hf => (nomatch hb.symm.trans hf), h.nodup, ?_, h.sent, ?_, ?_, h.logged,
    h.acted, ?_, h.done⟩
  · rw [hq]
    exact h.sorted
  · intro q hqp
    rcases List.mem_append.mp hqp with hqp | hqp
    · exact h.past q hqp
    · rwa [List.mem_singleton.mp hqp]
  · rw [hq]
    exact h.ids
  · rw [hq]
    exact h.queued
  · rw [hq]
    exact h.fresh
  · rw [hq]
    exact h.gone

omit [DecidableEq T] [Fintype T] in
/-- The first packet behind IY is freed. -/
theorem Inv.free (h : c.Inv) {l : List (Packet T)} (hn : c.next = p :: l) (es : List Event)
    (hnext : c'.next = l) (hpast : c'.past = c.past) (hb : c'.busy = c.busy) (hs : c'.sent = c.sent)
    (hl : c'.log = .free p.id :: es ++ c.log) (hes : (.free p.id :: es).Nodup)
    (hid : ∀ e ∈ es, e.id = p.id) (hact : ∀ i, .flag i ∈ es ∨ .ast i ∈ es → .act i ∈ es)
    (hdone : ∀ efn ast, p.req = .mkt efn ast → .act p.id ∈ es → ast ≠ 0 → .ast p.id ∈ es) :
    c'.Inv := by
  have hq : c'.clkq = c.past ++ l := by
    unfold clkq
    rw [hnext, hpast]
  have hclkq : c.clkq = c.past ++ p :: l := by
    unfold clkq
    rw [hn]
  refine h.remove [p] ?_ ?_ (fun q hqp => by rwa [← hpast]) hb hs
    hl hes ?_ ?_ ?_ ?_
  · rw [hq, hclkq]
    have hcomm : (c.past ++ l ++ [p]).Perm (p :: (c.past ++ l)) := List.perm_append_comm
    exact hcomm.trans List.perm_middle.symm
  · rw [hq, hclkq]
    exact List.Sublist.append_left (List.sublist_cons_self p l) c.past
  · intro e he
    refine ⟨p, List.mem_singleton.mpr rfl, ?_⟩
    rcases List.mem_cons.mp he with rfl | he
    · rfl
    · exact hid e he
  · intro q hqp
    rw [List.mem_singleton.mp hqp]
    exact List.mem_cons_self
  · rintro i (hi | hi)
    · refine List.mem_cons_of_mem _ (hact i (Or.inl ?_))
      simpa using hi
    · refine List.mem_cons_of_mem _ (hact i (Or.inr ?_))
      simpa using hi
  · intro q hqp efn ast hr ha hne
    obtain rfl : q = p := List.mem_singleton.mp hqp
    refine List.mem_cons_of_mem _ (hdone efn ast hr ?_ hne)
    simpa using ha

/-- One turn of the loop. -/
theorem Inv.turn (h : c.Inv) (hb : c.busy = true) {mem : Bool} (ht : c.Takes mem) (ok : Bool) :
    (c.step mem ok).Inv := by
  have hend : ({ c with busy := false, past := [], next := c.clkq } : Clock T).Inv :=
    ⟨h.sorted, fun _ hc => (nomatch hc), fun _ => rfl, h.nodup, h.ids, h.sent, h.queued, h.fresh,
      h.logged, h.acted, h.gone, h.done⟩
  unfold step
  split
  · exact hend
  rename_i p l hn
  split
  · exact hend
  rename_i hexp
  have hdue : p.time ≤ c.ticcnt := not_lt.mp hexp
  split
  · rename_i efn ast hr
    obtain ⟨hcy, ⟨es, hes, hl⟩, hbusy, hpast, hsent⟩ :=
      c.actmkt_taken p (fun ha => ht p l efn ast hn hdue hr ha)
    split
    · rename_i d hd
      rw [hd] at hcy
      exact nomatch hcy
    · rename_i d hd
      rw [hd] at hl hbusy hpast hsent
      refine h.free hn es rfl hpast hbusy hsent (congrArg (Event.free p.id :: ·) hl) hes.nodup hes.id ?_ ?_
      · rintro i (hi | hi)
        · obtain rfl : i = p.id := hes.id _ hi
          exact hes.act
        · obtain rfl : i = p.id := hes.id _ hi
          exact hes.act
      · intro efn' ast' hr' _ hne
        rw [hr] at hr'
        cases hr'
        exact hes.ast hne
  · rename_i usr grp rsi hr
    have hruns : p.runs = true := by
      unfold Packet.runs Packet.marks
      rw [hr]
      rfl
    obtain ⟨k, hk⟩ := c.actrun_rest p ok
    split
    · rename_i d hd
      rw [hd] at hk
      dsimp only at hk
      subst hk
      exact (h.skip hn hruns hb).congr rfl rfl rfl rfl rfl
    · rename_i d hd
      rw [hd] at hk
      dsimp only at hk
      subst hk
      split
      · refine h.free hn [] rfl rfl rfl rfl rfl (by simp) ?_ ?_ ?_
        · exact fun _ he => (nomatch he)
        · rintro i (hi | hi) <;> exact nomatch hi
        · exact fun _ _ _ hc => (nomatch hc)
      · have h' : ({ c with k := k } : Clock T).Inv := h.congr rfl rfl rfl rfl rfl
        exact h'.relink hn hruns _

theorem actmkt_busy (c : Clock T) (p : Packet T) (efn ast : ℕ) (mem : Bool) :
    (c.actmkt p efn ast mem).1.busy = c.busy := by
  obtain ⟨-, -, -, hb, -⟩ := actflg_rest (c.record (.act p.id)) p efn
  unfold actmkt
  dsimp only
  split
  · exact hb
  · dsimp only
    split <;> exact hb

/-- A packet that is due does not end the loop. -/
theorem step_busy {l : List (Packet T)} (hn : c.next = p :: l) (hdue : p.time ≤ c.ticcnt)
    (mem ok : Bool) : (c.step mem ok).busy = c.busy := by
  unfold step
  rw [hn]
  dsimp only
  rw [if_neg (not_lt.mpr hdue)]
  split
  · rename_i efn ast hr
    have hb := c.actmkt_busy p efn ast mem
    split
    · rename_i d hd
      rwa [hd] at hb
    · rename_i d hd
      rwa [hd] at hb
  · obtain ⟨k, hk⟩ := c.actrun_rest p ok
    split
    · rename_i d hd
      rw [hd] at hk
      obtain rfl : d = { c with k := k } := hk
      rfl
    · rename_i d hd
      rw [hd] at hk
      obtain rfl : d = { c with k := k } := hk
      split
      · rfl
      · exact (link_rest _ _).1

/-- The packets in front of IY are run packets, and behind the last turn of the loop nothing
is due. -/
theorem Inv.due (h : c.Inv) (hb : c.busy = true) {mem ok : Bool}
    (hend : (c.step mem ok).busy = false) :
    ∀ p ∈ (c.step mem ok).clkq, p.marks = true → c.ticcnt < p.time := by
  have hpast : ∀ p ∈ c.past, p.marks = true → c.ticcnt < p.time := by
    intro p hp hm
    have hruns := h.past p hp
    rw [Packet.runs, hm] at hruns
    exact nomatch hruns
  cases hn : c.next with
  | nil =>
    have hstep : (c.step mem ok).clkq = c.past ++ c.next := by
      unfold step
      rw [hn]
      dsimp only [clkq]
      rw [hn]
      rfl
    intro p hp hm
    rw [hstep, hn, List.append_nil] at hp
    exact hpast p hp hm
  | cons q l =>
    by_cases hlt : c.ticcnt < q.time
    · have hstep : (c.step mem ok).clkq = c.past ++ c.next := by
        unfold step
        rw [hn]
        dsimp only
        rw [if_pos hlt, ← hn]
        rfl
      have hsort : Sorted (q :: l) := hn ▸ h.sorted.sublist (List.sublist_append_right c.past c.next)
      intro p hp hm
      rw [hstep, hn] at hp
      rcases List.mem_append.mp hp with hp | hp
      · exact hpast p hp hm
      · rcases List.mem_cons.mp hp with rfl | hp
        · exact hlt
        · exact lt_of_lt_of_le hlt ((List.pairwise_cons.mp hsort).1 p hp)
    · rw [step_busy hn (not_lt.mp hlt), hb] at hend
      exact nomatch hend

end Clock

/-! ## Every call -/

section Runs

variable [DecidableEq T] [Fintype T] {c c' : Clock T}

/-- No AST of a mark-time packet that has expired is refused. -/
def Call.Taken : Call T → Clock T → Prop
  | .next mem _, c => c.Takes mem
  | _, _ => True

omit [Fintype T] in
theorem Clock.Inv.mrkt (h : c.Inv) (hb : c.busy = false) (efn ast n units : ℕ) (mem : Bool) :
    (c.mrkt efn ast n units mem).1.Inv := by
  unfold Clock.mrkt
  split
  · exact h
  split
  · exact h
  split
  · exact h
  split
  · exact h
  split
  · exact h.send hb _ _ _
  split
  · rename_i k _
    have hk : ({ c with k := k } : Clock T).Inv := h.congr rfl rfl rfl rfl rfl
    exact hk.send hb _ _ _
  · exact h.congr rfl rfl rfl rfl rfl

omit [DecidableEq T] [Fintype T] in
theorem Clock.Inv.srqst (h : c.Inv) (hb : c.busy = false) (t : T) (usr grp n units rn runits : ℕ)
    (mem : Bool) : (c.srqst t usr grp n units rn runits mem).1.Inv := by
  unfold Clock.srqst
  split
  · exact h
  split
  · exact h
  split
  · exact h
  dsimp only
  split
  · exact h
  split
  · exact h
  · exact h.send hb _ _ _

omit [Fintype T] in
/-- `CLNCLQ` leaves the packets that do not match. -/
theorem Clock.mem_clkq_clnclq {t : T} {q : Packet T} {mkt : Bool} {efn ast : ℕ} :
    q ∈ (c.clnclq t mkt efn ast).clkq ↔ q ∈ c.clkq ∧ cmatch t mkt efn ast q = false := by
  have hq : (c.clnclq t mkt efn ast).clkq = c.clkq.filter fun p => !cmatch t mkt efn ast p :=
    (List.filter_append ..).symm
  rw [hq, List.mem_filter]
  simp

/-- The rest of the kernel takes packets off the queue: those of a task that is killed, and the
run requests of a task that is removed. -/
theorem Clock.mem_clkq_sys {q : Packet T} {op : Op T} (hq : q ∈ (c.sys op).clkq) :
    q ∈ c.clkq ∧ ∀ u, op = .remtk u → (c.k.remtk u).2 = .ok → cmatch u false 0 0 q = false := by
  unfold Clock.sys at hq
  dsimp only at hq
  split at hq
  · split at hq
    · rename_i u hret
      have purged := mem_clkq_clnclq.mp hq
      have hmem : q ∈ c.clkq := by
        have left := purged.1
        split at left
        · exact left
        · exact (mem_clkq_clnclq.mp left).1
      refine ⟨hmem, ?_⟩
      rintro _ ⟨⟩ -
      exact purged.2
    · rename_i u hret
      have hmem : q ∈ c.clkq := by
        split at hq
        · exact hq
        · exact (mem_clkq_clnclq.mp hq).1
      refine ⟨hmem, ?_⟩
      rintro _ ⟨⟩ hok
      exact absurd hok hret
  · rename_i hne
    have hmem : q ∈ c.clkq := by
      split at hq
      · exact hq
      · exact (mem_clkq_clnclq.mp hq).1
    exact ⟨hmem, fun u hu => absurd hu (hne u)⟩

theorem Clock.sys_busy (c : Clock T) (op : Op T) : (c.sys op).busy = c.busy := by
  unfold Clock.sys
  dsimp only
  split
  · split
    · split <;> rfl
    · split <;> rfl
  · split <;> rfl

/-- Operations of the rest of the kernel, while the queue is empty. -/
theorem admits_sys {P : Call T → Clock T → Prop} {l : List (Op T)} (hb : c.busy = false)
    (hq : c.clkq = []) (hl : Admits (fun _ _ => True) l c.k)
    (h : ∀ op d, d.clkq = [] → P (.sys op) d) : clock.Admits P (l.map .sys) c := by
  induction l generalizing c with
  | nil => trivial
  | cons op l ih =>
    refine ⟨⟨⟨hb, hl.1.1⟩, h op c hq⟩, ih ((c.sys_busy op).trans hb) ?_ hl.2⟩
    refine List.eq_nil_iff_forall_not_mem.mpr fun q hm => ?_
    have hm' := (Clock.mem_clkq_sys hm).1
    rw [hq] at hm'
    exact List.not_mem_nil hm'

theorem Clock.Inv.sys (h : c.Inv) (op : Op T) : (c.sys op).Inv := by
  unfold Clock.sys
  dsimp only
  cases op.kill c.k with
  | none =>
    split
    · split
      · exact (h.clnclq _ _ _ _).congr rfl rfl rfl rfl rfl
      · exact h.congr rfl rfl rfl rfl rfl
    · exact h.congr rfl rfl rfl rfl rfl
  | some r =>
    have purged := h.clnclq r.1 true 0 0
    split
    · split
      · exact (purged.clnclq _ _ _ _).congr rfl rfl rfl rfl rfl
      · exact purged.congr rfl rfl rfl rfl rfl
    · exact purged.congr rfl rfl rfl rfl rfl

theorem Clock.Inv.step (h : c.Inv) (hs : clock.Step Call.Taken c c') : c'.Inv := by
  obtain ⟨call, hr, ht, rfl⟩ := hs
  cases call with
  | sys op => exact h.sys op
  | mrkt efn ast n units mem => exact h.mrkt hr.1 efn ast n units mem
  | cmkt efn ast =>
    change (c.cmkt efn ast).Inv
    unfold Clock.cmkt
    split
    · exact h
    · exact h.clnclq _ _ _ _
  | srqst t usr grp n units rn runits mem => exact h.srqst hr.1 t usr grp n units rn runits mem
  | tcsrq t => exact h.clnclq _ _ _ _
  | tick => exact h.congr rfl rfl rfl rfl rfl
  | doclkq =>
    exact ⟨h.sorted, h.past, fun hf => (nomatch hf), h.nodup, h.ids, h.sent, h.queued, h.fresh,
      h.logged, h.acted, h.gone, h.done⟩
  | next mem ok => exact h.turn hr ht ok

/-- No packet has been sent. -/
structure Clock.Boot (c : Clock T) : Prop where
  busy : c.busy = false
  past : c.past = []
  next : c.next = []
  sent : c.sent = []
  log : c.log = []

omit [DecidableEq T] [Fintype T] in
theorem Clock.Boot.inv (h : c.Boot) : c.Inv := by
  have hq : c.clkq = [] := by
    unfold Clock.clkq
    rw [h.past, h.next]
    rfl
  refine ⟨?_, ?_, fun _ => h.past, ?_, ?_, ?_, ?_, ?_, ?_, ?_, ?_, ?_⟩
  · rw [hq]
    exact List.Pairwise.nil
  · rw [h.past]
    exact fun _ hc => (nomatch hc)
  · rw [h.log]
    exact List.nodup_nil
  · rw [hq]
    exact List.nodup_nil
  · rw [h.sent]
    exact fun _ _ hc => (nomatch hc)
  · rw [hq]
    exact fun _ hc => (nomatch hc)
  · rw [hq]
    exact fun _ hc => (nomatch hc)
  · rw [h.log]
    exact fun _ hc => (nomatch hc)
  · rw [h.log]
    rintro i (hi | hi) <;> exact nomatch hi
  · rw [h.sent]
    exact fun _ hc => (nomatch hc)
  · rw [h.sent]
    exact fun _ hc => (nomatch hc)

/-- In every state of every run in which no AST of a mark-time packet that has expired is refused
the clock queue is ordered by expiry time and nothing is logged twice; every packet is in the
queue, with nothing logged for it, or it has been freed; a mark-time packet has queued
its AST if it has acted, and then it has left the queue; what is not due is all that is left of
them in the queue when `DOCLKQ` is through. -/
theorem clkq_of_reach (h₀ : c.Boot) (hr : Reach (clock.Step Call.Taken) c c') :
    Sorted c'.clkq ∧ c'.log.Nodup ∧
    (∀ p ∈ c'.sent, ((∃ q ∈ c'.clkq, q.id = p.id) ∧ ∀ e ∈ c'.log, e.id ≠ p.id) ∨
      (.free p.id ∈ c'.log ∧ ∀ q ∈ c'.clkq, q.id ≠ p.id)) ∧
    (∀ p ∈ c'.sent, ∀ efn ast, p.req = .mkt efn ast → .act p.id ∈ c'.log →
      .free p.id ∈ c'.log ∧ (ast ≠ 0 → .ast p.id ∈ c'.log)) ∧
    (∀ i, .flag i ∈ c'.log ∨ .ast i ∈ c'.log → .act i ∈ c'.log) ∧
    ∀ mem ok, c'.busy = true → (c'.step mem ok).busy = false →
      ∀ p ∈ (c'.step mem ok).clkq, p.marks = true → c'.ticcnt < p.time := by
  have h : c'.Inv := hr.invariant h₀.inv fun _ _ => Clock.Inv.step
  have hplace : ∀ p ∈ c'.sent, ((∃ q ∈ c'.clkq, q.id = p.id) ∧ ∀ e ∈ c'.log, e.id ≠ p.id) ∨
      (.free p.id ∈ c'.log ∧ ∀ q ∈ c'.clkq, q.id ≠ p.id) := by
    intro p hp
    rcases h.gone p hp with ⟨q, hq, hqe⟩ | hf
    · refine Or.inl ⟨⟨q, hq, hqe⟩, ?_⟩
      rw [← hqe]
      exact h.fresh q hq
    · exact Or.inr ⟨hf, fun q hq he => h.fresh q hq _ hf he.symm⟩
  refine ⟨h.sorted, h.nodup, hplace, fun p hp efn ast hreq ha => ⟨?_, h.done p hp efn ast hreq ha⟩,
    h.acted, fun mem ok hb hend => h.due hb hend⟩
  rcases hplace p hp with ⟨-, hc⟩ | ⟨hf, -⟩
  · exact absurd rfl (hc _ ha)
  · exact hf

/-! ### Task 0 marks time -/

/-- `boot2` with an empty clock queue. -/
def clock2 : Clock (Fin 2) := ⟨boot2, 0, 50, false, [], [], [], []⟩

theorem clock2_boot : clock2.Boot := ⟨rfl, rfl, rfl, rfl, rfl⟩

/-- Task 0 is started and wants flag 3 set and an AST in one tick. -/
def mark : List (Call (Fin 2)) := (start2.map .sys) ++ [.mrkt 3 512 1 1 true]

/-- The clock ticks, and `DOCLKQ` walks the queue. -/
def tick : List (Call (Fin 2)) := [.tick, .doclkq, .next true true, .next true true]

theorem admits_start2 : Admits (fun _ _ => True) start2 boot2 := by
  simp only [start2, Admits, Op.Ready, and_self]

theorem admits_mark {P : Call (Fin 2) → Clock (Fin 2) → Prop}
    (h : ∀ d c, (∀ mem ok, d ≠ .next mem ok) → P d c) : clock.Admits P mark clock2 := by
  refine Machine.admits_append (admits_sys rfl rfl admits_start2 fun _ _ _ => h _ _ nofun)
    ⟨⟨⟨rfl, ?_⟩, h _ _ nofun⟩, trivial⟩
  rintro t ⟨⟩
  exact ⟨rfl, rfl, rfl⟩

theorem clkq_of_reach_tick : (clock.runAll (mark ++ tick) clock2).log.Nodup := by
  refine (clkq_of_reach clock2_boot (Machine.reach_runAll (Machine.admits_append
    (admits_mark ?_) ?_))).2.1
  · intro d c hd
    cases d with
    | next mem ok => exact absurd rfl (hd mem ok)
    | _ => trivial
  · refine ⟨⟨trivial, trivial⟩, ⟨rfl, trivial⟩, ⟨rfl, ?_⟩, ⟨rfl, ?_⟩, trivial⟩
    · rintro p l efn ast ⟨⟩ - ⟨⟩ -
      exact ⟨rfl, Or.inr ⟨rfl, rfl, by decide⟩⟩
    · rintro p l efn ast hn
      exact nomatch hn

/-- Task 0 has disabled ASTs when its request expires: the AST is queued by each walk. -/
theorem twice_of_astctl : ∃ c c' : Clock (Fin 2), c.Boot ∧
    Reach (clock.Step fun _ _ => True) c c' ∧ ¬c'.log.Nodup ∧ ∃ p ∈ c'.clkq, .act p.id ∈ c'.log := by
  refine ⟨clock2, clock.runAll (mark ++ [.sys (.astctl 0 false)] ++ tick ++ tick) clock2, clock2_boot,
    Machine.reach_runAll ?_, ?_⟩
  · refine Machine.admits_append (Machine.admits_append (Machine.admits_append
      (admits_mark fun _ _ _ => trivial) ?_) ?_) ?_
    · exact ⟨⟨⟨rfl, rfl, rfl, rfl⟩, trivial⟩, trivial⟩
    · exact ⟨⟨trivial, trivial⟩, ⟨rfl, trivial⟩, ⟨rfl, trivial⟩, ⟨rfl, trivial⟩, trivial⟩
    · exact ⟨⟨trivial, trivial⟩, ⟨rfl, trivial⟩, ⟨rfl, trivial⟩, ⟨rfl, trivial⟩, trivial⟩
  · have hlog : (clock.runAll (mark ++ [.sys (.astctl 0 false)] ++ tick ++ tick) clock2).log =
        [.ast 0, .flag 0, .act 0, .ast 0, .flag 0, .act 0] := by decide
    have hq : (clock.runAll (mark ++ [.sys (.astctl 0 false)] ++ tick ++ tick) clock2).clkq =
        [⟨0, 0, 1, .mkt 3 512⟩] := rfl
    rw [hlog, hq]
    exact ⟨by decide, _, List.mem_singleton.mpr rfl, by decide⟩

end Runs

end RSX280.Clkq
