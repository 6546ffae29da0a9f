import RSX280.Task

/-!
# The operations, seen from one task

`Kernel.Moved E k k'`: from `k` to `k'` every task made a run of moves. Every operation of
the kernel does that (`Op.moved`), with an environment `E` that says which reason it
aborts a task for and which events it may queue.
-/

namespace RSX280.Sched

open Links

universe u

variable {T : Type u}

/-! ## Delivery of one event -/

namespace Tcb

variable {b c : Tcb T}

/-- `DOAST` on a task in AST state: nothing if an AST is being executed, else the first event
is started, or lost. -/
theorem deliver_moves {E : Env T} (ha : b.st.ast = true) (hb : b.st1.abo = false)
    (hne : b.astl ≠ []) :
    Moves E b b.deliver.1 := by
  cases hs : b.svst.ast with
  | true =>
    unfold deliver
    rw [if_pos hs]
    exact Moves.refl b
  | false =>
    obtain ⟨x, l, hx⟩ := List.exists_cons_of_ne_nil hne
    cases hd : b.deliver with
    | mk c ok =>
      cases ok with
      | true => exact (Move.deliver b c x l ha hb hs hx hd).moves
      | false => exact (Move.lose b c x l ha hb hs hx hd).moves

end Tcb

/-! ## All tasks -/

/-- Every task made a run of moves. -/
def Kernel.Moved (E : T → Env T) (k k' : Kernel T) : Prop :=
  ∀ t, Moves (E t) (k.tcb t) (k'.tcb t)

namespace Kernel

variable {E : T → Env T} {k k' k'' : Kernel T} {t : T} {b : Tcb T} {x : Act}

theorem Moved.refl (k : Kernel T) : Moved E k k := fun _ => Moves.refl _

theorem Moved.trans (h : Moved E k k') (h' : Moved E k' k'') : Moved E k k'' :=
  fun t => (h t).trans (h' t)

/-- Only the control blocks matter. -/
theorem Moved.congr (h : Moved E k k') (ht : k''.tcb = k'.tcb) : Moved E k k'' := by
  intro t
  rw [ht]
  exact h t

variable [DecidableEq T]

theorem Moved.runs (h : Moves (E t) (k.tcb t) b) : Moved E k (k.setTcb t b) := by
  intro u
  rcases eq_or_ne u t with rfl | hu
  · rw [setTcb_self]
    exact h
  · rw [setTcb_of_ne hu]
    exact Moves.refl _

theorem Moved.one (h : Move (E t) x (k.tcb t) b) : Moved E k (k.setTcb t b) := Moved.runs h.moves

variable [Fintype T] {o : Outcome T}

theorem Moved.settle (h : Move (E t) x (k.tcb t) o.tcb) : Moved E k (k.settle t o) :=
  (Moved.one h).congr (settle_tcb o)

theorem Moved.onTask {f : Tcb T → Outcome T} (h : ∀ b : Tcb T, b = k.tcb t → Move (E t) x b (f b).tcb) :
    Moved E k (k.onTask t f).1 := by
  unfold Kernel.onTask
  split
  · exact Moved.refl k
  · exact Moved.settle (h _ rfl)

/-! ## Flags, events and data -/

theorem moved_dsptch (k : Kernel T) (elapsed : Bool) : Moved E k (k.dsptch elapsed) := by
  have hr : (k.rrobin elapsed).tcb = k.tcb := by
    unfold rrobin
    split
    · split <;> rfl
    · rfl
  unfold dsptch
  split
  · exact (Moved.refl k).congr hr
  · exact (Moved.refl k).congr hr

theorem moved_setflg (k : Kernel T) (t : T) (e : ℕ) : Moved E k (k.setflg t e).1 := by
  unfold setflg
  split
  · exact Moved.refl k
  rename_i iy hf
  split
  · exact Moved.refl k
  rename_i m _
  have hm := Move.setflg (E := E t) (k.tcb t) m
  unfold Tcb.flag at hm
  dsimp only
  split
  · rename_i hc
    rw [if_pos hc] at hm
    refine (Moved.one hm).congr ?_
    unfold Kernel.tcont Kernel.onTask
    -- the lists are as they were, so the task is found again
    have hf' : (k.setTcb t { k.tcb t with flgs := (k.tcb t).flgs ||| m }).fntcb t = some iy := hf
    rw [hf']
    dsimp only
    rw [settle_tcb, setTcb_self, setTcb_setTcb]
  · rename_i hc
    rw [if_neg hc] at hm
    exact Moved.one hm

omit [Fintype T] in
theorem moved_clrflg (k : Kernel T) (t : T) (e : ℕ) : Moved E k (k.clrflg t e).1 := by
  unfold clrflg
  split
  · exact Moved.refl k
  · exact Moved.one (.clrflg _ _)

/-- `FLWAIT`, `FLSTOP` and their variants for a set of flags. -/
theorem moved_waitlo (m : BitVec 32) {f : Tcb T → Outcome T} (h : (k.tcb t).home = .rlist)
    (hf : ∀ b : Tcb T, b.home = .rlist → Move (E t) .tau b (f { b with wait := m }).tcb) :
    Moved E k ((k.setTcb t { k.tcb t with wait := m }).onTask t f).1 := by
  unfold Kernel.onTask
  split
  · exact Moved.one (.mask _ m h)
  · refine (Moved.one (hf _ h)).congr ?_
    rw [settle_tcb, setTcb_self, setTcb_setTcb]

theorem moved_setmsk (e : ℕ) {f : Tcb T → Outcome T} (h : (k.tcb t).home = .rlist)
    (hf : ∀ (b : Tcb T) m, b.home = .rlist → Move (E t) .tau b (f { b with wait := m }).tcb) :
    Moved E k (k.setmsk t e f).1 := by
  unfold setmsk
  split
  · exact Moved.one (.mask _ 0 h)
  · exact moved_waitlo _ h fun b => hf b _

omit [DecidableEq T] [Fintype T] in
theorem queue_of_qast {E : Env T} {c : Tcb T} {a : AstType} {addr : ℕ} {dat : List UInt8}
    {mem : Bool} (h : b.qast a addr dat mem = some c)
    (he : a.unspecified = true → addr ≠ 0 → mem = true → E.event a b) :
    ∃ x, Move E (.queue x) b c.setast.tcb := by
  unfold Tcb.qast at h
  dsimp only at h
  split at h
  · exact nomatch h
  rename_i addr' ha
  split at h
  · exact nomatch h
  rename_i hq
  rw [not_or] at hq
  cases h
  refine ⟨_, .queue b _ a ⟨a, false, addr', dat⟩ rfl ⟨rfl, rfl⟩ (fun hs hn => ?_) fun hu => ?_⟩
  · rw [hs, hn] at ha
    exact nomatch ha
  · rw [hu] at ha
    obtain rfl : addr = addr' := Option.some.inj ha
    exact he hu hq.1 (by simpa using hq.2)

theorem moved_qast (k : Kernel T) (t : T) {a : AstType} (addr : ℕ) (dat : List UInt8) (mem : Bool)
    (he : a.unspecified = true → addr ≠ 0 → mem = true → (E t).event a (k.tcb t)) :
    Moved E k (k.qast t a addr dat mem) := by
  unfold qast
  split
  · exact Moved.refl k
  · rename_i c hc
    obtain ⟨x, hx⟩ := queue_of_qast hc he
    exact Moved.settle hx

omit [Fintype T] in
theorem moved_enqueue (k : Kernel T) (t : T) (i : Item T) : Moved E k (k.enqueue t i) :=
  Moved.one (.rcvl _ _)

theorem moved_send (k : Kernel T) (t : T) (i : Item T) (mem : Bool) :
    Moved E k (k.send t i mem).1 := by
  unfold send
  have h₁ : Moved E k (k.enqueue t i) := moved_enqueue k t i
  dsimp only
  split
  · exact h₁
  · have h₂ := h₁.trans (moved_qast (E := E) (k.enqueue t i) t 0 [] mem (a := .rd) nofun)
    have h₃ := h₂.trans (Moved.one (.datain (((k.enqueue t i).qast t .rd 0 [] mem).tcb t)))
    split
    · exact h₃.congr rfl
    · exact h₃.congr (settle_tcb _)

omit [Fintype T] in
theorem moved_recv (k : Kernel T) : Moved E k k.recv.1 := by
  unfold recv
  split
  · exact Moved.refl k
  split
  · exact Moved.refl k
  · exact Moved.one (.rcvl _ _)

theorem moved_qldr (k : Kernel T) (t : T) : Moved E k (k.qldr t).1 := by
  unfold qldr
  split
  · exact Moved.refl k
  · exact (moved_enqueue k _ _).trans (Moved.onTask fun b _ => .ldrin b)

omit [Fintype T] in
theorem moved_dequeue (k : Kernel T) (t : T) : Moved E k (k.dequeue t) := by
  unfold dequeue
  split
  · exact Moved.refl k
  · exact Moved.one (.rcvl _ _)

/-! ## The debugger -/

theorem moved_dbbrk (k : Kernel T) (t : T) : Moved E k (k.dbbrk t).1 := by
  unfold dbbrk
  split
  · exact Moved.refl k
  · exact Moved.settle (.setBpt _ true)

theorem moved_dbres (k : Kernel T) (t : T) : Moved E k (k.dbres t).1 :=
  Moved.settle (.setBpt _ false)

omit [Fintype T] in
theorem Moved.link (h : Moved E k k') (t : T) (x : Option (Xdt T)) :
    Moved E k (k'.setCtx t fun c => { c with xdt := x }) :=
  h.trans (Moved.one (.link _ x))

omit [Fintype T] in
theorem Moved.mark (h : Moved E k k') (t : T) (v : Bool) :
    Moved E k (k'.setTcb t { k'.tcb t with st := { (k'.tcb t).st with xdt := v } }) :=
  h.trans (Moved.one (.mark _ v))

omit [Fintype T] in
theorem moved_attach (k : Kernel T) (g t : T) (efn dsb d : ℕ) :
    Moved E k (k.attach g t efn dsb d) := by
  have h₁ : Moved E k { k with xdb := Function.update k.xdb d (some ⟨g, dsb, efn⟩) } :=
    (Moved.refl k).congr rfl
  exact ((h₁.link t (some (.desc d))).mark g true).link g (some (.task t))

omit [Fintype T] in
theorem moved_detach (k : Kernel T) (g t : T) (d : ℕ) : Moved E k (k.detach g t d) := by
  have h₁ : Moved E k { k with xdb := Function.update k.xdb d none } := (Moved.refl k).congr rfl
  exact ((h₁.link t none).mark g false).link g none

omit [Fintype T] in
theorem moved_dbcon (k : Kernel T) (t : T) (efn dsb : ℕ) (d : Option ℕ) :
    Moved E k (k.dbcon t efn dsb d).1 := by
  unfold dbcon
  repeat' split
  all_goals first | exact Moved.refl k | exact moved_attach _ _ _ _ _ _

theorem moved_dbdis (k : Kernel T) (t : T) : Moved E k (k.dbdis t).1 := by
  have h₁ : Moved E k (k.dbres t).1 := moved_dbres k t
  unfold dbdis
  split
  · exact h₁
  · dsimp only
    split
    · exact h₁
    · exact h₁.congr rfl
    · split
      · exact h₁.congr rfl
      · exact h₁.trans (moved_detach _ _ _ _)

theorem moved_sdinfo (k : Kernel T) (t : T) {a : AstType} (addr : ℕ) (dat : List UInt8)
    (m₁ m₂ : Bool) : Moved E k (k.sdinfo t a addr dat m₁ m₂) := by
  unfold sdinfo
  split
  · split
    · exact (Moved.one (.special _ _ rfl)).trans (moved_qast _ t 0 _ m₂ fun _ h => absurd rfl h)
    · exact Moved.refl k
  · exact (Moved.one (.write _ _)).trans (moved_qast _ t 0 _ m₂ fun _ h => absurd rfl h)

theorem moved_dbnot (k : Kernel T) (t : T) (dat : List UInt8) (m₁ m₂ : Bool) :
    Moved E k (k.dbnot t dat m₁ m₂).1 := by
  unfold dbnot
  split
  · exact Moved.refl k
  · exact (Moved.refl k).congr rfl
  · split
    · exact (Moved.refl k).congr rfl
    · rename_i x _
      have h₁ : Moved E k (k.sdinfo x.tcb .db x.dsb dat m₁ m₂) := moved_sdinfo k _ _ _ _ _
      dsimp only
      split
      · exact h₁
      · exact h₁.trans (moved_setflg _ _ _)

theorem moved_clndbg (k : Kernel T) (t : T) (dat : List UInt8) (m₁ m₂ : Bool) :
    Moved E k (k.clndbg t dat m₁ m₂) := by
  unfold clndbg
  split
  · exact Moved.refl k
  · exact moved_dbdis k _
  · exact (Moved.refl k).congr rfl
  · exact (moved_dbnot k t dat m₁ m₂).trans (moved_dbdis _ t)

/-! ## Start, load and kill -/

omit [Fintype T] in
theorem moved_unlist (k : Kernel T) (t : T) : Moved E k (k.unlist t) := by
  unfold unlist
  split
  · have h₁ : Moved E k { k with tlist := k.tlist.erase t } := (Moved.refl k).congr rfl
    exact h₁.trans (Moved.one (.rem _))
  · exact Moved.refl k

theorem moved_tkill2 (h : (k.tcb t).st1.abo = true) : Moved E k (k.tkill2 t).1 := by
  unfold tkill2
  split
  · exact Moved.refl k
  · have h₁ : Moved E k (k.unlist t) := moved_unlist k t
    have habo : ((k.unlist t).tcb t).st1.abo = true := by
      unfold unlist
      split
      · rw [setTcb_self]
        exact h
      · exact h
    dsimp only
    split
    · exact h₁
    · rename_i iy _
      have h₂ : Moved E k { k.unlist t with actl := (k.unlist t).actl.unlink iy t } := h₁.congr rfl
      exact h₂.trans (Moved.one (.ended _ habo))

theorem tgo2_tcb (k : Kernel T) (t : T) : (k.tgo2 t).1.tcb = k.tcb := by
  unfold tgo2
  split
  · rfl
  · split <;> rfl

theorem moved_ldgo (k : Kernel T) (t : T) : Moved E k (k.ldgo t).1 := by
  unfold ldgo
  dsimp only
  split
  · rename_i ha
    exact moved_tkill2 ha
  rename_i ha
  have hm := Move.loaded (E := E t) (k.tcb t) (by simpa using ha)
  unfold Tcb.loaded at hm
  split
  · rename_i hact
    rw [if_neg (by simpa using hact)] at hm
    exact Moved.one hm
  · rename_i hact
    rw [if_pos (by simpa using hact)] at hm
    exact (Moved.one hm).congr (tgo2_tcb _ _)

theorem moved_ldckr (k : Kernel T) (t : T) : Moved E k (k.ldckr t).1 := by
  unfold ldckr
  dsimp only
  have h₁ := Moved.one (E := E) (k := k) (.ldckr (k.tcb t))
  split
  · rename_i ha
    exact h₁.trans (moved_tkill2 (by rw [setTcb_self]; exact ha))
  · split
    · exact h₁.congr (tgo2_tcb _ _)
    · exact h₁

theorem moved_ldckw (k : Kernel T) (t : T) : Moved E k (k.ldckw t).1 := by
  unfold ldckw
  dsimp only
  split
  · rename_i ha
    exact moved_tkill2 ha
  · exact Moved.one (.ldckw _)

theorem moved_chkpt (k : Kernel T) (t : T) (space : Bool) : Moved E k (k.chkpt t space).1 := by
  unfold chkpt
  dsimp only
  split
  · exact Moved.refl k
  split
  · exact Moved.refl k
  split
  · exact Moved.refl k
  split
  · exact Moved.one (.ckr _)
  split
  · exact Moved.refl k
  have h₁ := Moved.one (E := E) (k := k) (.chkpt (k.tcb t))
  split
  · exact h₁.trans (moved_qldr _ t)
  · refine Moved.trans ?_ (moved_qldr _ t)
    exact h₁.congr rfl

theorem moved_trqst2 (k : Kernel T) (t : T) (mcr ok : Bool) : Moved E k (k.trqst2 t mcr ok).1 := by
  unfold trqst2
  dsimp only
  split
  · exact Moved.refl k
  rename_i hact
  have ha : (k.tcb t).st.act = false := by simpa using hact
  split
  · exact Moved.one (.reset _ mcr ha)
  have h₁ := Moved.one (E := E) (.request (k.tcb t) mcr ha)
  split
  · refine (Moved.one (E := E) (.load (k.tcb t) mcr ha)).congr ?_
    exact Function.update_idem ..
  split
  · exact h₁.congr (lktcb_tcb ..)
  · exact (h₁.congr (lktcb_tcb ..)).trans (moved_ldgo _ t)

omit [Fintype T] in
theorem moved_unfix (h : (k.tcb t).st.act = false) : Moved E k (k.unfix t).1 := by
  unfold unfix
  dsimp only
  split
  · exact Moved.refl k
  · exact Moved.one (.unfix _ h)

omit [Fintype T] in
theorem moved_remtk (k : Kernel T) (t : T) : Moved E k (k.remtk t).1 := by
  unfold remtk
  split
  · exact Moved.refl k
  split
  · exact Moved.refl k
  · rename_i hact
    exact (moved_unfix (E := E) (k := k) (t := t) (by simpa using hact)).congr rfl

theorem moved_tk6 (v : KillEnv) (h : (k.tcb t).st1.abo = true) : Moved E k (k.tk6 t v).1 := by
  unfold tk6
  dsimp only
  split
  · split
    · exact Moved.refl k
    split
    · exact Moved.refl k
    have h₁ : Moved E k (if v.waiting then k else k.dequeue t) := by
      split
      · exact Moved.refl k
      · exact moved_dequeue k t
    have habo : ((if v.waiting then k else k.dequeue t).tcb t).st1.abo = true := by
      split
      · exact h
      · unfold dequeue
        split
        · exact h
        · rename_i l _
          rcases eq_or_ne t l with rfl | hl
          · rw [setTcb_self]
            exact h
          · rw [setTcb_of_ne hl]
            exact h
    split
    · exact h₁
    · exact h₁.trans (moved_tkill2 habo)
  · split
    · exact Moved.refl k
    · exact moved_tkill2 h

/-- `TKILL` aborts the task for reason `e`. -/
theorem moved_tkill (k : Kernel T) (t : T) {e : ℕ} (v : KillEnv)
    (he : k.Mortal t → (E t).abort (v.oio ||| e)) : Moved E k (k.tkill t e v).1 := by
  unfold tkill
  dsimp only
  split
  · exact Moved.refl k
  rename_i hs
  split
  · exact Moved.refl k
  rename_i hact
  split
  · exact Moved.refl k
  rename_i habo
  rw [not_or] at hs
  have hm : k.Mortal t := ⟨hs.1, hs.2, by simpa using hact, by simpa using habo⟩
  have h₁ : Moved E k (k.tkill1 t e v) := by
    have h₂ : Moved E k (k.clndbg t v.dat v.m₁ v.m₂) := moved_clndbg k t _ _ _
    exact h₂.trans (Moved.settle (.abort _ _ v.ioc (he hm)))
  have ha : ((k.tkill1 t e v).tcb t).st1.abo = true := by
    unfold tkill1
    rw [settle_tcb, setTcb_self]
  split
  · exact h₁
  · exact h₁.trans (moved_tk6 v ha)

/-! ## Delivery of ASTs -/

theorem settle_roles (k : Kernel T) (t : T) (o : Outcome T) :
    (k.settle t o).mcrtcb = k.mcrtcb ∧ (k.settle t o).ldrtcb = k.ldrtcb := by
  unfold settle
  dsimp only
  split <;> exact ⟨rfl, rfl⟩

theorem moved_doast (hr : k.Running t) {e : ℕ} {v : KillEnv}
    (he : (k.tcb t).Overflow → k.Mortal t → (E t).abort (v.oio ||| e)) :
    Moved E k (k.doast t e v).1 := by
  have h₁ : Moved E k (k.setTcb t (k.tcb t).drain) := Moved.one (.drain _)
  have h₂ : Moved E k ((k.setTcb t (k.tcb t).drain).setast t).1 := by
    refine h₁.trans (Moved.settle (.setast _ ?_))
    rw [setTcb_self]
    exact hr.2.2
  unfold doast
  dsimp only
  rw [setTcb_self]
  split
  · exact h₁
  rename_i hne
  split
  · exact h₁
  rename_i hret
  have hast := Tcb.setast_of_ok (not_not.mp hret)
  have hastl := (k.tcb t).drain.setast_astl
  have habo : (k.tcb t).st1.abo = false := by
    rw [(Tcb.home_eq_rlist.mp hr.2.2).1]
    rfl
  have hmove := Tcb.deliver_moves (E := E t) hast ((Tcb.setast_abo _).trans habo) (hastl ▸ hne)
  rw [setast_drain_tcb]
  split
  · rename_i c hd
    rw [hd] at hmove
    refine h₂.trans (Moved.runs ?_)
    rw [setast_drain_tcb]
    exact hmove
  · rename_i c hd
    rw [hd] at hmove
    have hover : (k.tcb t).Overflow := ⟨hne, not_not.mp hret, by rw [hd]⟩
    have h₃ : Moved E k (((k.setTcb t (k.tcb t).drain).setast t).1.setTcb t c) := by
      refine h₂.trans (Moved.runs ?_)
      rw [setast_drain_tcb]
      exact hmove
    refine h₃.trans (moved_tkill _ t v fun hm => he hover ?_)
    refine ⟨fun hc => hm.1 ?_, fun hc => hm.2.1 ?_, hr.2.1, habo⟩
    · exact (settle_roles _ t _).1.trans hc
    · exact (settle_roles _ t _).2.trans hc

/-- A task that leaves an AST to wait for a flag is found on the waiting list. -/
theorem found_of_ok (h : k.Ok) (hr : k.Running t) (hs : (k.tcb t).svst.ast = true →
    (k.tcb t).st.ast = true) (hast : (k.tcb t).svst.ast = true)
    (ho : (k.tcb t).astext = (o, true)) : ((k.settle t o).fntcb t).isSome = true := by
  have hst : (k.tcb t).astext.1 = o := congrArg Prod.fst ho
  have hfits := Tcb.astext_fits hr.2.2 (h.svst_act hr (hs hast))
  rw [hst] at hfits
  obtain ⟨l, hl⟩ := h.settle hfits
  rw [← Option.isNone_eq_false_iff, Bool.eq_false_iff, ne_eq, Option.isNone_iff_eq_none,
    hl.fntcb_eq_none, settle_tcb, setTcb_self, hfits.act, hr.2.1]
  exact nofun

theorem moved_astext (hr : k.Running t) {e : ℕ} {v : KillEnv}
    (he : (k.tcb t).astext.2 = false → k.Mortal t → (E t).abort (v.oio ||| e))
    (hl : (E t).lost ∨
      k.Ok ∧ ((k.tcb t).svst.ast = true → (k.tcb t).st.ast = true)) :
    Moved E k (k.astext t e v).1 := by
  unfold astext
  split
  · exact Moved.refl k
  rename_i hs
  have hast : (k.tcb t).svst.ast = true := by simpa using hs
  have hst : (E t).lost ∨ (k.tcb t).st.ast = true := hl.imp_right fun h => h.2 hast
  split
  · rename_i o ho
    refine (Moved.one (.badext _ o hr.2.2 hast ho)).trans (moved_tkill _ t v fun hm => ?_)
    have habo : (k.tcb t).st1.abo = false := by
      rw [(Tcb.home_eq_rlist.mp hr.2.2).1]
      rfl
    exact he (by rw [ho]) ⟨hm.1, hm.2.1, hr.2.1, habo⟩
  · rename_i o ho
    dsimp only
    rw [settle_tcb, setTcb_self]
    split
    · rename_i hw
      have hwoken : Tcb.Woken o := ⟨hw.1, hw.2.1, hw.2.2⟩
      cases hf : (k.settle t o).fntcb t with
      | some iy =>
        refine (Moved.one (.wake _ o hr.2.2 hast hst ho hwoken)).congr ?_
        unfold tcont onTask
        rw [hf]
        dsimp only
        have hu : ∀ c : Tcb T, ((k.settle t o).setTcb t c).tcb = (k.setTcb t c).tcb := by
          intro c
          unfold Kernel.setTcb
          dsimp only
          rw [settle_tcb]
          exact Function.update_idem ..
        rw [settle_tcb, settle_tcb, setTcb_self, hu]
      | none =>
        rcases hl with hl | ⟨hok, hast'⟩
        · refine (Moved.settle (.lost _ o hr.2.2 hast ho hl)).congr ?_
          unfold tcont onTask
          rw [hf]
        · have hfound := found_of_ok hok hr hast' hast ho
          rw [hf] at hfound
          exact nomatch hfound
    · rename_i hw
      refine Moved.settle (.exit _ o hr.2.2 hast hst ho fun hc => hw ⟨hc.1, ?_, hc.2.2⟩)
      exact hc.2.1

/-! ## Requests and priorities -/

theorem moved_altpri (k : Kernel T) (t : T) (e : ℕ) (inst : Bool) :
    Moved E k (k.altpri t e inst).1 := by
  have hrepri : ∀ (k k' : Kernel T) q e, k.repri q t e = some k' → Moved E k k' := by
    intro k k' q e hk
    unfold repri at hk
    obtain ⟨iy, -, rfl⟩ := Option.map_eq_some_iff.mp hk
    exact (Moved.one (.pri _ e _)).congr rfl
  have haltp5 : ∀ (k : Kernel T) e, Moved E k (k.altp5 t e) := by
    intro k e
    unfold altp5
    cases h₁ : k.repri .rlist t e with
    | some k' => exact hrepri _ _ _ _ h₁
    | none =>
      cases h₂ : k.repri .wlist t e with
      | some k' => exact hrepri _ _ _ _ h₂
      | none => exact Moved.refl k
  unfold altpri
  dsimp only
  generalize (if e = 0 then (k.tcb t).dpri else e) = n
  split
  · exact Moved.refl k
  split
  · split
    · exact Moved.refl k
    · refine Moved.trans ?_ (haltp5 _ n)
      exact (Moved.one (.pri (k.tcb t) n n)).congr rfl
  · exact haltp5 k n

omit [Fintype T] in
theorem moved_astdcl (hr : k.Running t) (a : AstType) (addr seen : ℕ) (mem : Bool) :
    Moved E k (k.astdcl t a addr seen mem).1 := by
  unfold astdcl
  dsimp only
  split
  · exact Moved.refl k
  split
  · split
    · exact Moved.refl k
    split
    · refine Moved.one (.purge _ _ _ hr.2.2 ?_)
      have h := (List.filter_sublist (l := (k.tcb t).astl.take seen)
        (p := fun c => !(c.typ = a && !c.special))).append (List.Sublist.refl ((k.tcb t).astl.drop seen))
      rwa [List.take_append_drop] at h
    · exact Moved.one (.astdcl _ _ hr.2.2)
  · split
    · exact Moved.refl k
    split
    · exact Moved.refl k
    · exact Moved.one (.astdcl _ _ hr.2.2)

end Kernel

/-! ## Every operation -/

section

variable [DecidableEq T] [Fintype T]

instance (k : Kernel T) (t : T) : Decidable (k.Mortal t) :=
  inferInstanceAs (Decidable (_ ∧ _ ∧ _ ∧ _))

instance (b : Tcb T) : Decidable b.Overflow := inferInstanceAs (Decidable (_ ∧ _ ∧ _))

/-- The task the operation calls `TKILL` for, where that goes ahead, with the reason and the bit
`IOKILL` returns. -/
def Op.kill (k : Kernel T) : Op T → Option (T × ℕ × ℕ)
  | .tkill t e v => if k.Mortal t then some (t, e, v.oio) else none
  | .doast t e v => if (k.tcb t).Overflow ∧ k.Mortal t then some (t, e, v.oio) else none
  | .astext t e v =>
    if (k.tcb t).svst.ast = true ∧ (k.tcb t).astext.2 = false ∧ k.Mortal t then
      some (t, e, v.oio)
    else none
  | _ => none

/-- The operation queues an event of type `a`, one that needs no control block, to `t`. -/
def Op.Queues (t : T) (a : AstType) : Op T → Prop
  | .qast u b addr _ mem => u = t ∧ b = a ∧ a.unspecified = true ∧ addr ≠ 0 ∧ mem = true
  | _ => False

/-- Every operation has every task make a run of moves. -/
theorem Op.moved {E : T → Env T} {k : Kernel T} {op : Op T} (hr : op.Ready k)
    (hk : ∀ t e oio, op.kill k = some (t, e, oio) → (E t).abort (oio ||| e))
    (hq : ∀ t a, op.Queues t a → (E t).event a (k.tcb t))
    (hi : ∀ t b, op = .install t b → (E t).fresh b)
    (hl : ∀ t e v, op = .astext t e v → (E t).lost ∨
      k.Ok ∧ ((k.tcb t).svst.ast = true → (k.tcb t).st.ast = true)) :
    k.Moved E (op.run k) := by
  cases op with
  | dsptch elapsed => exact k.moved_dsptch elapsed
  | tstop t => exact Kernel.Moved.onTask fun b _ => .stop b
  | tresum t => exact Kernel.Moved.onTask fun b _ => .resume b
  | tcont t => exact Kernel.Moved.onTask fun b _ => .cont b
  | setflg t e => exact k.moved_setflg t e
  | clrflg t e => exact k.moved_clrflg t e
  | flwait t e => exact Kernel.moved_setmsk e hr.2.2 fun b m => .flwait b m
  | flwtlo t m => exact Kernel.moved_waitlo m hr.2.2 fun b => .flwait b m
  | flstop t e => exact Kernel.moved_setmsk e hr.2.2 fun b m => .flstop b m
  | flstlo t m => exact Kernel.moved_waitlo m hr.2.2 fun b => .flstop b m
  | send t i mem => exact k.moved_send t i mem
  | recv => exact k.moved_recv
  | wtdat t =>
    refine Kernel.Moved.onTask fun b hb => .wtdat b ?_
    rw [hb]
    exact hr.2.2
  | qldr t => exact k.moved_qldr t
  | taken t => exact k.moved_dequeue t
  | qast t a addr dat mem =>
    exact k.moved_qast t addr dat mem fun hu ha hm => hq t a ⟨rfl, rfl, hu, ha, hm⟩
  | sdinfo t a addr dat m₁ m₂ =>
    exact k.moved_sdinfo t addr dat m₁ m₂
  | astdcl t a addr seen mem => exact Kernel.moved_astdcl hr a addr seen mem
  | astctl t on => exact Kernel.Moved.one (.astctl _ on hr.2.2)
  | doast t e v => exact Kernel.moved_doast hr fun ho hm => hk t e _ (if_pos ⟨ho, hm⟩)
  | astext t e v =>
    cases hs : (k.tcb t).svst.ast with
    | false =>
      have he : (Op.astext t e v).run k = k := by
        simp only [Op.run, Kernel.astext, hs, Bool.not_false, if_true]
      rw [he]
      exact Kernel.Moved.refl k
    | true => exact Kernel.moved_astext hr (fun ho hm => hk t e _ (if_pos ⟨hs, ho, hm⟩)) (hl t e v rfl)
  | dbcon t efn dsb d => exact k.moved_dbcon t efn dsb d
  | dbdis t => exact k.moved_dbdis t
  | dbbrk t => exact k.moved_dbbrk t
  | dbres t => exact k.moved_dbres t
  | dbnot t dat m₁ m₂ => exact k.moved_dbnot t dat m₁ m₂
  | altpri t e inst => exact k.moved_altpri t e inst
  | setsv t on =>
    simp only [Op.run, Kernel.setsv]
    split
    · exact Kernel.Moved.refl k
    · exact Kernel.Moved.one (.sup _ on hr.2.2)
  | trqst2 t mcr ok => exact k.moved_trqst2 t mcr ok
  | fixtk t ok =>
    simp only [Op.run, Kernel.fixtk]
    split
    · exact Kernel.Moved.refl k
    rename_i hact
    split
    · exact Kernel.Moved.refl k
    split
    · exact Kernel.Moved.refl k
    · exact Kernel.Moved.one (.fix _ (by simpa using hact))
  | unftk t =>
    simp only [Op.run, Kernel.unftk]
    split
    · exact Kernel.Moved.refl k
    · rename_i hact
      exact Kernel.moved_unfix (by simpa using hact)
  | remtk t => exact k.moved_remtk t
  | install t b => exact (Kernel.Moved.one (.install _ b hr.2.1 hr.2.2.1 hr.2.2.2 (hi t b rfl))).congr rfl
  | ldgo t => exact k.moved_ldgo t
  | ldckr t => exact k.moved_ldckr t
  | ldckw t => exact k.moved_ldckw t
  | chkpt t space => exact k.moved_chkpt t space
  | tkill t e v => exact k.moved_tkill t v fun hm => hk t e _ (if_pos hm)
  | tkill2 t => exact Kernel.moved_tkill2 hr
  | io t n => exact Kernel.Moved.one (.io _ n)
  | user t m sp pc af =>
    refine (Kernel.Moved.one (.user (k.tcb t) m sp pc af hr.2.2)).congr ?_
    simp only [Op.run, Kernel.user, Kernel.setCtx, Kernel.setTcb_self, Kernel.setTcb_setTcb]

end

end RSX280.Sched
