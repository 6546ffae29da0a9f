import RSX280.SchedRuns

/-!
# Debugger links

A debugger and the task it debugs are connected through `TX.XDT`: in the debugger it
points to the control block of the other, in the debugged task to a descriptor that
names the debugger. Which of the two it is, `TS.XDT` tells, which is set in the
debugger.

What a task says about itself is `Tcb.Tied`; that the two sides agree, and that every
descriptor in the pool is in use, is `Kernel.Linked`. Nearly all operations leave the
links alone (`Kernel.Calm`).
-/

namespace RSX280.Sched

open Links

universe u

variable {T : Type u}

/-! ## One task -/

/-- `TX.XDT`. -/
def Tcb.xdt (b : Tcb T) : Option (Xdt T) := b.ctx.bind (·.xdt)

/-- `TX.XDT` points to a task. -/
def Tcb.leads (b : Tcb T) : Bool :=
  match b.xdt with
  | some (.task _) => true
  | _ => false

/-- `TS.XDT` of the task: in `T.SVST` while it executes ASTs. A task that is being aborted
has a reason code there. -/
def Tcb.marked (b : Tcb T) : Bool := if b.st.ast && !b.st1.abo then b.svst.xdt else b.st.xdt

/-- The marks and the link of a task go together, and only a task that is active and not
being aborted has a link. -/
structure Tcb.Tied (b : Tcb T) : Prop where
  mark : b.marked = b.leads
  hidden : b.st.ast = true → b.st.xdt = false
  alive : b.xdt ≠ none → b.st.act = true ∧ b.st1.abo = false
  saved : b.st.ast = true → b.st1.abo = false → b.svst1.abo = false

/-- All this depends on. -/
def Tcb.tie (b : Tcb T) : Option (Xdt T) × Bool × Bool × Bool × Bool × Bool × Bool :=
  (b.xdt, b.st.xdt, b.st.ast, b.st.act, b.st1.abo, b.svst.xdt, b.svst1.abo)

namespace Tcb

variable {b c : Tcb T}

theorem Tied.congr (h : b.Tied) (he : c.tie = b.tie) : c.Tied := by
  have h₁ : c.xdt = b.xdt := congrArg (·.1) he
  have h₂ : c.st.xdt = b.st.xdt := congrArg (·.2.1) he
  have h₃ : c.st.ast = b.st.ast := congrArg (·.2.2.1) he
  have h₄ : c.st.act = b.st.act := congrArg (·.2.2.2.1) he
  have h₅ : c.st1.abo = b.st1.abo := congrArg (·.2.2.2.2.1) he
  have h₆ : c.svst.xdt = b.svst.xdt := congrArg (·.2.2.2.2.2.1) he
  have h₇ : c.svst1.abo = b.svst1.abo := congrArg (·.2.2.2.2.2.2) he
  have hm : c.marked = b.marked := by rw [marked, h₂, h₃, h₅, h₆]; rfl
  have hl : c.leads = b.leads := by rw [leads, h₁]; rfl
  refine ⟨hm.trans (h.mark.trans hl.symm), ?_, ?_, ?_⟩
  · rw [h₂, h₃]
    exact h.hidden
  · rw [h₁, h₄, h₅]
    exact h.alive
  · rw [h₃, h₅, h₇]
    exact h.saved

/-- Outside AST state the mark is in `T.ST`. -/
theorem marked_of_not_ast (h : b.st.ast = false) : b.marked = b.st.xdt := by
  rw [marked, h]
  rfl

theorem leads_eq_true : b.leads = true ↔ ∃ t, b.xdt = some (.task t) := by
  unfold leads
  constructor
  · intro h
    split at h
    · exact ⟨_, ‹_›⟩
    · exact nomatch h
  · rintro ⟨t, ht⟩
    rw [ht]

theorem leads_of_none (h : b.xdt = none) : b.leads = false := by
  unfold leads
  rw [h]

/-- A task with `TS.XDT` in `T.ST` is a debugger. -/
theorem Tied.leads_of_xdt (h : b.Tied) (hx : b.st.xdt = true) : b.leads = true := by
  have hast : b.st.ast = false := by
    cases ha : b.st.ast with
    | false => rfl
    | true => exact nomatch hx.symm.trans (h.hidden ha)
  rw [← h.mark, marked_of_not_ast hast, hx]

/-- A task without a link is not marked. -/
theorem Tied.xdt_eq_false (h : b.Tied) (hx : b.xdt = none) : b.st.xdt = false := by
  by_contra hc
  obtain ⟨t, ht⟩ := leads_eq_true.mp (h.leads_of_xdt (by simpa using hc))
  exact nomatch hx.symm.trans ht

/-! ### The decisions -/

theorem tstop_tie (b : Tcb T) : b.tstop.tcb.tie = b.tie := by
  unfold tstop
  split_ifs <;> rfl

theorem tresum_tie (b : Tcb T) : b.tresum.tcb.tie = b.tie := by
  unfold tresum
  dsimp only
  split_ifs <;> rfl

theorem tcont2_tie {x : Blocking} (hx : x.abo = b.st1.abo) : (b.tcont2 x).tcb.tie = b.tie := by
  have he : tie { b with st1 := x } = b.tie := by simp [tie, hx]; rfl
  unfold tcont2
  split_ifs
  · exact he
  · exact he
  · exact he

theorem tcont_tie (b : Tcb T) : b.tcont.tcb.tie = b.tie := by
  unfold tcont
  split_ifs
  · exact tcont2_tie rfl
  · exact tcont2_tie rfl
  · rfl

theorem flwait0_tie (b : Tcb T) : b.flwait0.tcb.tie = b.tie := by
  unfold flwait0
  split_ifs <;> rfl

theorem flstop0_tie (b : Tcb T) : b.flstop0.tcb.tie = b.tie := by
  unfold flstop0
  split_ifs <;> rfl

theorem wtdat_tie (b : Tcb T) : b.wtdat.tcb.tie = b.tie := by
  unfold wtdat
  split_ifs <;> rfl

theorem datain_tie (b : Tcb T) : b.datain.tcb.tie = b.tie := by
  unfold datain
  dsimp only
  split_ifs <;> rfl

theorem ldrin_tie (b : Tcb T) : b.ldrin.tcb.tie = b.tie := by
  unfold ldrin
  dsimp only
  split_ifs <;> rfl

theorem qast_tie {a : AstType} {addr : ℕ} {dat : List UInt8} {mem : Bool}
    (h : b.qast a addr dat mem = some c) : c.tie = b.tie := by
  unfold qast at h
  dsimp only at h
  split at h
  · exact nomatch h
  · split_ifs at h
    cases h
    rfl

theorem deliver_tie (b : Tcb T) : b.deliver.1.tie = b.tie := by
  unfold deliver
  split
  · rfl
  split
  · rfl
  dsimp only
  unfold starg
  cases hc : b.ctx with
  | none => simp [tie, xdt, hc]
  | some c =>
    dsimp only
    split
    · rename_i h
      split at h <;> cases h
      simp [tie, xdt, hc]
    · rename_i h
      split at h <;> cases h
      simp [tie, xdt, hc]

/-- `SETAST` takes the mark to `T.SVST` with the rest of the status. -/
theorem Tied.setast (h : b.Tied) : b.setast.tcb.Tied := by
  unfold Tcb.setast
  split
  · exact h
  rename_i hast
  split
  · exact h
  split
  · exact h
  rename_i c hc
  have hmark := h.mark
  rw [marked_of_not_ast (Bool.eq_false_iff.mpr hast)] at hmark
  have hnone : b.st1.abo = true → b.st.xdt = false := by
    intro habo
    refine h.xdt_eq_false ?_
    by_contra hne
    exact nomatch habo.symm.trans (h.alive hne).2
  have hx : b.xdt = c.xdt := by rw [xdt, hc]; rfl
  have htied : ∀ x : Blocking, x.abo = b.st1.abo → Tied { b with
      ctx := some { c with swm := b.wait }
      wait := 0
      svst := b.st
      svst1 := b.st1
      st := { act := b.st.act, sup := b.st.sup, ast := true }
      st1 := x } := by
    intro x hxa
    refine ⟨?_, fun _ => rfl, ?_, fun _ ha => hxa ▸ ha⟩
    · have hl : leads { b with
          ctx := some { c with swm := b.wait }
          wait := 0
          svst := b.st
          svst1 := b.st1
          st := { act := b.st.act, sup := b.st.sup, ast := true }
          st1 := x } = b.leads := by
        unfold leads
        rw [hx]
        rfl
      rw [hl, ← hmark]
      unfold marked
      dsimp only
      rw [hxa]
      cases habo : b.st1.abo with
      | false => rfl
      | true => exact (hnone habo).symm
    · intro hne
      dsimp only
      rw [hxa]
      refine h.alive fun he => hne ?_
      exact hx.symm.trans he
  dsimp only
  split
  · exact htied _ rfl
  · split
    · exact htied _ rfl
    · exact htied _ rfl

theorem astext_xdt (b : Tcb T) : b.astext.1.tcb.xdt = b.xdt := by
  unfold astext
  dsimp only
  unfold rmarg
  cases hc : b.ctx with
  | none => simp [xdt, hc]
  | some c =>
    dsimp only
    split
    · rename_i h
      split at h <;> cases h
      simp [xdt, hc]
    · rename_i h
      split at h <;> cases h
      split
      · simp [xdt, hc]
      · unfold astx3
        dsimp only
        split <;> simp [xdt, hc]

/-- `ASTEXT` by a task in AST state brings the mark back. -/
theorem Tied.astext (h : b.Tied) (hast : b.st.ast = true) (habo : b.st1.abo = false)
    (hact : b.svst.act = b.st.act) : b.astext.1.tcb.Tied := by
  have hx := b.astext_xdt
  have hmark : b.svst.xdt = b.leads := by
    rw [← h.mark, marked, hast, habo]
    rfl
  unfold Tcb.astext at hx ⊢
  dsimp only at hx ⊢
  unfold rmarg at hx ⊢
  cases hc : b.ctx with
  | none =>
    refine h.congr ?_
    simp [tie, xdt, hc]
  | some c =>
    rw [hc] at hx
    dsimp only at hx ⊢
    split
    · rename_i hr
      split at hr <;> cases hr
      refine h.congr ?_
      simp [tie, xdt, hc]
    · rename_i hr
      rw [hr] at hx
      split at hr <;> cases hr
      split
      · refine h.congr ?_
        simp [tie, xdt, hc]
      · rename_i hm
        have hexit : ∀ c' : Tcb T, c'.xdt = b.xdt → c'.svst.ast = false → c'.svst.xdt = b.svst.xdt →
            c'.svst.act = b.svst.act → c'.svst1.abo = b.svst1.abo → ∀ m,
            (c'.astx3 m).tcb.Tied := by
          intro c' h₁ h₂ h₃ h₄ h₅ m
          have htied : Tied { c' with
              wait := m, st := c'.svst, st1 := { c'.svst1 with out := false, ckp := false } } := by
            refine ⟨?_, fun ha => (nomatch h₂.symm.trans ha), fun hne => ?_, fun ha =>
              (nomatch h₂.symm.trans ha)⟩
            · rw [marked_of_not_ast h₂]
              refine h₃.trans (hmark.trans ?_)
              unfold leads
              rw [← h₁]
              rfl
            · have hal := h.alive fun he => hne (h₁.trans he)
              exact ⟨h₄.trans (hact.trans hal.1), h₅.trans (h.saved hast habo)⟩
          unfold astx3
          dsimp only
          split <;> exact htied
        apply hexit
        · simp [xdt, hc]
        · rfl
        · rfl
        · rfl
        · rfl

end Tcb

/-! ## Operations that leave the links alone -/

/-- The links stay as they are. -/
structure Kernel.Calm (k k' : Kernel T) : Prop where
  xdt : ∀ t, (k'.tcb t).xdt = (k.tcb t).xdt
  tied : ∀ t, (k.tcb t).Tied → (k'.tcb t).Tied
  xdb : k'.xdb = k.xdb
  wild : .wildXdt ∈ k'.faults → .wildXdt ∈ k.faults

namespace Kernel

variable {k k' k'' : Kernel T} {t u : T}

theorem Calm.refl (k : Kernel T) : k.Calm k := ⟨fun _ => rfl, fun _ => id, rfl, id⟩

theorem Calm.trans (h : k.Calm k') (h' : k'.Calm k'') : k.Calm k'' :=
  ⟨fun t => (h'.xdt t).trans (h.xdt t), fun t ht => h'.tied t (h.tied t ht), h'.xdb.trans h.xdb,
    fun hf => h.wild (h'.wild hf)⟩

/-- Only the control blocks, the descriptors and the faults matter. -/
theorem Calm.congr (h : k.Calm k') (h₁ : k''.tcb = k'.tcb) (h₂ : k''.xdb = k'.xdb)
    (h₃ : k''.faults = k'.faults) : k.Calm k'' :=
  ⟨fun t => by rw [h₁]; exact h.xdt t, fun t => by rw [h₁]; exact h.tied t, h₂.trans h.xdb,
    h₃ ▸ h.wild⟩

variable [DecidableEq T] {b : Tcb T} {o : Outcome T}

theorem Calm.setTcb (hx : b.xdt = (k.tcb t).xdt) (ht : (k.tcb t).Tied → b.Tied) :
    k.Calm (k.setTcb t b) where
  xdt u := by
    by_cases hu : u = t
    · rw [hu, setTcb_self, hx]
    · rw [setTcb_of_ne hu]
  tied u := by
    by_cases hu : u = t
    · rw [hu, setTcb_self]
      exact ht
    · rw [setTcb_of_ne hu]
      exact id
  xdb := rfl
  wild := id

theorem Calm.of_tie (h : b.tie = (k.tcb t).tie) : k.Calm (k.setTcb t b) :=
  Calm.setTcb (congrArg (·.1) h) fun ht => ht.congr h

variable [Fintype T]

theorem settle_faults (k : Kernel T) (t : T) (o : Outcome T) :
    (k.settle t o).faults = k.faults := by
  unfold settle
  dsimp only
  split <;> rfl

theorem Calm.settle (h : k.Calm (k.setTcb t o.tcb)) : k.Calm (k.settle t o) :=
  h.congr (settle_tcb o) (settle_xdb o) (settle_faults k t o)

theorem Calm.settle_of_tie (h : o.tcb.tie = (k.tcb t).tie) : k.Calm (k.settle t o) :=
  (Calm.of_tie h).settle

theorem Calm.onTask {f : Tcb T → Outcome T} (hf : ∀ b, (f b).tcb.tie = b.tie) (k : Kernel T)
    (t : T) : k.Calm (k.onTask t f).1 := by
  unfold Kernel.onTask
  split
  · exact Calm.refl k
  · exact Calm.settle_of_tie (hf _)

theorem calm_rrobin (k : Kernel T) (elapsed : Bool) : k.Calm (k.rrobin elapsed) := by
  unfold rrobin
  split
  · split
    · exact Calm.refl k
    · exact (Calm.refl k).congr rfl rfl rfl
  · exact Calm.refl k

theorem calm_dsptch (k : Kernel T) (elapsed : Bool) : k.Calm (k.dsptch elapsed) := by
  unfold dsptch
  split
  · exact k.calm_rrobin elapsed
  · exact (k.calm_rrobin elapsed).congr rfl rfl rfl

omit [Fintype T] in
theorem calm_clrflg (k : Kernel T) (t : T) (e : ℕ) : k.Calm (k.clrflg t e).1 := by
  unfold clrflg
  split
  · exact Calm.refl k
  · exact Calm.of_tie rfl

theorem calm_setflg (k : Kernel T) (t : T) (e : ℕ) : k.Calm (k.setflg t e).1 := by
  unfold setflg
  split
  · exact Calm.refl k
  split
  · exact Calm.refl k
  rename_i m _
  have h₁ : k.Calm (k.setTcb t { k.tcb t with flgs := (k.tcb t).flgs ||| m }) := Calm.of_tie rfl
  dsimp only
  split
  · exact h₁.trans (Calm.onTask Tcb.tcont_tie _ t)
  · exact h₁

theorem calm_setmsk (k : Kernel T) (t : T) (e : ℕ) {f : Tcb T → Outcome T}
    (hf : ∀ b, (f b).tcb.tie = b.tie) : k.Calm (k.setmsk t e f).1 := by
  unfold setmsk
  split
  · exact Calm.of_tie rfl
  · rename_i m _
    have h₁ : k.Calm (k.setTcb t { k.tcb t with wait := m }) := Calm.of_tie rfl
    exact h₁.trans (Calm.onTask hf _ t)

theorem calm_waitlo (k : Kernel T) (t : T) (m : BitVec 32) {f : Tcb T → Outcome T}
    (hf : ∀ b, (f b).tcb.tie = b.tie) :
    k.Calm ((k.setTcb t { k.tcb t with wait := m }).onTask t f).1 := by
  have h₁ : k.Calm (k.setTcb t { k.tcb t with wait := m }) := Calm.of_tie rfl
  exact h₁.trans (Calm.onTask hf _ t)

theorem calm_qast (k : Kernel T) (t : T) (a : AstType) (addr : ℕ) (dat : List UInt8)
    (mem : Bool) : k.Calm (k.qast t a addr dat mem) := by
  unfold qast
  split
  · exact Calm.refl k
  · rename_i c hc
    have htie := Tcb.qast_tie hc
    refine (Calm.setTcb ?_ fun ht => (ht.congr htie).setast).settle
    exact (Tcb.setast_xdt c).trans (congrArg (·.1) htie)

omit [Fintype T] in
theorem calm_enqueue (k : Kernel T) (t : T) (i : Item T) : k.Calm (k.enqueue t i) :=
  Calm.of_tie rfl

theorem calm_send (k : Kernel T) (t : T) (i : Item T) (mem : Bool) : k.Calm (k.send t i mem).1 := by
  unfold send
  have h₁ := k.calm_enqueue t i
  dsimp only
  split
  · exact h₁
  · have h₂ := h₁.trans ((k.enqueue t i).calm_qast t .rd 0 [] mem)
    have h₃ : ((k.enqueue t i).qast t .rd 0 [] mem).Calm (((k.enqueue t i).qast t .rd 0 [] mem).setTcb
        t (((k.enqueue t i).qast t .rd 0 [] mem).tcb t).datain.tcb) :=
      Calm.of_tie (Tcb.datain_tie _)
    split
    · refine h₂.trans ⟨h₃.xdt, h₃.tied, h₃.xdb, fun hf => ?_⟩
      rcases List.mem_cons.mp hf with hf | hf
      · exact nomatch hf
      · exact hf
    · exact h₂.trans h₃.settle

omit [Fintype T] in
theorem calm_recv (k : Kernel T) : k.Calm k.recv.1 := by
  unfold recv
  split
  · exact Calm.refl k
  split
  · exact Calm.refl k
  · exact Calm.of_tie rfl

theorem calm_qldr (k : Kernel T) (t : T) : k.Calm (k.qldr t).1 := by
  unfold qldr
  split
  · exact Calm.refl k
  · exact (k.calm_enqueue _ _).trans (Calm.onTask Tcb.ldrin_tie _ _)

omit [Fintype T] in
theorem calm_dequeue (k : Kernel T) (t : T) : k.Calm (k.dequeue t) := by
  unfold dequeue
  split
  · exact Calm.refl k
  · exact Calm.of_tie rfl

theorem calm_dbbrk (k : Kernel T) (t : T) : k.Calm (k.dbbrk t).1 := by
  unfold dbbrk
  split
  · exact Calm.refl k
  · exact Calm.settle_of_tie rfl

theorem calm_dbres (k : Kernel T) (t : T) : k.Calm (k.dbres t).1 := Calm.settle_of_tie rfl

theorem calm_sdinfo (k : Kernel T) (t : T) (a : AstType) (addr : ℕ) (dat : List UInt8)
    (m₁ m₂ : Bool) : k.Calm (k.sdinfo t a addr dat m₁ m₂) := by
  unfold sdinfo
  split
  · split
    · refine Calm.trans ?_ (calm_qast _ t a 0 (word addr) m₂)
      exact Calm.of_tie rfl
    · exact Calm.refl k
  · refine Calm.trans ?_ (calm_qast _ t a 0 (word addr) m₂)
    exact Calm.of_tie rfl

theorem calm_altpri (k : Kernel T) (t : T) (e : ℕ) (inst : Bool) :
    k.Calm (k.altpri t e inst).1 := by
  have hrepri : ∀ (k : Kernel T) q e k', k.repri q t e = some k' → k.Calm k' := by
    intro k q e k' hk
    unfold repri at hk
    obtain ⟨iy, -, rfl⟩ := Option.map_eq_some_iff.mp hk
    have h₁ : k.Calm (k.setTcb t { k.tcb t with pri := e }) := Calm.of_tie rfl
    exact h₁.congr rfl rfl rfl
  have haltp5 : ∀ (k : Kernel T) e, k.Calm (k.altp5 t e) := by
    intro k e
    unfold altp5
    cases h₁ : k.repri .rlist t e with
    | some k' => exact hrepri k _ _ _ h₁
    | none =>
      cases h₂ : k.repri .wlist t e with
      | some k' => exact hrepri k _ _ _ h₂
      | none => exact Calm.refl k
  unfold altpri
  dsimp only
  generalize (if e = 0 then (k.tcb t).dpri else e) = n
  split
  · exact Calm.refl k
  split
  · split
    · exact Calm.refl k
    · refine Calm.trans ?_ (haltp5 _ n)
      have h₁ : k.Calm (k.setTcb t { k.tcb t with pri := n, dpri := n }) := Calm.of_tie rfl
      exact h₁.congr rfl rfl rfl
  · exact haltp5 k n

omit [Fintype T] in
theorem calm_astdcl (k : Kernel T) (t : T) (a : AstType) (addr seen : ℕ) (mem : Bool) :
    k.Calm (k.astdcl t a addr seen mem).1 := by
  unfold astdcl
  dsimp only
  split
  · exact Calm.refl k
  split
  · split
    · exact Calm.refl k
    split
    · exact Calm.of_tie rfl
    · exact Calm.of_tie rfl
  · split
    · exact Calm.refl k
    split
    · exact Calm.refl k
    · exact Calm.of_tie rfl

omit [Fintype T] in
theorem calm_setsv (k : Kernel T) (t : T) (on : Bool) : k.Calm (k.setsv t on).1 := by
  unfold setsv
  dsimp only
  split
  · exact Calm.refl k
  · exact Calm.of_tie rfl

omit [Fintype T] in
theorem calm_user (k : Kernel T) (t : T) (m : Mem) (sp pc af : ℕ) :
    k.Calm (k.user t m sp pc af) := by
  have h₁ : k.Calm (k.setTcb t { k.tcb t with mem := m, sp := sp }) := Calm.of_tie rfl
  refine h₁.trans (Calm.of_tie ?_)
  rw [setTcb_self]
  simp only [Tcb.tie, Tcb.xdt]
  cases (k.tcb t).ctx <;> rfl

end Kernel

end RSX280.Sched
