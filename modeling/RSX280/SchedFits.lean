import RSX280.SchedLists

/-!
# The decisions fit

Every decision of `Tcb.lean` sends the task to the list its new status belongs on:
one lemma each. The one exception is `SETAST` on a task stopped at a breakpoint
(`Tcb.LosesBpt`).
-/

namespace RSX280.Sched

universe u

variable {T : Type u}

section Fits

variable {b c : Tcb T} {g : Goto} {r : Ret}

theorem Tcb.home_eq_rlist : b.home = .rlist ↔ b.st1 = Blocking.clear ∧ b.st.bpt = false := by
  simp [home, runnable]

theorem Tcb.home_eq_wlist : b.home = .wlist ↔ b.st1 ≠ Blocking.clear ∨ b.st.bpt = true := by
  simp only [home, runnable, Bool.and_eq_true, decide_eq_true_eq, ite_eq_right_iff,
    reduceCtorEq, imp_false, Bool.not_eq_true', not_and_or, Bool.not_eq_false]

theorem Outcome.fits_self (hg : g ≠ .ready) (hg' : g ≠ .wait) (hk : c.key = b.key) :
    Outcome.Fits b ⟨c, g, r⟩ :=
  ⟨Tcb.act_of_key hk, Tcb.pri_of_key hk, fun h => absurd h hg, fun h => absurd h hg',
    fun _ => Tcb.home_of_key hk, Tcb.saved_of_key hk⟩

/-- A blocked task that stays blocked may stay where it is. -/
theorem Outcome.fits_blocked (hg : g ≠ .ready) (hg' : g ≠ .wait) (ha : c.st.act = b.st.act)
    (hp : c.pri = b.pri) (hs : b.Saved → c.Saved) (hc : c.home = .wlist)
    (hb : b.home = .wlist) : Outcome.Fits b ⟨c, g, r⟩ :=
  ⟨ha, hp, fun h => absurd h hg, fun h => absurd h hg', fun _ => hc.trans hb.symm, hs⟩

theorem Outcome.fits_ready (ha : c.st.act = b.st.act) (hp : c.pri = b.pri)
    (hs : b.Saved → c.Saved) (hc : c.home = .rlist) : Outcome.Fits b ⟨c, .ready, r⟩ :=
  ⟨ha, hp, fun _ => hc, nofun, nofun, hs⟩

theorem Outcome.fits_wait (ha : c.st.act = b.st.act) (hp : c.pri = b.pri)
    (hs : b.Saved → c.Saved) (hc : c.home = .wlist) : Outcome.Fits b ⟨c, .wait, r⟩ :=
  ⟨ha, hp, nofun, fun _ => hc, nofun, hs⟩

theorem Tcb.nextIf_ne (b : Blocking) : nextIf b ≠ .ready ∧ nextIf b ≠ .wait := by
  rw [nextIf]
  split <;> exact ⟨nofun, nofun⟩

/-- A blocking bit that is set tells where the task is. -/
theorem Tcb.home_of_ne (h : b.st1 ≠ Blocking.clear) : b.home = .wlist :=
  home_eq_wlist.mpr (Or.inl h)

/-- Taking the last blocking bit back makes the task ready, unless it is stopped at a
breakpoint; taking another one leaves it blocked. -/
theorem Tcb.unblock_fits {x : Blocking} (hb : b.st1 ≠ Blocking.clear) (hx : x.abo = b.st1.abo)
    (hg : g ≠ .ready) (hg' : g ≠ .wait) :
    Outcome.Fits b (if x = Blocking.clear && !b.st.bpt then ⟨{ b with st1 := x }, .ready, .ok⟩
      else ⟨{ b with st1 := x }, g, r⟩) := by
  have hsv : b.Saved → Saved { b with st1 := x } := fun h h₁ h₂ h₃ => h h₁ h₂ (hx ▸ h₃)
  split
  · rename_i h
    exact Outcome.fits_ready rfl rfl hsv (home_eq_rlist.mpr (by simpa using h))
  · rename_i h
    refine Outcome.fits_blocked hg hg' rfl rfl hsv (home_eq_wlist.mpr ?_) (home_of_ne hb)
    by_contra hc
    exact h (by simpa using hc)

theorem Tcb.tstop_fits (b : Tcb T) : Outcome.Fits b b.tstop := by
  rw [tstop]
  split
  · split
    · exact Outcome.fits_self nofun nofun rfl
    · exact Outcome.fits_self nofun nofun rfl
  · split
    · exact Outcome.fits_self nofun nofun rfl
    · exact Outcome.fits_wait rfl rfl id (home_of_ne fun h => nomatch congrArg Blocking.stp h)

theorem Tcb.tresum_fits (b : Tcb T) : Outcome.Fits b b.tresum := by
  rw [tresum]
  split
  · split
    · exact Outcome.fits_self nofun nofun rfl
    · exact Outcome.fits_self nofun nofun rfl
  · split
    · exact Outcome.fits_self nofun nofun rfl
    · rename_i h
      refine unblock_fits (fun hc => h ?_) rfl (nextIf_ne _).1 (nextIf_ne _).2
      rw [hc]
      rfl

theorem Tcb.tcont2_fits {x : Blocking} (hb : b.st1 ≠ Blocking.clear) (hx : x.abo = b.st1.abo) :
    Outcome.Fits b (b.tcont2 x) := by
  have hsv : b.Saved → Saved { b with st1 := x } := fun h h₁ h₂ h₃ => h h₁ h₂ (hx ▸ h₃)
  rw [tcont2]
  split
  · rename_i hx
    exact Outcome.fits_blocked (nextIf_ne _).1 (nextIf_ne _).2 rfl rfl hsv (home_of_ne hx)
      (home_of_ne hb)
  · rename_i hx
    split
    · rename_i hbpt
      exact Outcome.fits_blocked nofun nofun rfl rfl hsv (home_eq_wlist.mpr (Or.inr hbpt))
        (home_of_ne hb)
    · rename_i hbpt
      exact Outcome.fits_ready rfl rfl hsv
        (home_eq_rlist.mpr ⟨not_not.mp hx, Bool.not_eq_true _ ▸ hbpt⟩)

theorem Tcb.tcont_fits (b : Tcb T) : Outcome.Fits b b.tcont := by
  rw [tcont]
  split
  · rename_i h
    exact tcont2_fits (fun hc => nomatch h.symm.trans (congrArg Blocking.efw hc)) rfl
  · split
    · rename_i h
      exact tcont2_fits (fun hc => nomatch h.symm.trans (congrArg Blocking.sef hc)) rfl
    · exact Outcome.fits_self nofun nofun rfl

theorem Tcb.flwait0_fits (b : Tcb T) : Outcome.Fits b b.flwait0 := by
  rw [flwait0]
  split
  · exact Outcome.fits_self nofun nofun rfl
  · split
    · exact Outcome.fits_self nofun nofun rfl
    · exact Outcome.fits_wait rfl rfl id (home_of_ne fun h => nomatch congrArg Blocking.efw h)

theorem Tcb.flstop0_fits (b : Tcb T) : Outcome.Fits b b.flstop0 := by
  rw [flstop0]
  split
  · exact Outcome.fits_self nofun nofun rfl
  · split
    · exact Outcome.fits_self nofun nofun rfl
    · exact Outcome.fits_wait rfl rfl id (home_of_ne fun h => nomatch congrArg Blocking.sef h)

theorem Tcb.wtdat_fits (b : Tcb T) : Outcome.Fits b b.wtdat := by
  rw [wtdat]
  split
  · exact Outcome.fits_self nofun nofun rfl
  · split
    · exact Outcome.fits_self nofun nofun rfl
    · exact Outcome.fits_wait rfl rfl id (home_of_ne fun h => nomatch congrArg Blocking.wtd h)

theorem Tcb.datain_fits (b : Tcb T) : Outcome.Fits b b.datain := by
  rw [datain]
  split
  · split
    · exact Outcome.fits_self nofun nofun rfl
    · exact Outcome.fits_self nofun nofun rfl
  · split
    · exact Outcome.fits_self nofun nofun rfl
    · rename_i h
      refine unblock_fits (fun hc => h ?_) rfl (nextIf_ne _).1 (nextIf_ne _).2
      rw [hc]
      rfl

theorem Tcb.ldrin_fits (b : Tcb T) : Outcome.Fits b b.ldrin := by
  rw [ldrin]
  split
  · exact Outcome.fits_self nofun nofun rfl
  · rename_i h
    refine unblock_fits (fun hc => h ?_) rfl nofun nofun
    rw [hc]
    rfl

theorem Tcb.dbbrk_fits (b : Tcb T) : Outcome.Fits b b.dbbrk :=
  Outcome.fits_wait rfl rfl id (home_eq_wlist.mpr (Or.inr rfl))

theorem Tcb.dbres_fits (b : Tcb T) : Outcome.Fits b b.dbres := by
  rw [dbres]
  split
  · rename_i h
    exact Outcome.fits_ready rfl rfl id (home_eq_rlist.mpr ⟨h, rfl⟩)
  · rename_i h
    exact Outcome.fits_blocked nofun nofun rfl rfl id (home_of_ne h) (home_of_ne h)

/-- `SETAST` loses sight of a task stopped at a breakpoint by nothing but bits it takes
back: `TS.BPT` goes, no blocking bit remains and the task stays on the waiting list. -/
def Tcb.LosesBpt (b : Tcb T) : Prop :=
  b.st.ast = false ∧ b.attr.ast = true ∧ b.ctx.isSome ∧ b.st.bpt = true ∧
    b.st1.out = false ∧ b.st1.ckp = false ∧ b.st1.ldr = false ∧ b.st1.abo = false

theorem Tcb.setast_fits (h : ¬b.LosesBpt) : Outcome.Fits b b.setast := by
  rw [setast]
  split
  · exact Outcome.fits_self nofun nofun rfl
  rename_i hast
  split
  · exact Outcome.fits_self nofun nofun rfl
  rename_i hatt
  split
  · exact Outcome.fits_self nofun nofun rfl
  rename_i x hctx
  dsimp only
  split
  · -- runnable before and after
    rename_i hr
    have hr' : b.st1 = Blocking.clear ∧ b.st.bpt = false := by simpa [runnable] using hr
    refine ⟨rfl, rfl, nofun, nofun, fun _ => ?_, fun _ h _ _ => h⟩
    rw [home_eq_rlist.mpr hr']
    exact home_eq_rlist.mpr ⟨hr'.1, rfl⟩
  rename_i hr
  have hb : b.home = .wlist := if_neg hr
  split
  · rename_i hc
    rw [Bool.and_eq_true, decide_eq_true_eq] at hc
    exact Outcome.fits_ready rfl rfl (fun _ h _ _ => h) (home_eq_rlist.mpr ⟨hc.1, rfl⟩)
  · rename_i hc
    refine Outcome.fits_blocked nofun nofun rfl rfl (fun _ h _ _ => h) (home_of_ne fun he => ?_) hb
    have hbpt : b.st.bpt = true := by
      rw [Bool.and_eq_true, decide_eq_true_eq, not_and_or, Bool.not_eq_true'] at hc
      exact Bool.not_eq_false _ ▸ hc.resolve_left (not_not_intro he)
    refine h ⟨by simpa using hast, by simpa using hatt, by simp [hctx], hbpt, ?_, ?_, ?_, ?_⟩
    · exact congrArg Blocking.out he
    · exact congrArg Blocking.ckp he
    · exact congrArg Blocking.ldr he
    · exact congrArg Blocking.abo he

theorem Tcb.astx3_fits {swm : BitVec 32} (hb : b.home = .rlist) (ha : b.svst.act = b.st.act) :
    Outcome.Fits b (b.astx3 swm) := by
  have hsv : b.Saved → Saved { b with
      wait := swm, st := b.svst, st1 := { b.svst1 with out := false, ckp := false } } :=
    fun _ h _ _ => h
  rw [astx3]
  split
  · rename_i h
    exact ⟨ha, rfl, nofun, nofun, fun _ => (if_pos h : _ = Q.rlist).trans hb.symm, hsv⟩
  · rename_i h
    exact Outcome.fits_wait ha rfl hsv (if_neg h)

theorem Outcome.Fits.of_key {o : Outcome T} (h : Outcome.Fits b o) (hk : b.key = c.key) :
    Outcome.Fits c o :=
  ⟨h.act.trans (Tcb.act_of_key hk), h.pri.trans (Tcb.pri_of_key hk), h.ready, h.wait,
    fun hg => (h.stay hg).trans (Tcb.home_of_key hk),
    fun hs => h.saved (Tcb.saved_of_key hk hs)⟩

theorem Tcb.qast_key {a : AstType} {addr : ℕ} {dat : List UInt8} {mem : Bool}
    (h : b.qast a addr dat mem = some c) : c.key = b.key ∧ (c.LosesBpt ↔ b.LosesBpt) := by
  rw [qast] at h
  split at h
  · cases h
  · split at h
    · cases h
    · cases h
      exact ⟨rfl, Iff.rfl⟩

theorem Tcb.qast_isSome {a : AstType} {addr : ℕ} (dat dat' : List UInt8) {mem : Bool}
    (hs : b.sast = c.sast) :
    (b.qast a addr dat mem).isSome = (c.qast a addr dat' mem).isSome := by
  simp only [qast, fndast, hs]
  split
  · rfl
  · split <;> rfl

/-- `SETAST` does nothing, or the task is in AST state afterwards. -/
theorem Tcb.setast_cases (b : Tcb T) :
    (b.setast.tcb = b ∧ (b.st.ast = true ∨ b.attr.ast = false ∨ b.ctx = none)) ∨
      b.setast.tcb.st.ast = true := by
  rw [setast]
  split
  · rename_i h
    exact Or.inl ⟨rfl, Or.inl h⟩
  split
  · rename_i h
    exact Or.inl ⟨rfl, Or.inr (Or.inl (by simpa using h))⟩
  split
  · rename_i h
    exact Or.inl ⟨rfl, Or.inr (Or.inr h)⟩
  · dsimp only
    split
    · exact Or.inr rfl
    · split <;> exact Or.inr rfl

theorem Blocking.eq_wtd {x : Blocking} (hx : x.wtd = true)
    (hc : { x with wtd := false } = Blocking.clear) : x = { wtd := true } := by
  cases x
  simp only [Blocking.clear, Blocking.mk.injEq] at hc hx ⊢
  simp only [hc, hx, and_self]

/-- `SEND` makes a task ready that waits for data only. -/
theorem Tcb.of_datain_ready (h : b.datain.goto = .ready) :
    b.st.ast = false ∧ b.st1 = { wtd := true } ∧ b.st.bpt = false := by
  rw [datain] at h
  split at h
  · split at h <;> cases h
  rename_i hast
  split at h
  · cases h
  rename_i hwtd
  dsimp only at h
  split at h
  · rename_i hb
    rw [Bool.and_eq_true, decide_eq_true_eq, Bool.not_eq_true'] at hb
    exact ⟨by simpa using hast, Blocking.eq_wtd (by simpa using hwtd) hb.1, hb.2⟩
  · exact absurd h (nextIf_ne _).1

/-- The task as `QAST` leaves it. -/
def Tcb.queued (b : Tcb T) (a : AstType) (addr : ℕ) (dat : List UInt8) (mem : Bool) : Tcb T :=
  match b.qast a addr dat mem with
  | none => b
  | some c => c.setast.tcb

/-- The receiver waits for data and for nothing else, and the event `SEND` queues, if it
does, leaves it out of AST state. -/
def Tcb.Alert (b : Tcb T) (mem : Bool) : Prop :=
  b.st.ast = false ∧ b.st1 = { wtd := true } ∧ b.st.bpt = false ∧
    ((b.qast .rd 0 [] mem).isSome = false ∨ b.attr.ast = false ∨ b.ctx = none)

theorem Tcb.Alert.of_rcvl {mem : Bool} {l : List (Item T)} (h : Alert { b with rcvl := l } mem) :
    b.Alert mem :=
  ⟨h.1, h.2.1, h.2.2.1, h.2.2.2.imp_left fun hq =>
    (qast_isSome (b := b) (c := { b with rcvl := l }) [] [] rfl).trans hq⟩

/-- Only such a receiver is woken up by `SEND` itself. -/
theorem Tcb.alert_of_ready {mem : Bool} (h : (b.queued .rd 0 [] mem).datain.goto = .ready) :
    b.Alert mem := by
  obtain ⟨h₁, h₂, h₃⟩ := of_datain_ready h
  cases hq : b.qast .rd 0 [] mem with
  | none =>
    rw [queued, hq] at h₁ h₂ h₃
    exact ⟨h₁, h₂, h₃, Or.inl (by rw [hq]; rfl)⟩
  | some c =>
    rw [queued, hq] at h₁ h₂ h₃
    dsimp only at h₁ h₂ h₃
    rcases c.setast_cases with ⟨hc, hn⟩ | hc
    · rw [hc] at h₁ h₂ h₃
      -- but for the event queue the two are the same
      have he : c = { b with astl := c.astl } := by
        rw [qast] at hq
        split at hq
        · cases hq
        · split at hq <;> cases hq
          rfl
      rw [he] at h₁ h₂ h₃ hn
      exact ⟨h₁, h₂, h₃, Or.inr (hn.resolve_left fun hast => nomatch h₁.symm.trans hast)⟩
    · exact absurd (h₁.symm.trans hc) nofun

theorem Tcb.ended_act (b : Tcb T) : b.ended.st.act = false := by
  rw [ended]
  split <;> rfl

/-! ## Delivery and exit -/

theorem Tcb.starg_key {x : AstBlock} (h : b.starg x = some c) : c.key = b.key := by
  rw [starg] at h
  split at h
  · cases h
  · dsimp only at h
    split at h <;> cases h
    rfl

theorem Tcb.deliver_key (b : Tcb T) : b.deliver.1.key = b.key := by
  rw [deliver]
  split
  · rfl
  split
  · rfl
  · dsimp only
    split
    · rfl
    · rename_i h
      exact (starg_key h).trans rfl

/-- An event that does not fit on the stack changes no context pointer. -/
theorem Tcb.deliver_cases (b : Tcb T) :
    b.deliver.2 = true ∨ b.deliver.1.ctx = b.ctx ∧ b.deliver.1.st = b.st := by
  rw [deliver]
  split
  · exact Or.inl rfl
  split
  · exact Or.inl rfl
  · dsimp only
    split
    · exact Or.inr ⟨rfl, rfl⟩
    · exact Or.inl rfl

theorem Tcb.rmarg_key (h : b.rmarg = some c) : c.key = b.key ∧ c.svst = b.svst := by
  rw [rmarg] at h
  split at h
  · cases h
  · split at h <;> cases h
    exact ⟨rfl, rfl⟩

/-- `ASTEXT` by a running task whose saved status is that of an active one. -/
theorem Tcb.astext_fits (hb : b.home = .rlist) (ha : b.svst.act = b.st.act) :
    Outcome.Fits b b.astext.1 := by
  rw [astext]
  dsimp only
  split
  · exact Outcome.fits_self nofun nofun rfl
  · rename_i c hc
    obtain ⟨hkey, hsv⟩ := rmarg_key hc
    refine Outcome.Fits.of_key (b := c) ?_ (hkey.trans rfl)
    split
    · exact Outcome.fits_self nofun nofun rfl
    · refine astx3_fits ((home_of_key hkey).trans hb) ?_
      rw [hsv, act_of_key hkey]
      exact ha

/-- On a bad stack `ASTEXT` changes nothing but the saved status. -/
theorem Tcb.astext_cases (b : Tcb T) : b.astext.2 = true ∨
    b.astext.1.tcb.key = b.key ∧ b.astext.1.tcb.ctx = b.ctx ∧ b.astext.1.tcb.st = b.st := by
  rw [astext]
  dsimp only
  split
  · exact Or.inr ⟨rfl, rfl, rfl⟩
  · split <;> exact Or.inl rfl

theorem Tcb.setast_xdt (b : Tcb T) :
    b.setast.tcb.ctx.bind (·.xdt) = b.ctx.bind (·.xdt) := by
  rw [setast]
  split
  · rfl
  split
  · rfl
  split
  · rfl
  · rename_i c hc
    rw [hc]
    dsimp only
    split
    · rfl
    · split <;> rfl

end Fits

end RSX280.Sched
