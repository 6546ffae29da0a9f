import RSX280.TaskRuns

/-!
# Stop and resume

The stop bit of a task is in its status, or, while it executes an AST, in the status that was saved. The
AST may begin and end anywhere between `TSTOP` and `TRESUM`.
-/

namespace RSX280.Sched

universe u

variable {T : Type u} {b c d : Tcb T}

namespace Tcb

/-- The blocking bits of the main program. -/
def main (b : Tcb T) : Blocking := if b.st.ast then b.svst1 else b.st1

/-- The main program is stopped for the debugger. -/
def mainBpt (b : Tcb T) : Bool := if b.st.ast then b.svst.bpt else b.st.bpt

/-- The blocking bits of the main program are set. -/
def setMain (b : Tcb T) (m : Blocking) : Tcb T :=
  if b.st.ast then { b with svst1 := m } else { b with st1 := m }

theorem main_setMain (m : Blocking) : (b.setMain m).main = m := by
  unfold main setMain
  by_cases h : b.st.ast = true
  · rw [if_pos h]
    exact if_pos h
  · rw [if_neg h]
    exact if_neg h

theorem mainBpt_setMain (m : Blocking) : (b.setMain m).mainBpt = b.mainBpt := by
  unfold mainBpt setMain
  by_cases h : b.st.ast = true
  · rw [if_pos h]
  · rw [if_neg h]

/-- `TSTOP` stops the main program, unless it is stopped. -/
theorem tstop_main : if b.main.stp then b.tstop.tcb = b ∧ b.tstop.ret = .err .tstp
    else b.tstop.tcb = b.setMain { b.main with stp := true } ∧ b.tstop.ret = .ok := by
  unfold tstop main setMain
  by_cases h : b.st.ast = true
  · rw [if_pos h, if_pos h, if_pos h]
    split
    · exact ⟨rfl, rfl⟩
    · exact ⟨rfl, rfl⟩
  · rw [if_neg h, if_neg h, if_neg h]
    by_cases hs : b.st1.stp = true
    · have hrun : b.runnable = false := by
        unfold runnable
        rw [Bool.and_eq_false_iff]
        refine Or.inl (decide_eq_false fun hc => ?_)
        rw [hc] at hs
        exact Bool.noConfusion hs
      rw [if_pos hs, hrun, hs, if_pos (show (!false && true) = true from rfl)]
      exact ⟨rfl, rfl⟩
    · rw [if_neg hs, if_neg fun hn => hs (Bool.and_eq_true_iff.mp hn).2]
      exact ⟨rfl, rfl⟩

/-- `TRESUM` of a stopped task: the stop bit is cleared. -/
theorem tresum_of_stopped (h : b.main.stp = true) :
    b.tresum.tcb = b.setMain { b.main with stp := false } ∧ b.tresum.ret = .ok := by
  unfold tresum setMain main at *
  by_cases ha : b.st.ast = true
  · rw [if_pos ha] at h
    rw [if_pos ha, if_pos ha, if_pos ha, if_pos h]
    exact ⟨rfl, rfl⟩
  · rw [if_neg ha] at h
    rw [if_neg ha, if_neg ha, if_neg ha, h, if_neg (by decide)]
    dsimp only
    split
    · exact ⟨rfl, rfl⟩
    · exact ⟨rfl, rfl⟩

/-- A task that is not stopped is left as it is; that it is not stopped is not told if it executes an
AST. -/
theorem tresum_of_running (h : b.main.stp = false) : b.tresum.tcb = b ∧ b.tresum.goto = .stay ∧
    b.tresum.ret = if b.st.ast then .ok else .err .trun := by
  unfold tresum main at *
  by_cases ha : b.st.ast = true
  · rw [if_pos ha] at h
    rw [if_pos ha, if_pos ha, h, if_neg (by decide)]
    exact ⟨rfl, rfl, rfl⟩
  · rw [if_neg ha] at h
    rw [if_neg ha, if_neg ha, h, if_pos (show (!false) = true from rfl)]
    exact ⟨rfl, rfl, rfl⟩

/-! ### ASTs in between -/

/-- What a checkpoint leaves in the blocking bits is not looked at. -/
def loadedBits (m : Blocking) : Blocking := { m with out := false, ckp := false }

/-- The beginning or the end of an AST. -/
inductive AstMove : Tcb T → Tcb T → Prop
  | setast {b : Tcb T} (h : b.setast.ret = .ok) : AstMove b b.setast.tcb
  | deliver {b : Tcb T} (h : b.st.ast = true) : AstMove b b.deliver.1
  | astext {b : Tcb T} {o : Outcome T} (h : b.st.ast = true) (ho : b.astext = (o, true)) : AstMove b o.tcb

/-- `DOAST` does not touch the saved `TS.BPT`. -/
theorem deliver_bpt : b.deliver.1.svst.bpt = b.svst.bpt := by
  unfold deliver
  split
  · rfl
  split
  · rfl
  · dsimp only
    split
    · rfl
    · rename_i hs
      unfold starg at hs
      split at hs
      · cases hs
      dsimp only at hs
      split at hs
      · obtain rfl := Option.some.inj hs
        rfl
      · cases hs

theorem astext_svst {o : Outcome T} (h : b.astext = (o, true)) :
    o.tcb.svst = { b.svst with ast := false, abx := b.svst.abx && !b.attr.prv } := by
  unfold astext at h
  dsimp only at h
  split at h
  · cases congrArg Prod.snd h
  rename_i x hx
  obtain ⟨y, pc, af, -, rfl⟩ := rmarg_eq hx
  split at h
  · obtain rfl := congrArg Prod.fst h
    rfl
  · obtain rfl := congrArg Prod.fst h
    unfold astx3
    dsimp only
    split
    · rfl
    · rfl

/-- Nothing but the main program's being in memory changes. -/
theorem AstMove.main (h : AstMove b c) :
    loadedBits c.main = loadedBits b.main ∧ c.mainBpt = b.mainBpt := by
  cases h with
  | setast h =>
    unfold Tcb.setast Tcb.main mainBpt at *
    by_cases ha : b.st.ast = true
    · rw [if_pos ha]
      exact ⟨rfl, rfl⟩
    · rw [if_neg ha] at h ⊢
      by_cases hd : (!b.attr.ast) = true
      · rw [if_pos hd] at h
        exact Ret.noConfusion h
      · rw [if_neg hd] at h ⊢
        cases hc : b.ctx with
        | none =>
          rw [hc] at h
          exact Ret.noConfusion h
        | some x =>
          dsimp only
          rw [if_neg ha, if_neg ha]
          split
          · exact ⟨rfl, rfl⟩
          · split
            · exact ⟨rfl, rfl⟩
            · exact ⟨rfl, rfl⟩
  | deliver h =>
    have hst : b.deliver.1.st.ast = true ∧ b.deliver.1.svst1 = b.svst1 := by
      obtain ⟨s, l, m, sp, x, he⟩ := deliver_eq (b := b)
      rw [he]
      exact ⟨h, rfl⟩
    unfold Tcb.main mainBpt
    rw [if_pos hst.1, if_pos hst.1, if_pos h, if_pos h, hst.2]
    exact ⟨rfl, deliver_bpt⟩
  | @astext o h ho =>
    have hs := astext_svst ho
    have hleft := astext_left ho
    unfold Tcb.main mainBpt
    rw [if_pos h, if_pos h]
    rcases hleft.back with ⟨-, -, hst, -⟩ | ⟨hst, hst1, -, -⟩
    · have ha : o.tcb.st.ast = true := hst ▸ h
      rw [if_pos ha, if_pos ha, hleft.svst1, hs]
      exact ⟨rfl, rfl⟩
    · have ha : ¬o.tcb.st.ast = true := by
        rw [hst]
        exact Bool.false_ne_true
      rw [if_neg ha, if_neg ha, hst, hst1]
      exact ⟨rfl, rfl⟩

/-- ASTs that begin and end. -/
inductive Asts : Tcb T → Tcb T → Prop
  | refl (b : Tcb T) : Asts b b
  | step {b c d : Tcb T} (h : Asts b c) (h' : AstMove c d) : Asts b d

theorem Asts.main (h : Asts b c) : loadedBits c.main = loadedBits b.main ∧ c.mainBpt = b.mainBpt := by
  induction h with
  | refl => exact ⟨rfl, rfl⟩
  | step h h' ih => exact ⟨h'.main.1.trans ih.1, h'.main.2.trans ih.2⟩

/-- A stop and a resume, with any ASTs before, between and behind them, leave the main program with the
blocking bits that it had. -/
theorem main_of_resume {b b₁ b₂ b₃ b₄ b₅ : Tcb T} (h₀ : Asts b b₁) (hs : b.main.stp = false)
    (hstop : b₂ = b₁.tstop.tcb) (h₁ : Asts b₂ b₃) (hres : b₄ = b₃.tresum.tcb) (h₂ : Asts b₄ b₅) :
    b₁.tstop.ret = .ok ∧ b₃.tresum.ret = .ok ∧ loadedBits b₅.main = loadedBits b.main ∧
      b₅.mainBpt = b.mainBpt := by
  have hstp : ∀ {m m' : Blocking}, loadedBits m = loadedBits m' → m.stp = m'.stp := fun h =>
    show (loadedBits _).stp = (loadedBits _).stp from congrArg Blocking.stp h
  have hs₁ : b₁.main.stp = false := (hstp h₀.main.1).trans hs
  have hb₁ := tstop_main (b := b₁)
  rw [if_neg (by rw [hs₁]; exact Bool.false_ne_true)] at hb₁
  rw [hb₁.1] at hstop
  have hb₂ : b₂.main = { b₁.main with stp := true } := hstop ▸ main_setMain _
  have hs₃ : b₃.main.stp = true := (hstp h₁.main.1).trans (congrArg Blocking.stp hb₂)
  obtain ⟨hb₃, hret⟩ := tresum_of_stopped hs₃
  rw [hb₃] at hres
  have hb₄ : b₄.main = { b₃.main with stp := false } := hres ▸ main_setMain _
  refine ⟨hb₁.2, hret, ?_, ?_⟩
  · have hclear : ∀ {m m' : Blocking}, loadedBits m = loadedBits m' →
        loadedBits { m with stp := false } = loadedBits { m' with stp := false } := fun h =>
      show { loadedBits _ with stp := false } = { loadedBits _ with stp := false } from
        congrArg (fun m : Blocking => { m with stp := false }) h
    calc loadedBits b₅.main = loadedBits b₄.main := h₂.main.1
      _ = loadedBits { b₃.main with stp := false } := by rw [hb₄]
      _ = loadedBits { b₂.main with stp := false } := hclear h₁.main.1
      _ = loadedBits { b₁.main with stp := false } := by rw [hb₂]
      _ = loadedBits b₁.main := by rw [← hs₁]
      _ = loadedBits b.main := h₀.main.1
  · have h₄ : b₄.mainBpt = b₃.mainBpt := hres ▸ mainBpt_setMain _
    have h₂' : b₂.mainBpt = b₁.mainBpt := hstop ▸ mainBpt_setMain _
    exact h₂.main.2.trans (h₄.trans (h₁.main.2.trans (h₂'.trans h₀.main.2)))

end Tcb

/-! ### In the kernel -/

namespace Kernel

variable [DecidableEq T] [Fintype T] {k : Kernel T} {t : T}

/-- `TRESUM` clears the stop of a task that is stopped. Else it returns an error and changes nothing. -/
def Resumes (k : Kernel T) (t : T) : Prop :=
  if (k.fntcb t).isSome = true ∧ (k.tcb t).main.stp = true then
    (k.tresum t).2 = .ok ∧ (k.tresum t).1.tcb =
      Function.update k.tcb t ((k.tcb t).setMain { (k.tcb t).main with stp := false })
  else (∃ e, (k.tresum t).2 = .err e) ∧ (k.tresum t).1 = k

theorem resumes_iff : k.Resumes t ↔
    ((k.fntcb t).isSome = true → (k.tcb t).st.ast = true → (k.tcb t).svst1.stp = true) := by
  unfold Resumes tresum onTask
  cases hf : k.fntcb t with
  | none =>
    rw [if_neg fun h => Bool.noConfusion h.1]
    exact iff_of_true ⟨⟨_, rfl⟩, rfl⟩ fun h => Bool.noConfusion h
  | some iy =>
    dsimp only
    by_cases hs : (k.tcb t).main.stp = true
    · obtain ⟨htcb, hret⟩ := Tcb.tresum_of_stopped hs
      rw [if_pos ⟨rfl, hs⟩, settle_tcb, htcb, hret]
      refine iff_of_true ⟨rfl, rfl⟩ fun _ ha => ?_
      unfold Tcb.main at hs
      rw [if_pos ha] at hs
      exact hs
    · obtain ⟨htcb, hgoto, hret⟩ := Tcb.tresum_of_running (Bool.eq_false_iff.mpr hs)
      have hsame : k.settle t (k.tcb t).tresum = k := by
        unfold settle
        rw [htcb, hgoto]
        simp only [setTcb, Function.update_eq_self]
      rw [if_neg fun h => hs h.2, hsame, hret]
      by_cases ha : (k.tcb t).st.ast = true
      · rw [if_pos ha]
        refine iff_of_false (fun h => ?_) fun h => hs ?_
        · obtain ⟨⟨e, he⟩, -⟩ := h
          cases he
        · unfold Tcb.main
          rw [if_pos ha]
          exact h rfl ha
      · rw [if_neg ha]
        exact iff_of_true ⟨⟨_, rfl⟩, rfl⟩ fun _ ha' => absurd ha' ha

/-- `TRESUM` does what it says unless the task executes an AST and is not stopped. It and `TSTOP` leave
every task on the list it belongs to, and a stop and a resume, with any ASTs in between, leave the main
program with the blocking bits it had. -/
theorem resume_of_stop (k : Kernel T) (t : T) : (k.Resumes t ↔
    ((k.fntcb t).isSome = true → (k.tcb t).st.ast = true → (k.tcb t).svst1.stp = true)) ∧
      (k.Ok → (k.tstop t).1.Ok ∧ (k.tresum t).1.Ok) ∧
        ∀ b b₁ b₂ b₃ b₄ b₅ : Tcb T, Tcb.Asts b b₁ → b.main.stp = false → b₂ = b₁.tstop.tcb →
          Tcb.Asts b₂ b₃ → b₄ = b₃.tresum.tcb → Tcb.Asts b₄ b₅ →
            b₁.tstop.ret = .ok ∧ b₃.tresum.ret = .ok ∧
              Tcb.loadedBits b₅.main = Tcb.loadedBits b.main ∧ b₅.mainBpt = b.mainBpt := by
  refine ⟨resumes_iff, fun h => ⟨h.onTask Tcb.tstop_fits, h.onTask Tcb.tresum_fits⟩, ?_⟩
  intro b b₁ b₂ b₃ b₄ b₅ h₀ hs hstop h₁ hres h₂
  exact Tcb.main_of_resume h₀ hs hstop h₁ hres h₂

/-- Task 0 of two has been stopped by the other one. -/
theorem resume_of_stop_two : ((runAll start2 boot2).tstop 0).1.Resumes 0 :=
  (resume_of_stop _ _).1.mpr fun _ h => Bool.noConfusion
    ((show (((runAll start2 boot2).tstop 0).1.tcb 0).st.ast = false by decide).symm.trans h)

/-- Task 0 executes an AST and was never stopped, but `TRESUM` returns success. -/
theorem resumed_in_ast : (((runAll start2 boot2).qast 0 .ck 512 [] true).tresum 0).2 = .ok ∧
    (((runAll start2 boot2).qast 0 .ck 512 [] true).tcb 0).main.stp = false := by
  decide

end Kernel

end RSX280.Sched
