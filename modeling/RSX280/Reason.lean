import RSX280.Runs
import RSX280.TaskRuns

/-!
# The reason a task is aborted for (`tskmgr.mac`, `tkn.inc`)

`TKILL` stores its reason code in `T.SVST`, where `TKILL2` finds it when the I/O of the task
is done. `SETAST` stores the status of the task in the same place. A task that is marked
for abort and has no AST queued for it keeps its reason (`Move.coded`, `reason_of_reach`);
the completion of one of its I/O requests may take it away (`reason_lost`).
-/

namespace RSX280.Sched

universe u

variable {T : Type u}

/-! ## Reason codes -/

/-- The byte is the code `c`, with or without `TK.EIO`. -/
def Status.Tells (s : Status) (c : ℕ) : Prop := s = Status.ofByte c ∨ s = Status.ofByte (128 ||| c)

/-- `TKILL2`: what `QTKTN` gets in C. A task that has exited normally is not reported. -/
def Tcb.reason (b : Tcb T) : Option Status := if b.svst = {} then none else some b.svst

/-- With `TK.EIO` bit 7 is set. -/
theorem Status.ofByte_eio (c : ℕ) :
    Status.ofByte (128 ||| c) = { Status.ofByte c with bpt := true } := by
  have hbit : ∀ i < 7, Nat.testBit 128 i = false := by decide
  have h7 : Nat.testBit 128 7 = true := by decide
  simp [Status.ofByte, Nat.testBit_or, hbit, h7]

/-- The codes of `tkn.inc` leave bit 7 to `TK.EIO`. -/
theorem Status.tells_iff {s : Status} {c : ℕ} (hc : c < 128) :
    s.Tells c ↔ { s with bpt := false } = Status.ofByte c := by
  have hbit : (Status.ofByte c).bpt = false := Nat.testBit_lt_two_pow hc
  unfold Status.Tells
  rw [ofByte_eio]
  generalize Status.ofByte c = d at hbit
  cases s with
  | mk _ _ _ _ _ _ _ v =>
    cases d with
    | mk _ _ _ _ _ _ _ w =>
      obtain rfl : w = false := hbit
      cases v <;> simp

theorem Status.Tells.setBpt {s : Status} {c : ℕ} (hc : c < 128) (h : s.Tells c) (v : Bool) :
    Status.Tells { s with bpt := v } c := by
  rw [tells_iff hc] at h ⊢
  exact h

/-- The outstanding I/O bit of `IOKILL` does not touch the code. -/
theorem Status.tells_or {c oio : ℕ} (ho : oio = 0 ∨ oio = 128) :
    (Status.ofByte (oio ||| c)).Tells c := by
  rcases ho with rfl | rfl
  · rw [Nat.zero_or]
    exact Or.inl rfl
  · exact Or.inr rfl

/-- Only code 0 is not reported. -/
theorem Status.ofByte_eq_empty : ∀ n < 256, Status.ofByte n = {} ↔ n = 0 := by decide +kernel

/-! ## One task -/

/-- `SETAST` leaves the task as it is. -/
def Tcb.Barred (b : Tcb T) : Prop := b.st.ast = true ∨ b.attr.ast = false ∨ b.ctx = none

/-- A task that is marked for abort has its reason code, and no routine declared. -/
structure Tcb.Coded (b : Tcb T) (c : ℕ) : Prop where
  code : b.st1.abo = true → b.svst.Tells c ∧ b.sast = []
  saved : b.svst1.abo = false

namespace Tcb

variable {b d : Tcb T} {o : Outcome T} {c : ℕ}

theorem Coded.of_live (h : b.st1.abo = false) (hs : b.svst1.abo = false) : b.Coded c :=
  ⟨fun hb => (nomatch h.symm.trans hb), hs⟩

theorem Coded.congr (h : b.Coded c) (hb : d.st1.abo = b.st1.abo) (hv : d.svst = b.svst)
    (hs : d.sast = b.sast) (hw : d.svst1.abo = b.svst1.abo) : d.Coded c := by
  refine ⟨fun ha => ?_, hw.trans h.saved⟩
  rw [hv, hs]
  exact h.code (hb.symm.trans ha)

theorem abo_of_ready (h : b.home = .rlist) : b.st1.abo = false := by
  rw [(home_eq_rlist.mp h).1]
  rfl

/-- The routines that block and wake a task leave its reason. -/
theorem Coded.nudged (h : b.Coded c) (hn : Nudged b d) : d.Coded c := by
  obtain ⟨p, q, v, w, rfl⟩ := hn
  exact h.congr rfl rfl rfl rfl

theorem Coded.tcont (h : b.Coded c) : b.tcont.tcb.Coded c := by
  obtain ⟨e, s, he⟩ := b.tcont_eq
  rw [he]
  exact h.congr rfl rfl rfl rfl

theorem Coded.flag (h : b.Coded c) (m : BitVec 32) : (b.flag m).Coded c := by
  have hf : Coded { b with flgs := b.flgs ||| m } c := h.congr rfl rfl rfl rfl
  unfold Tcb.flag
  split
  · exact hf.tcont
  · exact hf

theorem Coded.flwait (h : b.Coded c) (m : BitVec 32) :
    (flwait0 { b with wait := m }).tcb.Coded c := by
  obtain ⟨v, hv⟩ := flwait0_eq { b with wait := m }
  rw [hv]
  exact h.congr rfl rfl rfl rfl

theorem Coded.flstop (h : b.Coded c) (m : BitVec 32) :
    (flstop0 { b with wait := m }).tcb.Coded c := by
  obtain ⟨v, hv⟩ := flstop0_eq { b with wait := m }
  rw [hv]
  exact h.congr rfl rfl rfl rfl

/-- `SETAST` takes the reason of a task that is marked for abort. -/
theorem Coded.setast (h : b.Coded c) (hb : b.st1.abo = true → b.Barred) :
    b.setast.tcb.Coded c := by
  rcases b.setast_eq with ⟨he, -⟩ | ⟨ha, hattr, -, x, hx, he⟩
  · rw [he]
    exact h
  · rw [he]
    have habo : b.st1.abo = false := by
      by_contra hc
      rcases hb (by simpa using hc) with h₁ | h₁ | h₁
      · exact nomatch h₁.symm.trans ha
      · exact nomatch h₁.symm.trans hattr
      · exact nomatch h₁.symm.trans hx
    exact Coded.of_live habo habo

/-- The saved status of a task that runs is not a reason. -/
theorem Coded.deliver (h : b.Coded c) (hb : b.st1.abo = false) : b.deliver.1.Coded c := by
  obtain ⟨s, l, m, sp, x, he⟩ := b.deliver_eq
  rw [he]
  exact Coded.of_live hb h.saved

theorem Coded.exit (h : b.Coded c) (hr : b.home = .rlist) (ho : b.astext = (o, true)) :
    o.tcb.Coded c := by
  obtain ⟨-, -, -, hv, ⟨h₁, -, -, -⟩ | ⟨-, h₁, -, -⟩⟩ := astext_left ho
  · apply Coded.of_live
    · rw [h₁]
      exact abo_of_ready hr
    · rw [hv]
      exact h.saved
  · apply Coded.of_live
    · rw [h₁]
      exact h.saved
    · rw [hv]
      exact h.saved

/-- `TKILL` stores the reason. -/
theorem Coded.aborted (h : b.Coded c) {n : ℕ} (hn : (Status.ofByte n).Tells c) (ioc : ℕ) :
    (b.aborted n ioc).Coded c := ⟨fun _ => ⟨hn, rfl⟩, h.saved⟩

theorem Coded.ended (h : b.Coded c) : b.ended.Coded c := by
  unfold Tcb.ended
  dsimp only
  split <;> exact h.congr rfl rfl rfl rfl

theorem Coded.loaded (h : b.Coded c) : b.loaded.Coded c := by
  unfold Tcb.loaded
  split <;> exact Coded.of_live rfl h.saved

/-- The reason is what `TKILL2` reports. -/
theorem Coded.reason (h : b.Coded c) (hc : c < 128) (hb : b.st1.abo = true) :
    ∃ n, (n = c ∨ n = 128 ||| c) ∧ b.reason = if n = 0 then none else some (Status.ofByte n) := by
  have hreason : ∀ n < 256, b.svst = Status.ofByte n →
      b.reason = if n = 0 then none else some (Status.ofByte n) := by
    intro n hn hs
    unfold Tcb.reason
    rw [hs]
    simp only [Status.ofByte_eq_empty n hn]
  rcases (h.code hb).1 with hs | hs
  · exact ⟨c, Or.inl rfl, hreason c (by omega) hs⟩
  · have hlt : 128 ||| c < 2 ^ 8 := Nat.or_lt_two_pow (by decide) (by omega)
    exact ⟨128 ||| c, Or.inr rfl, hreason _ hlt hs⟩

end Tcb

/-! ## Every move -/

/-- What a task is not to be exposed to when it was last killed for reason `c`. -/
structure Env.Sealed (E : Env T) (c : ℕ) : Prop where
  abort : ∀ n, E.abort n → (Status.ofByte n).Tells c
  event : ∀ a b, E.event a b → b.st1.abo = true → b.Barred
  fresh : ∀ b, E.fresh b → b.svst1.abo = false

/-- A move keeps the reason. -/
theorem Move.coded {E : Env T} {x : Act} {b d : Tcb T} {c : ℕ} (hE : E.Sealed c) (hc : c < 128)
    (hm : Move E x b d) (h : b.Coded c) : d.Coded c := by
  cases hm with
  | stop => exact h.nudged b.nudged_tstop
  | resume => exact h.nudged b.nudged_tresum
  | cont => exact h.tcont
  | setflg _ m => exact h.flag m
  | flwait _ m => exact h.flwait m
  | flstop _ m => exact h.flstop m
  | wtdat => exact h.nudged b.nudged_wtdat
  | datain => exact h.nudged b.nudged_datain
  | ldrin => exact h.nudged b.nudged_ldrin
  | queue _ e a x hq ha hs he =>
    subst hq
    have hl : Tcb.Coded { b with astl := b.astl ++ [x] } c := h.congr rfl rfl rfl rfl
    refine hl.setast fun hb => ?_
    cases hu : a.unspecified with
    | true => exact hE.event a b (he hu) hb
    | false =>
      -- the control blocks were taken off by `TKILL`
      have hnil : b.sast = [] := (h.code hb).2
      refine absurd ?_ (hs hu)
      rw [Tcb.fndast, hnil]
      rfl
  | setast _ hr => exact h.setast fun hb => (by cases (Tcb.abo_of_ready hr).symm.trans hb)
  | deliver _ _ _ _ _ hb _ _ hd =>
    have hc := h.deliver hb
    rwa [hd] at hc
  | lose _ _ _ _ _ hb _ _ hd =>
    have hc := h.deliver hb
    rwa [hd] at hc
  | exit _ o hr _ _ ho => exact h.exit hr ho
  | wake _ o hr _ _ ho => exact (h.exit hr ho).tcont
  | lost _ o hr _ ho => exact h.exit hr ho
  | badext _ o hr _ ho =>
    rw [Tcb.astext_bad ho]
    exact .of_live (Tcb.abo_of_ready hr) h.saved
  | setBpt _ v => exact ⟨fun hb => ⟨(h.code hb).1.setBpt hc v, (h.code hb).2⟩, h.saved⟩
  | abort _ n ioc hn => exact h.aborted (hE.abort n hn) ioc
  | ended => exact h.ended
  | reset _ mcr => exact ⟨fun hb => ⟨(h.code hb).1, rfl⟩, h.saved⟩
  | request => exact .of_live rfl h.saved
  | load | fix => exact .of_live rfl h.saved
  | loaded => exact h.loaded
  | astdcl _ s hr => exact .of_live (Tcb.abo_of_ready hr) h.saved
  | purge _ s l hr => exact .of_live (Tcb.abo_of_ready hr) h.saved
  | install _ _ _ hs _ hf =>
    refine .of_live ?_ (hE.fresh _ hf)
    rw [hs.2]
    rfl
  | _ => exact h.congr rfl rfl rfl rfl

/-! ## Runs -/

/-- The kernel, and the code each task was last killed with. -/
structure Told (T : Type u) where
  k : Kernel T
  code : T → ℕ

section Runs

variable [DecidableEq T] [Fintype T]

/-- The codes passed to `TKILL` after the operation. -/
def Op.told (op : Op T) (k : Kernel T) (code : T → ℕ) : T → ℕ :=
  match op.kill k with
  | none => code
  | some (t, e, _) => Function.update code t e

/-- What the operations get from outside: a code of `tkn.inc`, the bit `IOKILL` returns, and
control blocks with `T.SVST` cleared. -/
def Op.Given : Op T → Prop
  | .tkill _ e v | .doast _ e v | .astext _ e v => e < 128 ∧ (v.oio = 0 ∨ v.oio = 128)
  | .install _ b => b.svst1.abo = false
  | _ => True

/-- The kernel with its history. -/
def told : Machine (Op T) (Told T) where
  run op s := ⟨op.run s.k, op.told s.k s.code⟩
  Ready op s := op.Ready s.k ∧ op.Given

/-- No event of an I/O completion, a clock request or an unsolicited character is queued to a task
that is marked for abort, unless `SETAST` leaves the task alone. -/
def Op.Sealed (op : Op T) (s : Told T) : Prop :=
  ∀ t a, op.Queues t a → (s.k.tcb t).st1.abo = true → (s.k.tcb t).Barred

variable {s s' : Told T} {op : Op T} {t : T}

/-- Every task has its reason, if it is marked for abort. -/
def Told.Coded (s : Told T) : Prop := ∀ t, s.code t < 128 ∧ (s.k.tcb t).Coded (s.code t)

omit [Fintype T] in
theorem Op.mortal_of_kill {k : Kernel T} {e oio : ℕ} (h : op.kill k = some (t, e, oio)) :
    k.Mortal t := by
  cases op with
  | tkill u d v =>
    obtain ⟨hm, he⟩ := Option.ite_none_right_eq_some.mp h
    cases he
    exact hm
  | doast u d v =>
    obtain ⟨hm, he⟩ := Option.ite_none_right_eq_some.mp h
    cases he
    exact hm.2
  | astext u d v =>
    obtain ⟨hm, he⟩ := Option.ite_none_right_eq_some.mp h
    cases he
    exact hm.2.2
  | _ => exact nomatch h

omit [Fintype T] in
theorem Op.given_of_kill {k : Kernel T} {e oio : ℕ} (h : op.kill k = some (t, e, oio))
    (hg : op.Given) : e < 128 ∧ (oio = 0 ∨ oio = 128) := by
  cases op with
  | tkill u d v | doast u d v | astext u d v =>
    cases (Option.ite_none_right_eq_some.mp h).2
    exact hg
  | _ => exact nomatch h

/-- What task `t` is exposed to in the operation. -/
def Op.env (op : Op T) (k : Kernel T) (t : T) : Env T where
  abort n := ∃ e oio, op.kill k = some (t, e, oio) ∧ n = oio ||| e
  event a b := op.Queues t a ∧ b = k.tcb t
  fresh b := op = .install t b
  lost := True

theorem Op.moved_env {k : Kernel T} (hr : op.Ready k) : k.Moved (op.env k) (op.run k) := by
  apply Op.moved hr
  · exact fun t e oio hk => ⟨e, oio, hk, rfl⟩
  · exact fun t a hq => ⟨hq, rfl⟩
  · exact fun t b hi => hi
  · exact fun _ _ _ _ => Or.inl trivial

omit [Fintype T] in
theorem Op.Sealed.env {c : ℕ} (h : op.Sealed s) (hg : op.Given)
    (hk : ∀ e oio, op.kill s.k = some (t, e, oio) → e = c) : (op.env s.k t).Sealed c where
  abort := by
    rintro n ⟨e, oio, hkill, rfl⟩
    obtain rfl := hk e oio hkill
    exact Status.tells_or (Op.given_of_kill hkill hg).2
  event := by
    rintro a b ⟨hq, rfl⟩
    exact h t a hq
  fresh := by
    rintro b rfl
    exact hg

theorem Told.Coded.step (h : s.Coded) (hs : told.Step Op.Sealed s s') : s'.Coded := by
  obtain ⟨op, ⟨hr, hg⟩, hc, rfl⟩ := hs
  intro t
  have hrun : ∀ c, c < 128 → (∀ e oio, op.kill s.k = some (t, e, oio) → e = c) →
      (s.k.tcb t).Coded c → c < 128 ∧ ((op.run s.k).tcb t).Coded c := by
    intro c hlt hk hstart
    exact ⟨hlt, (Op.moved_env hr t).invariant hstart fun _ _ _ hm => hm.coded (hc.env hg hk) hlt⟩
  change op.told s.k s.code t < 128 ∧ ((op.run s.k).tcb t).Coded (op.told s.k s.code t)
  unfold Op.told
  cases hk : op.kill s.k with
  | none => exact hrun _ (h t).1 (fun e oio h' => (nomatch hk.symm.trans h')) (h t).2
  | some x =>
    obtain ⟨u, e, oio⟩ := x
    dsimp only
    by_cases hu : u = t
    · -- a task that is killed is not marked for abort before
      subst hu
      rw [Function.update_self]
      refine hrun e (Op.given_of_kill hk hg).1 (fun d n h' => ?_)
        (.of_live (Op.mortal_of_kill hk).2.2.2 (h u).2.saved)
      cases hk.symm.trans h'
      rfl
    · rw [Function.update_of_ne (Ne.symm hu)]
      refine hrun _ (h t).1 (fun d n h' => ?_) (h t).2
      cases hk.symm.trans h'
      exact absurd rfl hu

/-- In every state of every run whose steps seal the tasks that are marked for abort, what `TKILL2`
reports of such a task is the code it was killed with, with or without `TK.EIO`. -/
theorem reason_of_reach (h₀ : ∀ t, (s.k.tcb t).st1.abo = false ∧ (s.k.tcb t).svst1.abo = false)
    (hcode : ∀ t, s.code t = 0) (hr : Reach (told.Step Op.Sealed) s s') (t : T)
    (ha : (s'.k.tcb t).st1.abo = true) :
    ∃ n, (n = s'.code t ∨ n = 128 ||| s'.code t) ∧
      (s'.k.tcb t).reason = if n = 0 then none else some (Status.ofByte n) := by
  have hstart : s.Coded := by
    intro u
    refine ⟨?_, .of_live (h₀ u).1 (h₀ u).2⟩
    rw [hcode u]
    decide
  have hcoded : s'.Coded := hr.invariant hstart fun _ _ => Told.Coded.step
  exact (hcoded t).2.reason (hcoded t).1 ha

/-! ### An I/O completion after `TKILL` -/

/-- Two tasks before they are started. -/
def told2 : Told (Fin 2) := ⟨boot2, fun _ => 0⟩

/-- Task 0, with an I/O request on its way, is killed for reason 3. -/
def killed : List (Op (Fin 2)) := start2 ++ [.io 0 1, .tkill 0 3 ⟨[], true, true, 128, 1, false⟩]

theorem admits_killed {P : Op (Fin 2) → Told (Fin 2) → Prop}
    (h : ∀ op s, (∀ t a, ¬op.Queues t a) → P op s) : told.Admits P killed told2 := by
  simp only [killed, start2, List.cons_append, List.nil_append, Machine.Admits]
  refine ⟨⟨⟨trivial, trivial⟩, h _ _ fun _ _ => id⟩, ⟨⟨trivial, trivial⟩, h _ _ fun _ _ => id⟩,
    ⟨⟨trivial, trivial⟩, h _ _ fun _ _ => id⟩, ⟨⟨trivial, trivial⟩, h _ _ fun _ _ => id⟩,
    ⟨⟨trivial, trivial⟩, h _ _ fun _ _ => id⟩, ⟨⟨trivial, trivial⟩, h _ _ fun _ _ => id⟩,
    ⟨⟨trivial, by decide, Or.inr rfl⟩, h _ _ fun _ _ => id⟩, trivial⟩

/-- The request completes, and no AST is wanted for it. -/
theorem reason_of_reach_kill :
    ∃ n, (n = 3 ∨ n = 128 ||| 3) ∧ ((told.runAll killed told2).k.tcb 0).reason =
      if n = 0 then none else some (Status.ofByte n) :=
  reason_of_reach (s := told2) (fun _ => ⟨rfl, rfl⟩) (fun _ => rfl)
    (Machine.reach_runAll (admits_killed fun _ _ h t a hq => absurd hq (h t a))) 0 rfl

/-- The request completes, and an AST is queued for it: code 1 is reported. -/
theorem reason_lost : ∃ s s' : Told (Fin 2),
    (∀ t, (s.k.tcb t).st1.abo = false ∧ (s.k.tcb t).svst1.abo = false) ∧ (∀ t, s.code t = 0) ∧
    Reach (told.Step fun _ _ => True) s s' ∧ ∃ t, (s'.k.tcb t).st1.abo = true ∧
      ¬∃ n, (n = s'.code t ∨ n = 128 ||| s'.code t) ∧
        (s'.k.tcb t).reason = if n = 0 then none else some (Status.ofByte n) := by
  refine ⟨told2, told.runAll (killed ++ [.qast 0 .io 512 [] true, .io 0 0, .tkill2 0]) told2,
    fun _ => ⟨rfl, rfl⟩, fun _ => rfl, Machine.reach_runAll ?_, 0, rfl, ?_⟩
  · refine Machine.admits_append (admits_killed fun _ _ _ => trivial) ?_
    exact ⟨⟨⟨trivial, trivial⟩, trivial⟩, ⟨⟨trivial, trivial⟩, trivial⟩, ⟨⟨rfl, trivial⟩, trivial⟩,
      trivial⟩
  · have hcode : (told.runAll (killed ++ [.qast 0 .io 512 [] true, .io 0 0, .tkill2 0]) told2).code 0 =
        3 := rfl
    have hreason : ((told.runAll (killed ++ [.qast 0 .io 512 [] true, .io 0 0, .tkill2 0])
        told2).k.tcb 0).reason = some (Status.ofByte 1) := rfl
    rintro ⟨n, hn, h⟩
    rw [hcode] at hn
    rw [hreason] at h
    rcases hn with rfl | rfl
    · exact absurd h (by decide)
    · exact absurd h (by decide)

end Runs

end RSX280.Sched
