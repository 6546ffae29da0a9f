import RSX280.ChkptMoves

/-!
# Assignment and request

`$ASNTP` keeps everything in order: it queues waiting tasks to the loader, and tasks to be
checkpointed. Of the tasks that wait for a system-controlled partition it takes the first
that can run and fits, so one of highest priority among these (`Inv.scan`). A request is a
task that joins the wait list, and an assignment.
-/

namespace RSX280.Chkpt

open Queue Spans Subpars
open Sched (Ret)
open Pars (getsiz)

universe u v w

namespace Kernel

variable {T : Type u} {P : Type v} {F : Type w} [DecidableEq T] [DecidableEq P] [DecidableEq F]
  {c : Config T F} {q : Meets} {k k' k₁ k₂ : Kernel T P F} {sp sp' sp₁ sp₂ : T → Spot}
  {x y : Option T} {t u : T} {p : P} {b : Tcb P} {m : Main T} {s : Spot} {v : Look T}

/-- Tasks that are fixed, ended or not active are left alone, `y` aside. -/
def Aside (k : Kernel T P F) (sp : T → Spot) (k' : Kernel T P F) (sp' : T → Spot)
    (y : Option T) : Prop :=
  ∀ u, y ≠ some u → ((k.tcb u).fix = true → k'.tcb u = k.tcb u) ∧
    (sp u = .dead ∨ sp u = .off → sp' u = sp u)

omit [DecidableEq T] [DecidableEq P] [DecidableEq F] in
theorem Aside.refl (k : Kernel T P F) (sp : T → Spot) (y : Option T) : k.Aside sp k sp y :=
  fun _ _ => ⟨fun _ => rfl, fun _ => rfl⟩

omit [DecidableEq T] [DecidableEq P] [DecidableEq F] in
theorem Aside.trans (h : k.Aside sp k₁ sp₁ y) (h' : k₁.Aside sp₁ k₂ sp₂ y) :
    k.Aside sp k₂ sp₂ y := by
  intro u hu
  obtain ⟨h₁, h₂⟩ := h u hu
  obtain ⟨h₁', h₂'⟩ := h' u hu
  refine ⟨fun hf => ?_, fun hs => ?_⟩
  · have he := h₁ hf
    exact (h₁' (he ▸ hf)).trans he
  · have he := h₂ hs
    exact (h₂' (he ▸ hs)).trans he

omit [DecidableEq T] [DecidableEq P] [DecidableEq F] in
theorem Aside.mono (h : k.Aside sp k₁ sp₁ none) (y : Option T) : k.Aside sp k₁ sp₁ y :=
  fun u _ => h u nofun

/-- Tasks stay in their partitions. -/
structure Same (k k' : Kernel T P F) : Prop where
  pcb : ∀ u, (k'.tcb u).pcb = (k.tcb u).pcb
  main : ∀ p, (k'.main p).sys = (k.main p).sys

omit [DecidableEq T] [DecidableEq P] [DecidableEq F] in
theorem Same.refl (k : Kernel T P F) : k.Same k := ⟨fun _ => rfl, fun _ => rfl⟩

omit [DecidableEq T] [DecidableEq P] [DecidableEq F] in
theorem Same.trans (h : k.Same k₁) (h' : k₁.Same k₂) : k.Same k₂ :=
  ⟨fun u => (h'.pcb u).trans (h.pcb u), fun p => (h'.main p).trans (h.main p)⟩

omit [DecidableEq T] [DecidableEq P] [DecidableEq F] in
theorem Same.sys (h : k.Same k') (u : T) : k'.sys u = k.sys u := by
  rw [Kernel.sys, Kernel.sys, h.pcb, h.main]

omit [DecidableEq T] [DecidableEq P] [DecidableEq F] in
theorem Inert.same (h : k.Inert k') : k.Same k' :=
  ⟨fun u => (h.tcb u).1, fun p => by rw [h.main]⟩

omit [DecidableEq P] [DecidableEq F] in
theorem same_setTcb (hb : b.pcb = (k.tcb t).pcb) : k.Same (k.setTcb t b) :=
  ⟨setTcb_pcb hb, fun _ => rfl⟩

/-- If there is no context block for a task, the memory released is nobody else's. -/
def Clears (k : Kernel T P F) (t : T) (ctx : Bool) : Prop :=
  ctx = true ∨ k.sys t = true ∨ k.bsy (k.tcb t).pcb = false

omit [DecidableEq T] [DecidableEq P] [DecidableEq F] in
theorem Clears.congr {ctx : Bool} (h : k.Clears t ctx) (hs : k.Same k') (hb : k'.bsy = k.bsy) :
    k'.Clears t ctx := by
  rwa [Clears, hs.sys, hs.pcb, hb]

/-! ## Checkpoints to make space -/

omit [DecidableEq P] in
/-- Of the tasks that have memory in a system-controlled partition only those in memory are
checkpointed. -/
theorem Inv.chkpt_eq (h : k.Inv q sp x) (hl : k.linked t) (ht : sp t ≠ .core) (z pool : Bool) :
    (k.chkpt c t z pool).1 = k := by
  have hf := h.fine t
  rw [Kernel.chkpt]
  split
  · rfl
  next hguard =>
  simp only [Bool.or_eq_true, not_or, Bool.not_eq_true] at hguard
  obtain ⟨⟨⟨⟨⟨hckp, hfix⟩, -⟩, habo⟩, hout⟩, -⟩ := hguard
  cases hs : sp t <;> rw [hs] at hf
  · exact absurd hl hf.2.2.2.2
  · exact absurd hl hf.2.2.2.2.2.2.1
  · have hoc := hf.2.2.2.2.2.1
    rw [hout, hckp] at hoc
    cases hoc
  · have hoc := hf.2.2.2.2.1
    rw [hout, hckp] at hoc
    cases hoc
  · exact absurd hs ht
  · have hoc := hf.2.2.2.2.2.1
    rw [hout, hckp] at hoc
    cases hoc
  · cases habo.symm.trans hf.2.1
  · cases habo.symm.trans hf.2.1

omit [DecidableEq P] in
theorem chkpt_of_fix (hf : (k.tcb t).fix = true) (z pool : Bool) :
    (k.chkpt c t z pool).1 = k := by
  rw [Kernel.chkpt, hf]
  simp

/-- `MKSPC` leaves what `$ASNTP` looks at as it is. -/
theorem Inv.mkspc (h : k.Inv q sp x) (p : P) (t : T) : ∃ sp', (k.mkspc c v p t).Inv q sp' x ∧
    k.Aside sp (k.mkspc c v p t) sp' none ∧ (∀ u, sp u = .wait → sp' u = .wait) ∧
    k.Inert (k.mkspc c v p t) := by
  rw [Kernel.mkspc]
  generalize v.spc t = l
  induction l generalizing k sp with
  | nil => exact ⟨sp, h, Aside.refl k sp none, fun _ => id, Inert.refl k⟩
  | cons a l ih =>
    rw [List.foldl_cons]
    split
    · next ha =>
      obtain ⟨-, hpcb⟩ := h.mem.home p a.1 ha
      have hl : k.linked a.1 := by rwa [linked, hpcb]
      by_cases hc : sp a.1 = .core
      · obtain ⟨sp₁, h₁, hsp₁, hin₁⟩ := h.chkpt (c := c) hc (v.xdt a.1) a.2
        obtain ⟨sp₂, h₂, has₂, hw₂, hin₂⟩ := ih h₁
        refine ⟨sp₂, h₂, Aside.trans (fun u _ => ⟨fun hf => ?_, fun hs => (hsp₁ u ?_).1⟩) has₂,
          fun u hu => hw₂ u ?_, hin₁.trans hin₂⟩
        · rcases eq_or_ne u a.1 with rfl | hne
          · rw [chkpt_of_fix hf]
          · exact (hsp₁ u hne).2
        · rintro rfl
          rcases hs with hs | hs <;> cases hc.symm.trans hs
        · have hne : u ≠ a.1 := by
            rintro rfl
            cases hc.symm.trans hu
          exact (hsp₁ u hne).1.trans hu
      · rw [h.chkpt_eq hl hc]
        exact ih h
    · exact ih h

/-! ## The scan of the wait list -/

omit [DecidableEq T] [DecidableEq P] [DecidableEq F] in
/-- Whether a task could be given memory depends on what is inert only. -/
theorem fits_of_inert (h : k.Inert k') (p : P) (u : T) :
    (k'.runnable v u && ((k'.main p).fndgap (k'.pages p u)).isSome) =
      (k.runnable v u && ((k.main p).fndgap (k.pages p u)).isSome) := by
  obtain ⟨-, -, hldr, habo⟩ := h.tcb u
  rw [runnable, runnable, hldr, habo, pages, pages, h.main]

omit [DecidableEq P] [DecidableEq F] in
/-- `MALLOC` fails if there is no gap only. -/
theorem fndgap_of_malloc {n : ℕ} (hm : ∀ m', (k.main p).malloc t n = (m', .ok) → False) :
    (k.main p).fndgap n = none := by
  cases hg : (k.main p).fndgap n with
  | none => rfl
  | some g =>
    simp only [Main.malloc, hg] at hm
    exact (hm _ rfl).elim

/-- One scan assigns memory to at most one task, and this is one of highest priority among
those that can run and fit: the tasks passed, `l₁`, cannot or do not. -/
theorem Inv.scan (hp : (k.main p).sys = true) {l₁ l₂ : List T} (tpri : Option ℕ)
    (h : k.Inv q sp x) (hl : k.wait p = l₁ ++ l₂)
    (hl₁ : ∀ u ∈ l₁,
      (k.runnable v u && ((k.main p).fndgap (k.pages p u)).isSome) = false) :
    ∃ sp', (k.scan c v p l₂ tpri).1.Inv q sp' x ∧
      k.Aside sp (k.scan c v p l₂ tpri).1 sp' none ∧ k.Same (k.scan c v p l₂ tpri).1 := by
  induction l₂ generalizing k sp l₁ tpri with
  | nil => exact ⟨sp, h, Aside.refl k sp none, Same.refl k⟩
  | cons t l ih =>
    have hl' : k.wait p = (l₁ ++ [t]) ++ l := by rw [hl, List.append_assoc, List.singleton_append]
    rw [Kernel.scan]
    split
    · exact ⟨sp, h, Aside.refl k sp none, Same.refl k⟩
    split
    · next hrun =>
      refine ih hp none h hl' fun u hu => ?_
      rcases List.mem_append.mp hu with hu | hu
      · exact hl₁ u hu
      · rw [List.mem_singleton.mp hu]
        rw [Bool.not_eq_true'] at hrun
        rw [hrun, Bool.false_and]
    have ht : t ∈ k.wait p := by
      rw [hl]
      exact List.mem_append_right _ List.mem_cons_self
    have hw := ((h.lists.wait p t).mp ht).1
    split
    · next m hm =>
      refine ⟨_, h.grant hp ht hm fun ho n hn => ?_, fun u _ => ⟨fun _ => rfl, fun hs => ?_⟩,
        fun _ => rfl, fun p' => ?_⟩
      · obtain ⟨u, hu, rfl⟩ := List.mem_map.mp hn
        obtain ⟨hu, hfit⟩ := List.mem_filter.mp hu
        have hfall : Falling (fun t => (k.tcb t).pri) (l₁ ++ t :: l) := hl ▸ h.order ho p
        rw [hl] at hu
        rcases List.mem_append.mp hu with hu | hu
        · rw [hl₁ u hu] at hfit
          cases hfit
        · rcases List.mem_cons.mp hu with rfl | hu
          · exact le_rfl
          · exact (List.pairwise_cons.mp (List.pairwise_append.mp hfall).2.1).1 u hu
      · refine Function.update_of_ne ?_ ..
        rintro rfl
        rcases hs with hs | hs <;> exact nomatch hw.symm.trans hs
      · exact (changed_setMain ((h.mem.laid p hp).malloc_ok hm).1 p').sys
    · next hm =>
      obtain ⟨sp₁, h₁, has₁, -, hin₁⟩ := h.mkspc (c := c) (v := v) p t
      have hwait : (k.mkspc c v p t).wait p = (l₁ ++ [t]) ++ l := by rw [hin₁.wait, hl']
      have hp₁ : ((k.mkspc c v p t).main p).sys = true := by rw [hin₁.main, hp]
      obtain ⟨sp₂, h₂, has₂, hsame₂⟩ := ih hp₁ (some (k.tcb t).pri) h₁ hwait fun u hu => by
        rw [fits_of_inert hin₁]
        rcases List.mem_append.mp hu with hu | hu
        · exact hl₁ u hu
        · rw [List.mem_singleton.mp hu, fndgap_of_malloc hm, Option.isSome_none,
            Bool.and_false]
      exact ⟨sp₂, h₂, has₁.trans has₂, hin₁.same.trans hsame₂⟩

/-- `$ASNTP`. -/
theorem Inv.asntp (h : k.Inv q sp x) (p : P) : ∃ sp', (k.asntp c v p).Inv q sp' x ∧
    k.Aside sp (k.asntp c v p) sp' none ∧ k.Same (k.asntp c v p) := by
  rw [Kernel.asntp]
  split
  · next hp =>
    generalize (k.wait p).length = n
    induction n generalizing k sp with
    | zero => exact ⟨sp, h, Aside.refl k sp none, Same.refl k⟩
    | succ n ih =>
      obtain ⟨sp₁, h₁, has₁, hsame₁⟩ := Inv.scan (c := c) (v := v) hp none h
        (List.nil_append _).symm fun _ hu => absurd hu List.not_mem_nil
      rw [ps2]
      split
      · next k' hs =>
        rw [hs] at h₁ has₁ hsame₁
        obtain ⟨sp₂, h₂, has₂, hsame₂⟩ := ih h₁ ((hsame₁.main p).trans hp)
        exact ⟨sp₂, h₂, has₁.trans has₂, hsame₁.trans hsame₂⟩
      · next k' hs =>
        rw [hs] at h₁ has₁ hsame₁
        exact ⟨sp₁, h₁, has₁, hsame₁⟩
  next hp =>
  split
  · exact ⟨sp, h, Aside.refl k sp none, Same.refl k⟩
  next hb =>
  split
  · exact ⟨sp, h, Aside.refl k sp none, Same.refl k⟩
  next t l hl =>
  have hw := ((h.lists.wait p t).mp (hl ▸ List.mem_cons_self)).1
  refine ⟨_, h.assign (by simpa using hp) (by simpa using hb) hl,
    fun u _ => ⟨fun _ => rfl, fun hs => ?_⟩, fun _ => rfl, fun _ => rfl⟩
  refine Function.update_of_ne ?_ ..
  rintro rfl
  rcases hs with hs | hs <;> exact nomatch hw.symm.trans hs

/-! ## Memory that is released -/

omit [DecidableEq F] in
/-- What releasing memory does to the other tasks. -/
theorem Mem.mfree (h : k.Mem) (t : T) : (k.mfree t).Mem ∧ ¬(k.mfree t).linked t ∧
    ∀ p, (k.main p).Changed ((k.mfree t).main p) t := by
  unfold Kernel.mfree
  dsimp only
  split
  · next hs =>
    obtain ⟨hc, hm, hsize⟩ := (h.laid _ hs).mfree_spec t
    have hmem := h.setMain hc (fun _ => (h.laid _ hs).mfree t)
      (hsize.trans_lt (h.small _ t)) (fun hc => absurd hc hm)
    refine ⟨hmem, ?_, changed_setMain hc⟩
    rw [linked, Kernel.setMain]
    dsimp only
    rwa [Function.update_self]
  · next hs =>
    exact ⟨⟨h.laid, h.small, h.home⟩, fun hc => hs (h.home _ t hc).1,
      fun _ => Main.changed_refl ..⟩

/-- Nothing but the memory has changed. -/
structure Apart (k k' : Kernel T P F) : Prop where
  tcb : k'.tcb = k.tcb
  wait : k'.wait = k.wait
  ldq : k'.ldq = k.ldq
  loading : k'.loading = k.loading
  io : k'.io = k.io
  own : k'.own = k.own
  given : k'.given = k.given
  spaced : k'.Spaced ↔ k.Spaced

omit [DecidableEq T] [DecidableEq P] [DecidableEq F] in
theorem Apart.trans (h : k.Apart k₁) (h' : k₁.Apart k₂) : k.Apart k₂ :=
  ⟨h'.tcb.trans h.tcb, h'.wait.trans h.wait, h'.ldq.trans h.ldq, h'.loading.trans h.loading,
    h'.io.trans h.io, h'.own.trans h.own, h'.given.trans h.given, h'.spaced.trans h.spaced⟩

omit [DecidableEq F] in
theorem apart_mfree (k : Kernel T P F) (t : T) : k.Apart (k.mfree t) := by
  rw [Kernel.mfree]
  split <;> exact ⟨rfl, rfl, rfl, rfl, rfl, rfl, rfl, Iff.rfl⟩

omit [DecidableEq F] in
theorem apart_resize (k : Kernel T P F) (t : T) (n : ℕ) : k.Apart (k.resize t n) :=
  ⟨rfl, rfl, rfl, rfl, rfl, rfl, rfl, Iff.rfl⟩

omit [DecidableEq F] in
/-- Only a partition that is not system-controlled is marked free, and only that of the
task. -/
theorem bsy_mfree (h : k.sys t = true ∨ p ≠ (k.tcb t).pcb) : (k.mfree t).bsy p = k.bsy p := by
  rw [Kernel.mfree]
  split
  · rfl
  · next hs => exact Function.update_of_ne (h.resolve_left hs) ..

omit [DecidableEq T] [DecidableEq P] [DecidableEq F] in
/-- A partition that a task takes up is nobody else's. -/
theorem Inv.alone (h : k.Inv q sp x) (hst : q.steady) (ht : sp t ≠ .off) (hw : sp t ≠ .wait)
    (hu : u ≠ t) (ho : k.owns u) : k.sys t = true ∨ (k.tcb u).pcb ≠ (k.tcb t).pcb := by
  by_cases hs : k.sys t = true
  · exact Or.inl hs
  · refine Or.inr fun hp => hu ?_
    obtain ⟨-, h₁⟩ := h.owns hst t ⟨by simpa using hs, ht, hw⟩
    obtain ⟨-, h₂⟩ := ho
    rw [hp] at h₂
    exact Option.some.inj (h₂.symm.trans h₁)

omit [DecidableEq F] in
/-- The memory of a task is released that is not active: of one that has ended, or one for
which there is no context block. -/
theorem Inv.mfree (h : k.Inv q sp x) (ht : sp t = .dead ∨ sp t = .off)
    (hs : q.steady → sp t = .off → k.sys t = true ∨ k.bsy (k.tcb t).pcb = false)
    (hx : ∀ u, u ≠ t → x = some u → y = some u) :
    (k.mfree t).Inv q (Function.update sp t .off) y := by
  obtain ⟨hmem, hnl, hc⟩ := h.mem.mfree t
  obtain ⟨htcb, hwait, hldq, hloading, hio, hown, hgiven, hspace⟩ := apart_mfree k t
  have hpcb : ∀ u, ((k.mfree t).tcb u).pcb = (k.tcb u).pcb := fun u => by rw [htcb]
  have hoff : (k.tcb t).act = false ∧ (k.tcb t).fix = false ∧ (k.tcb t).cpcb = none ∧
      (k.io t).length = 0 := by
    have hf := h.fine t
    rcases ht with ht | ht <;> rw [ht] at hf
    · exact ⟨hf.1, hf.2.2.1, hf.2.2.2.2, hf.2.2.2.1⟩
    · exact ⟨hf.1, hf.2.1, hf.2.2.1, hf.2.2.2.1⟩
  have hfree : (sp t).Free := by
    rcases ht with ht | ht <;> rw [ht] <;> exact ⟨(by rintro ⟨⟩), (by rintro ⟨⟩), (by rintro ⟨⟩)⟩
  refine h.change t ?_ hmem (hspace.mpr h.space) (fun u hu => ?_) ?_ (fun u hu => ?_) ?_
    (fun hst u hu hto => ?_) (fun _ u hu _ => (rest_of_changed hpcb hc hu).2.2) ?_ ?_ ?_
  · refine h.lists.move t .off hpcb (fun p u _ => by rw [hwait]) (fun p => ?_)
      (fun u _ => by rw [hldq]) ?_ (fun u _ => by rw [hloading]) ?_
      (by rw [hwait]; exact h.lists.waitNodup) (by rw [hldq]; exact h.lists.queueNodup)
    · rw [hwait, h.lists.wait]
      exact iff_of_false (fun hc => hfree.1 hc.1) fun hc => by cases hc.1
    · rw [hldq, h.lists.queue]
      exact iff_of_false hfree.2.1 (by rintro ⟨⟩)
    · rw [hloading, h.lists.load]
      exact iff_of_false hfree.2.2 (by rintro ⟨⟩)
  · obtain ⟨h₁, h₂, -⟩ := rest_of_changed hpcb hc hu
    exact ⟨Function.update_of_ne hu .., by rw [htcb], by rw [hio], h₁, h₂⟩
  · rw [htcb, hio, Function.update_self]
    exact ⟨hoff.1, hoff.2.1, hoff.2.2.1, hoff.2.2.2, hnl⟩
  · rcases eq_or_ne u t with rfl | hne
    · rw [Function.update_self] at hu
      cases hu
    · rw [Function.update_of_ne hne] at hu
      exact hx u hne (h.dead u hu)
  · rw [htcb, hio]
    exact h.ioc t
  · rcases eq_or_ne u t with rfl | hne
    · exact absurd (Function.update_self ..) hto.2.1
    obtain ⟨h₁, h₂⟩ := hu hne
    rw [Kernel.owns, hpcb, hown]
    refine ⟨(bsy_mfree ?_).trans h₁, h₂⟩
    rcases ht with ht | ht
    · exact h.alone hst (by rw [ht]; rintro ⟨⟩) (by rw [ht]; rintro ⟨⟩) hne (hu hne)
    · refine (hs hst ht).imp_right fun hb hp => ?_
      rw [hp, hb] at h₁
      cases h₁
  · intro _ r hr
    rw [hio, List.eq_nil_of_length_eq_zero hoff.2.2.2] at hr
    exact absurd hr List.not_mem_nil
  · intro ho p
    rw [htcb, hwait]
    exact h.order ho p
  · intro ho p g hg
    rw [hgiven] at hg
    exact h.given ho p g hg

omit [DecidableEq F] in
/-- A task that has no memory is given a size. In a partition that is not system-controlled
this changes the size of the partition. -/
theorem Mem.resize {n : ℕ} (h : k.Mem) (hl : ¬k.linked t) (hn : n < 256) :
    (k.resize t n).Mem ∧ ¬(k.resize t n).linked t ∧ ∀ u, u ≠ t →
      ((k.resize t n).linked u ↔ k.linked u) ∧
      (k.sys t = true ∨ (k.tcb u).pcb ≠ (k.tcb t).pcb → (k.resize t n).region u = k.region u) := by
  unfold Kernel.resize
  dsimp only
  by_cases hs : (k.main (k.tcb t).pcb).sys = true
  · rw [if_pos hs]
    obtain ⟨m, hm⟩ : ∃ m, m = { k.main (k.tcb t).pcb with
      pcb := Function.update (k.main (k.tcb t).pcb).pcb t
        { (k.main (k.tcb t).pcb).pcb t with size := n } } := ⟨_, rfl⟩
    have hc : (k.main (k.tcb t).pcb).Changed m t := hm ▸ Main.changed_setPcb ..
    have hlaid : m.Laid := hm ▸ (h.laid _ hs).setPcb hl _
    have hsize : (m.pcb t).size < 256 := by
      rw [hm]
      dsimp only
      rwa [Function.update_self]
    have hsub : t ∉ m.sub := by
      rw [hm]
      exact hl
    rw [← hm]
    have hrest : ∀ u, u ≠ t → (k.setMain (k.tcb t).pcb m).sys u = k.sys u ∧
        ((k.setMain (k.tcb t).pcb m).linked u ↔ k.linked u) ∧
        (k.setMain (k.tcb t).pcb m).region u = k.region u := fun u hu =>
      rest_of_changed (fun _ => rfl) (changed_setMain hc) hu
    refine ⟨h.setMain hc (fun _ => hlaid) hsize fun hc => absurd hc hsub, ?_, fun u hu =>
      ⟨(hrest u hu).2.1, fun _ => (hrest u hu).2.2⟩⟩
    rw [linked, Kernel.setMain]
    dsimp only
    rwa [Function.update_self]
  · rw [if_neg hs]
    have hlinked : ∀ u, (k.setMain (k.tcb t).pcb
        { k.main (k.tcb t).pcb with size := n }).linked u ↔ k.linked u := by
      intro u
      rw [linked, linked, Kernel.setMain]
      dsimp only
      rcases eq_or_ne (k.tcb u).pcb (k.tcb t).pcb with hp | hp
      · rw [hp, Function.update_self]
      · rw [Function.update_of_ne hp]
    refine ⟨⟨fun p hp => ?_, fun p u => ?_, fun p u hu => ?_⟩, fun hc => hl ((hlinked t).mp hc),
      fun u _ => ⟨hlinked u, fun hp => ?_⟩⟩
    all_goals dsimp only [Kernel.setMain] at *
    · rcases eq_or_ne p (k.tcb t).pcb with rfl | hne
      · rw [Function.update_self] at hp
        exact absurd hp hs
      · rw [Function.update_of_ne hne] at hp ⊢
        exact h.laid p hp
    · rcases eq_or_ne p (k.tcb t).pcb with rfl | hne
      · rw [Function.update_self]
        exact h.small _ u
      · rw [Function.update_of_ne hne]
        exact h.small p u
    · rcases eq_or_ne p (k.tcb t).pcb with rfl | hne
      · rw [Function.update_self] at hu ⊢
        exact h.home _ u hu
      · rw [Function.update_of_ne hne] at hu ⊢
        exact h.home p u hu
    · have hne := hp.resolve_left hs
      simp only [region, Function.update_of_ne hne]

omit [DecidableEq F] in
theorem same_resize (k : Kernel T P F) (t : T) (n : ℕ) : k.Same (k.resize t n) := by
  refine ⟨fun _ => rfl, fun p => ?_⟩
  dsimp only [Kernel.resize, Kernel.setMain]
  rcases eq_or_ne p (k.tcb t).pcb with rfl | hp
  · rw [Function.update_self]
    split <;> rfl
  · rw [Function.update_of_ne hp]

omit [DecidableEq F] in
theorem Inv.resize {n : ℕ} (h : k.Inv q sp x) (ht : sp t = .off) (hs : k.sys t = true)
    (hn : n < 256) : (k.resize t n).Inv q sp x := by
  have hoff : Tcb.Fine q _ _ _ _ .off := ht ▸ h.fine t
  have hnil : k.io t = [] := List.eq_nil_of_length_eq_zero hoff.2.2.2.1
  obtain ⟨hmem, hl, hrest⟩ := h.mem.resize hoff.2.2.2.2 hn
  refine h.change t ⟨h.lists.wait, h.lists.queue, h.lists.load, h.lists.waitNodup,
    h.lists.queueNodup⟩ hmem h.space (fun u hu => ?_) ?_ h.dead (h.ioc t)
    (fun hst u hu hto => ?_) (fun _ u hu _ => (hrest u hu).2 (Or.inl hs)) ?_ h.order h.given
  · exact ⟨rfl, rfl, rfl, (same_resize k t n).sys u, (hrest u hu).1⟩
  · rw [ht]
    exact ⟨hoff.1, hoff.2.1, hoff.2.2.1, hoff.2.2.2.1, hl⟩
  · refine hu ?_
    rintro rfl
    exact hto.2.1 ht
  · intro _ r hr
    exact absurd (hnil ▸ hr) List.not_mem_nil

omit [DecidableEq F] in
theorem Inv.same_mfree (h : k.Inv q sp x) (t : T) : k.Same (k.mfree t) where
  pcb u := by rw [(apart_mfree k t).tcb]
  main p := ((h.mem.mfree t).2.2 p).sys

/-- `TFREE`. -/
theorem Inv.tfree (h : k.Inv q sp x) (ht : sp t = .dead ∨ sp t = .off)
    (hs : q.steady → sp t = .off → k.sys t = true ∨ k.bsy (k.tcb t).pcb = false)
    (hx : ∀ u, u ≠ t → x = some u → y = some u) :
    ∃ sp', (k.tfree c t v).Inv q sp' y ∧ k.Aside sp (k.tfree c t v) sp' (some t) ∧
      sp' t = .off ∧ k.Same (k.tfree c t v) := by
  have h₁ := h.mfree ht hs hx
  have htcb := (apart_mfree k t).tcb
  obtain ⟨sp₂, h₂, has₂, hsame₂⟩ := h₁.asntp (c := c) (v := v) (k.tcb t).pcb
  refine ⟨sp₂, h₂, fun u hu => ?_, ?_, (h.same_mfree t).trans hsame₂⟩
  · have hne : u ≠ t := fun he => hu (congrArg some he.symm)
    obtain ⟨hf, hsp⟩ := has₂ u nofun
    rw [Function.update_of_ne hne] at hsp
    rw [htcb] at hf
    exact ⟨hf, hsp⟩
  · rw [(has₂ t nofun).2 (Or.inr (Function.update_self ..)), Function.update_self]

/-! ## Request -/

theorem Inv.room {r : Request T} (h : k.Inv q sp x) (ht : sp t = .off)
    (hs : q.steady → k.Clears t r.ctx) :
    match k.room c t r with
    | .error e => ∃ sp', e.1.Inv q sp' x ∧ k.Aside sp e.1 sp' (some t) ∧ k.Same e.1
    | .ok k' => k'.Inv q sp x ∧ k'.tcb = k.tcb ∧ k.Same k' := by
  have hfail : ∀ e : Ret, ∃ sp', ((k, e) : Kernel T P F × Ret).1.Inv q sp' x ∧
      k.Aside sp ((k, e) : Kernel T P F × Ret).1 sp' (some t) ∧ k.Same k := fun e =>
    ⟨sp, h, (Aside.refl k sp none).mono _, Same.refl k⟩
  unfold Kernel.room
  dsimp only
  cases getsiz (k.tcb t).dend with
  | error e => exact hfail (.err e)
  | ok e =>
    dsimp only
    by_cases he : 16 < e
    · rw [if_pos he]
      exact hfail (.err .nomem)
    rw [if_neg he]
    by_cases hsub : ((k.main (k.tcb t).pcb).sys && !r.sub) = true
    · rw [if_pos hsub]
      exact hfail .carry
    rw [if_neg hsub]
    obtain ⟨k', hk'⟩ : ∃ k', k' = if (k.main (k.tcb t).pcb).sys = true then k.resize t e else k :=
      ⟨_, rfl⟩
    have hsized : k'.Inv q sp x ∧ k'.tcb = k.tcb ∧ k.Same k' ∧ k'.bsy = k.bsy := by
      rw [hk']
      by_cases hsys : (k.main (k.tcb t).pcb).sys = true
      · rw [if_pos hsys]
        exact ⟨h.resize ht hsys (by omega), rfl, same_resize k t e, rfl⟩
      · rw [if_neg hsys]
        exact ⟨h, rfl, Same.refl k, rfl⟩
    rw [← hk']
    obtain ⟨h', htcb, hsame, hbsy⟩ := hsized
    cases hctx : r.ctx with
    | true => exact ⟨h', htcb, hsame⟩
    | false =>
      obtain ⟨sp₂, h₂, has₂, -, hsame₂⟩ := h'.tfree (c := c) (v := r.look) (y := x) (Or.inr ht)
        (fun hst _ => ((hs hst).congr hsame hbsy).resolve_left (by rw [hctx]; exact nofun))
        (fun _ _ => id)
      refine ⟨sp₂, h₂, fun u hu => ?_, hsame.trans hsame₂⟩
      obtain ⟨hf, hsp⟩ := has₂ u hu
      rw [htcb] at hf
      exact ⟨hf, hsp⟩

/-- A request has been granted: the task waits for its partition. -/
theorem Inv.trq6 (h : k.Inv q sp x) (ht : sp t = .off) (hb : b.pcb = (k.tcb t).pcb)
    (hioc : b.ioc = (k.tcb t).ioc) (hcp : b.cpcb = none) (hact : b.act = true)
    (hfix : b.fix = false) (habo : b.abo = false) (hckp : b.ckp = false) (hout : b.out = true)
    (hldr : b.ldr = false) :
    ∃ sp', ((k.setTcb t b).trq6 c t v).Inv q sp' x ∧
      k.Aside sp ((k.setTcb t b).trq6 c t v) sp' (some t) ∧
      k.Same ((k.setTcb t b).trq6 c t v) := by
  obtain ⟨-, -, hcp', hn, hnl⟩ : Tcb.Fine q _ _ _ _ .off := ht ▸ h.fine t
  have hsame : k.Same ((k.setTcb t b).qpar t) := ⟨(same_setTcb hb).pcb, fun _ => rfl⟩
  have hcp₁ : (fun u => (((k.setTcb t b).qpar t).tcb u).cpcb) = fun u => (k.tcb u).cpcb := by
    funext u
    change ((k.setTcb t b).tcb u).cpcb = _
    rcases eq_or_ne u t with rfl | hu
    · rw [setTcb_self, hcp, hcp']
    · rw [setTcb_of_ne k b hu]
  have hspace : ((k.setTcb t b).qpar t).Spaced := by
    rw [Spaced, hcp₁]
    exact h.space
  have hlinked : ∀ u, ((k.setTcb t b).qpar t).linked u = k.linked u := fun u => by
    rw [linked, linked, hsame.pcb]
    rfl
  have h₁ : ((k.setTcb t b).qpar t).Inv q (Function.update sp t .wait) x := by
    refine h.toWait (by rw [ht]; rintro ⟨⟩) (by rw [ht]; rintro ⟨⟩) ?_ rfl
      (fun u => ⟨fun hl => ⟨?_, hl⟩, And.right⟩) rfl hspace rfl ⟨h.mem.laid, h.mem.small, ?_⟩ hb
      hioc (fun u _ => ⟨hsame.sys u, by rw [hlinked]⟩) (fun _ u hu _ => ?_)
      (List.eq_nil_of_length_eq_zero hn) ?_ (fun _ u hu _ ho => ?_) rfl
    · dsimp only [qpar]
      rw [setTcb_self, hb]
      rfl
    · rintro rfl
      cases ht.symm.trans ((h.lists.load u).mp hl)
    · intro p u hu
      rw [hsame.pcb]
      exact h.mem.home p u hu
    · simp only [region, hsame.pcb]
      rfl
    · exact ⟨hact, hfix, habo, by rw [hckp, hcp]; rfl, rfl, hout, by rwa [hlinked], hldr⟩
    · rw [Kernel.owns, hsame.pcb]
      exact ho
  obtain ⟨sp₂, h₂, has₂, hsame₂⟩ := h₁.asntp (c := c) (v := v) ((k.setTcb t b).tcb t).pcb
  refine ⟨sp₂, h₂, fun u hu => ?_, hsame.trans hsame₂⟩
  have hne : u ≠ t := fun he => hu (congrArg some he.symm)
  obtain ⟨hf, hsp⟩ := has₂ u (by rintro ⟨⟩)
  rw [Function.update_of_ne hne] at hsp
  change (((k.setTcb t b).tcb u).fix = true → _ = (k.setTcb t b).tcb u) at hf
  rw [setTcb_of_ne k b hne] at hf
  exact ⟨hf, hsp⟩

omit [DecidableEq T] [DecidableEq P] [DecidableEq F] in
/-- A task that is not active and not about to end. -/
theorem Inv.idle (h : k.Inv q sp x) (hx : x ≠ some t) (hact : (k.tcb t).act = false) :
    k.io t = [] ∧ (k.tcb t).cpcb = none ∧
      ((k.tcb t).fix = false ∧ sp t = .off ∨
        (k.tcb t).fix = true ∧ sp t = .core ∧ (k.tcb t).out = false ∧ (k.tcb t).ckp = false ∧
          (k.sys t = true → k.linked t) ∧ (k.tcb t).ldr = false) := by
  have hf := h.fine t
  cases hsp : sp t <;> rw [hsp] at hf
  · exact ⟨List.eq_nil_of_length_eq_zero hf.2.2.2.1, hf.2.2.1, Or.inl ⟨hf.2.1, rfl⟩⟩
  · cases hact.symm.trans hf.1
  · cases hact.symm.trans hf.1
  · cases hact.symm.trans hf.1
  · obtain ⟨hlive, hout, hckp, hcp, -, hn, hm, hldr⟩ := hf
    rw [hact, Bool.false_or] at hlive
    exact ⟨List.eq_nil_of_length_eq_zero (hn hact), hcp,
      Or.inr ⟨hlive, rfl, hout, hckp, hm, hldr⟩⟩
  · exact nomatch hact.symm.trans hf.1
  · exact nomatch hact.symm.trans hf.1
  · exact absurd (h.dead t hsp) hx

omit [DecidableEq P] [DecidableEq F] in
/-- The control block of a task that is not active is changed. -/
theorem Inv.setIdle (h : k.Inv q sp x) (hx : x ≠ some t) (hact : (k.tcb t).act = false)
    (hb : b.pcb = (k.tcb t).pcb) (hcp : b.cpcb = none) (hioc : b.ioc = 0)
    (hfix : b.fix = (k.tcb t).fix)
    (hout : (k.tcb t).fix = true → b.out = false ∧ b.ckp = false ∧ b.ldr = false)
    (hon : (k.tcb t).fix = false → b.act = false) (habo : b.act = true → b.abo = false) :
    (k.setTcb t b).Inv q sp x := by
  obtain ⟨hn, hcp', hspot⟩ := h.idle hx hact
  have hlen : (k.io t).length = 0 := by rw [hn]; rfl
  refine h.setTcb hb (hcp.trans hcp'.symm) ?_ (fun _ hw => ?_) ?_
  · rw [hioc, (h.ioc t).1, hlen]
  · rcases hspot with ⟨-, hsp⟩ | ⟨-, hsp, -⟩ <;> exact nomatch hsp.symm.trans hw
  · have hf := h.fine t
    rcases hspot with ⟨hnf, hsp⟩ | ⟨hf', hsp, -, -, hm, -⟩ <;> rw [hsp] at hf ⊢
    · exact ⟨hon hnf, hfix.trans hnf, hcp, hlen, hf.2.2.2.2⟩
    · obtain ⟨ho, hc, hldr⟩ := hout hf'
      refine ⟨by rw [hfix, hf', Bool.or_true], ho, hc, hcp, fun ha hb => ?_, fun _ => hlen, hm,
        hldr⟩
      exact nomatch (habo ha).symm.trans hb

omit [DecidableEq T] [DecidableEq P] [DecidableEq F] in
/-- What concerns the other tasks may start from a store to the control block of `t`. -/
theorem Aside.of_setTcb [DecidableEq T] (h : (k.setTcb t b).Aside sp k' sp' (some t)) :
    k.Aside sp k' sp' (some t) := by
  intro u hu
  have hne : u ≠ t := fun he => hu (congrArg some he.symm)
  obtain ⟨hf, hsp⟩ := h u hu
  rw [setTcb_of_ne k b hne] at hf
  exact ⟨hf, hsp⟩

omit [DecidableEq P] [DecidableEq F] in
/-- A fixed task is started. -/
theorem Inv.trq4 (h : k.Inv q sp x) (hx : x ≠ some t) (hact : (k.tcb t).act = false)
    (hfix : (k.tcb t).fix = true) (hioc : (k.tcb t).ioc = 0) : (k.trq4 t).Inv q sp x ∧
      k.Aside sp (k.trq4 t) sp (some t) ∧ k.Same (k.trq4 t) := by
  obtain ⟨-, hcp, hspot⟩ := h.idle hx hact
  have hout : (k.tcb t).out = false := by
    rcases hspot with ⟨hnf, -⟩ | ⟨-, -, ho, -⟩
    · exact nomatch hnf.symm.trans hfix
    · exact ho
  rw [Kernel.trq4]
  simp only [setTcb_self, hout, Bool.false_eq_true, if_false, ldgo2, setTcb_setTcb]
  refine ⟨h.setIdle hx hact rfl hcp hioc rfl (fun _ => ⟨rfl, rfl, rfl⟩)
    (fun hnf => nomatch hnf.symm.trans hfix) (fun _ => rfl), ?_, same_setTcb rfl⟩
  exact Aside.of_setTcb ((Aside.refl _ sp none).mono _)

theorem Inv.trq3 {r : Request T} (h : k.Inv q sp x) (hx : x ≠ some t)
    (hact : (k.tcb t).act = false) (hioc : (k.tcb t).ioc = 0)
    (hs : q.steady → k.Clears t r.ctx) : ∃ sp', (k.trq3 c t r).1.Inv q sp' x ∧
      k.Aside sp (k.trq3 c t r).1 sp' (some t) ∧ k.Same (k.trq3 c t r).1 := by
  rw [Kernel.trq3]
  split
  · exact ⟨sp, h, (Aside.refl k sp none).mono _, Same.refl k⟩
  split
  · next hfix => exact ⟨sp, h.trq4 hx hact hfix hioc⟩
  next hfix =>
  rw [Bool.not_eq_true] at hfix
  have hspot : sp t = .off := by
    rcases (h.idle hx hact).2.2 with ⟨-, hsp⟩ | ⟨hf, -⟩
    · exact hsp
    · exact nomatch hfix.symm.trans hf
  have hroom := h.room (c := c) (r := r) hspot hs
  split
  · next e he =>
    rw [he] at hroom
    exact hroom
  next k' he =>
  rw [he] at hroom
  obtain ⟨h', htcb, hsame⟩ := hroom
  obtain ⟨sp₂, h₂, has₂, hsame₂⟩ := h'.trq6 (c := c) (v := r.look) (b := { k'.tcb t with
    act := true, ckr := false, out := true, ckp := false, ldr := false, abo := false }) hspot rfl
    rfl (h'.idle hx (htcb ▸ hact)).2.1 rfl (htcb ▸ hfix) rfl rfl rfl rfl
  refine ⟨sp₂, h₂, fun u hu => ?_, hsame.trans hsame₂⟩
  obtain ⟨hf, hsp⟩ := has₂ u hu
  rw [congrFun htcb u] at hf
  exact ⟨hf, hsp⟩

/-- `TRQST2`, for a task that is not about to end. -/
theorem Inv.trqst2 {r : Request T} (h : k.Inv q sp x) (hx : x ≠ some t)
    (hs : q.steady → k.Clears t r.ctx) : ∃ sp', (k.trqst2 c t r).1.Inv q sp' x ∧
      k.Aside sp (k.trqst2 c t r).1 sp' (some t) ∧ k.Same (k.trqst2 c t r).1 := by
  unfold Kernel.trqst2
  dsimp only
  split
  · exact ⟨sp, h, (Aside.refl k sp none).mono _, Same.refl k⟩
  next hact =>
  rw [Bool.not_eq_true] at hact
  obtain ⟨-, -, hspot⟩ := h.idle hx hact
  have h₁ := h.setIdle (b := { k.tcb t with
    pri := (k.tcb t).dpri, fin := (k.tcb t).dend, cpcb := none, ioc := 0 }) hx hact rfl rfl rfl rfl
    (fun hf => by
      rcases hspot with ⟨hnf, -⟩ | ⟨-, -, ho, hc, -, hl⟩
      · exact nomatch hnf.symm.trans hf
      · exact ⟨ho, hc, hl⟩) (fun _ => hact) (fun ha => nomatch hact.symm.trans ha)
  have hsame := same_setTcb (k := k) (t := t) (b := { k.tcb t with
    pri := (k.tcb t).dpri, fin := (k.tcb t).dend, cpcb := none, ioc := 0 }) rfl
  obtain ⟨sp₂, h₂, has₂, hsame₂⟩ := h₁.trq3 (c := c) (r := r) hx (by rw [setTcb_self]; exact hact)
    (by rw [setTcb_self]) (fun hst => (hs hst).congr hsame rfl)
  exact ⟨sp₂, h₂, has₂.of_setTcb, hsame.trans hsame₂⟩

end Kernel

end RSX280.Chkpt
