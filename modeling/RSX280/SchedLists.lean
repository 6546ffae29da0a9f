import RSX280.Sched

/-!
# The scheduler lists

`Listed k l` is the invariant of `$RLIST` and `$WLIST`: the two lists are disjoint
chains, ordered by priority and among equals by the time of insertion, and every
active task is on the one its status tells (`Tcb.home`). A routine that sends a task
where its new status belongs keeps it (`Outcome.Fits`, `Listed.settle`).
-/

namespace RSX280.Sched

open Links

universe u

variable {T : Type u}

/-! ## Where a task belongs -/

/-- The list a task belongs on if it is active. -/
def Tcb.home (b : Tcb T) : Q := if b.runnable then .rlist else .wlist

/-- A task in AST state, unless it is being aborted, has the status of an active task
saved. -/
def Tcb.Saved (b : Tcb T) : Prop :=
  b.st.act = true → b.st.ast = true → b.st1.abo = false → b.svst.act = true

/-- All the invariant depends on. -/
def Tcb.key (b : Tcb T) : (Bool × ℕ × Q) × Bool × Bool × Bool :=
  ((b.st.act, b.pri, b.home), b.st.ast, b.st1.abo, b.svst.act)

section Key

variable {b c : Tcb T}

theorem Tcb.act_of_key (h : c.key = b.key) : c.st.act = b.st.act := congrArg (·.1.1) h

theorem Tcb.pri_of_key (h : c.key = b.key) : c.pri = b.pri := congrArg (·.1.2.1) h

theorem Tcb.home_of_key (h : c.key = b.key) : c.home = b.home := congrArg (·.1.2.2) h

theorem Tcb.saved_of_key (h : c.key = b.key) (hs : b.Saved) : c.Saved := by
  have hast : c.st.ast = b.st.ast := congrArg (·.2.1) h
  have habo : c.st1.abo = b.st1.abo := congrArg (·.2.2.1) h
  have hact : c.svst.act = b.svst.act := congrArg (·.2.2.2) h
  rwa [Saved, act_of_key h, hast, habo, hact]

end Key

/-- The outcome of a routine is on the list it should be on afterwards. -/
structure Outcome.Fits (b : Tcb T) (o : Outcome T) : Prop where
  act : o.tcb.st.act = b.st.act
  pri : o.tcb.pri = b.pri
  ready : o.goto = .ready → o.tcb.home = .rlist
  wait : o.goto = .wait → o.tcb.home = .wlist
  stay : o.goto = .stay ∨ o.goto = .next → o.tcb.home = b.home
  saved : b.Saved → o.tcb.Saved

/-- The invariant, for the lists `l`. -/
structure Listed (k : Kernel T) (l : Q → List T) : Prop where
  lists : Lists k.actl l
  ord : ∀ q, Queue.Ordered (fun t => (k.tcb t).pri) k.since (l q)
  old : ∀ q, ∀ t ∈ l q, k.since t < k.clock
  mem : ∀ q t, t ∈ l q ↔ (k.tcb t).st.act = true ∧ (k.tcb t).home = q
  saved : ∀ t, (k.tcb t).Saved

/-- The invariant but for task `t`, which is on no list. -/
structure Unlisted (k : Kernel T) (t : T) (l : Q → List T) : Prop where
  lists : Lists k.actl l
  ord : ∀ q, Queue.Ordered (fun t => (k.tcb t).pri) k.since (l q)
  old : ∀ q, ∀ t ∈ l q, k.since t < k.clock
  mem : ∀ q a, a ∈ l q ↔ a ≠ t ∧ (k.tcb a).st.act = true ∧ (k.tcb a).home = q
  saved : ∀ a ≠ t, (k.tcb a).Saved

theorem Listed.congr {k k' : Kernel T} {l : Q → List T} (h : Listed k l)
    (ht : ∀ t, (k'.tcb t).key = (k.tcb t).key) (ha : k'.actl = k.actl) (hs : k'.since = k.since)
    (hc : k'.clock = k.clock) : Listed k' l := by
  refine ⟨ha ▸ h.lists, fun q => ?_, fun q t hm => ?_, fun q t => ?_, fun t => ?_⟩
  · exact (h.ord q).congr (fun t _ => Tcb.pri_of_key (ht t)) fun t _ => by rw [hs]
  · rw [hs, hc]
    exact h.old q t hm
  · rw [Tcb.act_of_key (ht t), Tcb.home_of_key (ht t)]
    exact h.mem q t
  · exact Tcb.saved_of_key (ht t) (h.saved t)

/-- An inactive task is on no list. -/
theorem Listed.unlisted {k : Kernel T} {l : Q → List T} {t : T} (h : Listed k l)
    (ht : (k.tcb t).st.act = false) : Unlisted k t l := by
  refine ⟨h.lists, h.ord, h.old, fun q a => (h.mem q a).trans ⟨fun ha => ⟨?_, ha⟩, And.right⟩,
    fun a _ => h.saved a⟩
  rintro rfl
  exact absurd ha.1 (by rw [ht]; exact Bool.false_ne_true)

/-- Inactive, it is where it should be. -/
theorem Unlisted.listed {k : Kernel T} {l : Q → List T} {t : T} (h : Unlisted k t l)
    (ht : (k.tcb t).st.act = false) : Listed k l := by
  refine ⟨h.lists, h.ord, h.old, fun q a => (h.mem q a).trans ⟨And.right, fun ha => ⟨?_, ha⟩⟩,
    fun a => ?_⟩
  · rintro rfl
    exact absurd ha.1 (by rw [ht]; exact Bool.false_ne_true)
  · rcases eq_or_ne a t with rfl | ha
    · exact fun hact => absurd hact (by rw [ht]; exact Bool.false_ne_true)
    · exact h.saved a ha

section Edit

variable [DecidableEq T] {k : Kernel T} {l : Q → List T} {t : T} {b : Tcb T}

@[simp] theorem Kernel.setTcb_self : (k.setTcb t b).tcb t = b := Function.update_self ..

theorem Kernel.setTcb_of_ne {a : T} (h : a ≠ t) : (k.setTcb t b).tcb a = k.tcb a :=
  Function.update_of_ne h ..

@[simp] theorem Kernel.setTcb_setTcb {c : Tcb T} : (k.setTcb t b).setTcb t c = k.setTcb t c := by
  simp only [setTcb, Function.update_idem]

/-- A change of one control block that leaves the task where it is. -/
theorem Listed.setTcb (h : Listed k l) (ha : b.st.act = (k.tcb t).st.act)
    (hp : b.pri = (k.tcb t).pri) (hh : b.home = (k.tcb t).home) (hs : b.Saved) :
    Listed (k.setTcb t b) l := by
  have hne : ∀ a, (k.setTcb t b).tcb a = if a = t then b else k.tcb a := fun a =>
    Function.update_apply ..
  refine ⟨h.lists, fun q => (h.ord q).congr (fun a _ => ?_) fun _ _ => rfl, h.old, fun q a => ?_,
    fun a => ?_⟩
  · rw [hne]
    split
    · rename_i hat
      rw [hp, hat]
    · rfl
  · rw [h.mem, hne]
    split
    · rename_i hat
      rw [ha, hh, hat]
    · rfl
  · rw [hne]
    split
    · exact hs
    · exact h.saved a

theorem Listed.setTcb_key (h : Listed k l) (hb : b.key = (k.tcb t).key) :
    Listed (k.setTcb t b) l :=
  h.setTcb (Tcb.act_of_key hb) (Tcb.pri_of_key hb) (Tcb.home_of_key hb)
    (Tcb.saved_of_key hb (h.saved t))

theorem Listed.setCtx (h : Listed k l) (f : Ctx T → Ctx T) : Listed (k.setCtx t f) l :=
  h.setTcb_key rfl

/-- Once off the lists, a task may become anything. -/
theorem Unlisted.setTcb (h : Unlisted k t l) (b : Tcb T) : Unlisted (k.setTcb t b) t l := by
  have hne : ∀ q, ∀ a ∈ l q, a ≠ t := fun q a ha => ((h.mem q a).mp ha).1
  refine ⟨h.lists, fun q => ?_, h.old, fun q a => ?_, fun a ha => ?_⟩
  · refine (h.ord q).congr (fun a ha => ?_) fun a _ => rfl
    rw [Kernel.setTcb_of_ne (hne q a ha)]
  · refine (h.mem q a).trans (and_congr_right fun ha => ?_)
    rw [Kernel.setTcb_of_ne ha]
  · rw [Kernel.setTcb_of_ne ha]
    exact h.saved a ha

/-- Unlinking. -/
theorem Listed.unlink (h : Listed k l) {q : Q} {l₁ l₂ : List T} (hs : l q = l₁ ++ t :: l₂) :
    Unlisted { k with actl := k.actl.unlink (last (.head q) l₁) t } t
      (Function.update l q (l₁ ++ l₂)) := by
  have hnd := (h.lists.chain q).nodup
  have hmem : ∀ p a, a ∈ Function.update l q (l₁ ++ l₂) p ↔ a ≠ t ∧ a ∈ l p := by
    intro p a
    rcases eq_or_ne p q with rfl | hp
    · rw [hs] at hnd
      obtain ⟨ht, -⟩ := List.nodup_cons.mp (List.nodup_middle.mp hnd)
      rw [Function.update_self, hs]
      simp only [List.mem_append, List.mem_cons] at ht ⊢
      refine ⟨fun ha => ⟨?_, by tauto⟩, by tauto⟩
      rintro rfl
      exact ht ha
    · rw [Function.update_of_ne hp]
      refine ⟨fun ha => ⟨?_, ha⟩, And.right⟩
      rintro rfl
      exact h.lists.disjoint p q hp a ha (hs ▸ by simp)
  have hsub : ∀ p, (Function.update l q (l₁ ++ l₂) p).Sublist (l p) := by
    intro p
    rcases eq_or_ne p q with rfl | hp
    · rw [Function.update_self, hs]
      exact (List.Sublist.refl _).append (List.sublist_cons_self ..)
    · rw [Function.update_of_ne hp]
  refine ⟨h.lists.unlink hs, fun p => (h.ord p).sublist (hsub p), fun p a ha => ?_, fun p a => ?_,
    fun a _ => h.saved a⟩
  · exact h.old p a ((hsub p).mem ha)
  · exact (hmem p a).trans (and_congr_right fun _ => h.mem p a)

variable [Fintype T]

/-- Linking. -/
theorem Unlisted.lktcb (h : Unlisted k t l) (ha : (k.tcb t).st.act = true) {q : Q}
    (hq : (k.tcb t).home = q) (hsv : (k.tcb t).Saved) :
    Listed (k.lktcb q t)
      (Function.update l q (Queue.enqueue (fun a => (k.tcb a).pri) t (l q))) := by
  have ht : ∀ p, t ∉ l p := fun p hp => ((h.mem p t).mp hp).1 rfl
  have hslot : k.actl.slot (fun a => (k.tcb a).pri < (k.tcb t).pri) (Fintype.card T) (.head q) =
      last (.head q) ((l q).takeWhile fun a => decide ((k.tcb t).pri ≤ (k.tcb a).pri)) := by
    rw [(h.lists.chain q).slot_eq (h.lists.chain q).nodup.length_le_card]
    simp only [← decide_not, Nat.not_lt]
  have hne : ∀ p, ∀ a ∈ l p, a ≠ t := fun p a hp => ((h.mem p a).mp hp).1
  have hmem : ∀ p a, a ∈ Function.update l q (Queue.enqueue (fun a => (k.tcb a).pri) t (l q)) p ↔
      (a = t ∧ p = q) ∨ a ∈ l p := by
    intro p a
    rcases eq_or_ne p q with rfl | hp
    · rw [Function.update_self, Queue.mem_enqueue]
      simp
    · rw [Function.update_of_ne hp]
      simp [hp]
  -- the stamps of the others stay
  have hold : ∀ p, ∀ a ∈ l p, Function.update k.since t k.clock a = k.since a :=
    fun p a hp => Function.update_of_ne (hne p a hp) ..
  have hord : ∀ p, Queue.Ordered (fun a => (k.tcb a).pri) (Function.update k.since t k.clock)
      (l p) := fun p => (h.ord p).congr (fun _ _ => rfl) (hold p)
  refine ⟨?_, fun p => ?_, fun p a hp => ?_, fun p a => ?_, fun a => ?_⟩
  · rw [Kernel.lktcb, hslot]
    exact h.lists.relink List.takeWhile_append_dropWhile.symm ht
  · rcases eq_or_ne p q with rfl | hp
    · rw [Function.update_self]
      refine (hord p).enqueue fun a hp => ?_
      rw [hold p a hp, Function.update_self]
      exact h.old p a hp
    · rw [Function.update_of_ne hp]
      exact hord p
  · rcases (hmem p a).mp hp with ⟨rfl, -⟩ | hp'
    · exact (congrArg (· < k.clock + 1) (Function.update_self ..)).mpr (Nat.lt_succ_self _)
    · have := h.old p a hp'
      exact (congrArg (· < k.clock + 1) (hold p a hp')).mpr (Nat.lt_succ_of_lt this)
  · rw [hmem, h.mem]
    refine ⟨?_, fun hp => ?_⟩
    · rintro (⟨rfl, rfl⟩ | hp)
      · exact ⟨ha, hq⟩
      · exact hp.2
    · rcases eq_or_ne a t with rfl | hat
      · exact Or.inl ⟨rfl, hp.2.symm.trans hq⟩
      · exact Or.inr ⟨hat, hp⟩
  · rcases eq_or_ne a t with rfl | hat
    · exact hsv
    · exact h.saved a hat

/-! ## Looking a task up -/

/-- `FTCB` finds an active task in its list, behind a cell of that list. -/
theorem Listed.ftcb_of_active (h : Listed k l) (ha : (k.tcb t).st.act = true) :
    ∃ l₁ l₂, l (k.tcb t).home = l₁ ++ t :: l₂ ∧
      k.ftcb (k.tcb t).home t = some (last (.head (k.tcb t).home) l₁) :=
  h.lists.find_of_mem ((h.mem _ t).mpr ⟨ha, rfl⟩)

theorem Listed.ftcb_of_not (h : Listed k l) {q : Q}
    (hq : ¬((k.tcb t).st.act = true ∧ (k.tcb t).home = q)) : k.ftcb q t = none :=
  h.lists.find_of_notMem _ fun hm => hq ((h.mem q t).mp hm)

/-- What `FTCB` finds is active and at home there. -/
theorem Listed.of_ftcb (h : Listed k l) {q : Q} {iy : Cell Q T} (hf : k.ftcb q t = some iy) :
    (k.tcb t).st.act = true ∧ (k.tcb t).home = q ∧
      ∃ l₁ l₂, l q = l₁ ++ t :: l₂ ∧ iy = last (.head q) l₁ := by
  by_cases hq : (k.tcb t).st.act = true ∧ (k.tcb t).home = q
  · obtain ⟨l₁, l₂, hs, hi⟩ := h.ftcb_of_active hq.1
    rw [hq.2] at hs hi
    exact ⟨hq.1, hq.2, l₁, l₂, hs, Option.some.inj (hf.symm.trans hi)⟩
  · cases hf.symm.trans (h.ftcb_of_not hq)

theorem Listed.of_fntcb (h : Listed k l) {iy : Cell Q T} (hf : k.fntcb t = some iy) :
    (k.tcb t).st.act = true ∧
      ∃ q l₁ l₂, l q = l₁ ++ t :: l₂ ∧ iy = last (.head q) l₁ := by
  rw [Kernel.fntcb, Option.or_eq_some_iff] at hf
  rcases hf with hf | ⟨-, hf⟩
  · obtain ⟨ha, -, hs⟩ := h.of_ftcb hf
    exact ⟨ha, _, hs⟩
  · obtain ⟨ha, -, hs⟩ := h.of_ftcb hf
    exact ⟨ha, _, hs⟩

/-- `$FNTCB` finds the active tasks. -/
theorem Listed.fntcb_eq_none (h : Listed k l) :
    k.fntcb t = none ↔ (k.tcb t).st.act = false := by
  refine ⟨fun hf => ?_, fun ha => ?_⟩
  · rw [Kernel.fntcb, Option.or_eq_none_iff] at hf
    by_contra hact
    rw [Bool.not_eq_false] at hact
    obtain ⟨l₁, -, -, hi⟩ := h.ftcb_of_active hact
    cases hq : (k.tcb t).home <;> rw [hq] at hi
    · cases hf.1.symm.trans hi
    · cases hf.2.symm.trans hi
  · have hn : ∀ q, k.ftcb q t = none := fun q => h.ftcb_of_not fun hc => by simp [ha] at hc
    rw [Kernel.fntcb, hn, hn]
    rfl

/-! ## Moving a task -/

/-- Unlinked from wherever it is, given a new control block and linked to the list it
then belongs on, a task is in its place. -/
theorem Listed.relist (h : Listed k l) {q p : Q} {l₁ l₂ : List T} (hs : l q = l₁ ++ t :: l₂)
    (ha : b.st.act = true) (hb : b.home = p) (hsv : b.Saved) :
    ∃ l', Listed ((k.setTcb t b).relist (last (.head q) l₁) t p) l' := by
  have h' := (h.unlink hs).setTcb b
  refine ⟨_, h'.lktcb ?_ ?_ ?_⟩ <;> rwa [Kernel.setTcb_self]

/-- Moving without a change of the control block. -/
theorem Listed.relist_self (h : Listed k l) {q : Q} {l₁ l₂ : List T}
    (hs : l q = l₁ ++ t :: l₂) : ∃ l', Listed (k.relist (last (.head q) l₁) t q) l' := by
  obtain ⟨ha, hq⟩ := (h.mem q t).mp (hs ▸ by simp)
  obtain ⟨l', h'⟩ := h.relist hs ha hq (h.saved t)
  have he : k.setTcb t (k.tcb t) = k := by
    simp only [Kernel.setTcb, Function.update_eq_self]
  exact ⟨l', he ▸ h'⟩

/-- Settling a fitting outcome keeps the lists. -/
theorem Listed.settle (h : Listed k l) {o : Outcome T} (ho : o.Fits (k.tcb t)) :
    ∃ l', Listed (k.settle t o) l' := by
  cases hf : k.fntcb t with
  | none =>
    have ha := h.fntcb_eq_none.mp hf
    have hset : k.settle t o = k.setTcb t o.tcb := by
      simp only [Kernel.settle, hf]
      cases o.goto <;> rfl
    refine ⟨l, hset ▸ ((h.unlisted ha).setTcb _).listed ?_⟩
    rw [Kernel.setTcb_self, ho.act, ha]
  | some iy =>
    obtain ⟨ha, q, l₁, l₂, hs, rfl⟩ := h.of_fntcb hf
    have ha' := ho.act.trans ha
    have hsv := ho.saved (h.saved t)
    simp only [Kernel.settle, hf]
    cases hg : o.goto with
    | ready => exact h.relist hs ha' (ho.ready hg) hsv
    | wait => exact h.relist hs ha' (ho.wait hg) hsv
    | stay => exact ⟨l, h.setTcb ho.act ho.pri (ho.stay (Or.inl hg)) hsv⟩
    | next => exact ⟨l, h.setTcb ho.act ho.pri (ho.stay (Or.inr hg)) hsv⟩

theorem Listed.onTask (h : Listed k l) {f : Tcb T → Outcome T}
    (hf : (f (k.tcb t)).Fits (k.tcb t)) : ∃ l', Listed (k.onTask t f).1 l' := by
  rw [Kernel.onTask]
  cases k.fntcb t with
  | none => exact ⟨l, h⟩
  | some _ => exact h.settle hf

end Edit

end RSX280.Sched
