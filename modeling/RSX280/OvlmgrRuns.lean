import RSX280.Ovlmgr
import RSX280.Memory

/-!
# What the overlay manager has in memory

`OVLTBL` lists the overlays whose region holds their image. The flag that `?OVLAY` leaves makes
the next `?OVLA0` skip the load, and is not of any overlay.
-/

namespace RSX280.Ovlmgr

variable {N : ℕ} {T : Table N} {memry : ℕ} {io : ℕ → Bool} {s s' : State N} {n m : Fin N}

/-! ## Regions -/

/-- The length of the region of an overlay, in whole records -/
def Ent.size (e : Ent) : ℕ := 128 * ((e.len + 127) / 128)

theorem top_eq (T : Table N) (n : Fin N) :
    (T.ent n).top + 1 = (T.ent n).load + (T.ent n).size := by
  have h₁ := T.aligned n
  have h₂ := T.root n
  have h₃ := T.fits n
  unfold Ent.top Ent.size
  omega

theorem rdlen_eq (T : Table N) (n : Fin N) : 128 * (T.ent n).rdlen = (T.ent n).size := by
  have h₁ := T.aligned n
  have h₂ := T.root n
  have h₃ := T.fits n
  have h₄ := top_eq T n
  unfold Ent.rdlen Ent.size at *
  omega

/-- The region of the overlay holds its image. -/
def Holds (T : Table N) (s : State N) (n : Fin N) : Prop :=
  ∀ i < (T.ent n).size, s.mem ((T.ent n).load + i) = some (n, 128 * (T.ent n).recno + i)

/-- The overlay is in `OVLTBL`. -/
def Listed (s : State N) (n : Fin N) : Prop := ∃ e ∈ s.ovltbl, e.num = n + 1

theorem fndovl_iff : fndovl s n = true ↔ Listed s n := by
  simp [fndovl, Listed]

/-! ## Loading -/

/-- A piece of an overlay has been loaded. -/
def Filled (n : Fin N) (dest pos len : ℕ) (mem mem' : ℕ → Option (Cell N)) : Prop :=
  (∀ i < len, mem' (dest + i) = some (n, pos + i)) ∧
    ∀ a, a < dest ∨ dest + len ≤ a → mem' a = mem a

theorem rdrec_eq {blk dest recno : ℕ} {r : ℕ × State N} (h : rdrec io n s blk dest recno = some r)
    (hblk : blk ≠ 0 → s.iobuf = blk) (hrec : 4 ≤ recno) :
    r.1 = recno / 4 ∧ r.2.iobuf = r.1 ∧ r.2.ovltbl = s.ovltbl ∧ r.2.ldflag = s.ldflag ∧
      Filled n dest (128 * recno) 128 s.mem r.2.mem := by
  obtain ⟨iobuf, hio, rfl⟩ := Option.map_eq_some_iff.mp h
  have hbuf : iobuf = recno / 4 := by
    split at hio
    next heq =>
      cases hio
      rw [hblk (by omega), heq]
    next =>
      split at hio <;> cases hio
      rfl
  subst hbuf
  refine ⟨rfl, rfl, rfl, rfl, fun i hi => ?_, fun a ha => ?_⟩
  · simp only
    rw [if_pos (by omega)]
    congr 2
    omega
  · simp only
    rw [if_neg (by omega)]

theorem load7_eq {k blk dest recno : ℕ} (h : load7 io n k s blk dest recno = some s')
    (hblk : blk ≠ 0 → s.iobuf = blk) (hrec : 4 ≤ recno) (hdest : dest + 128 * k ≤ 65536)
    (hfile : recno + k ≤ 65536) :
    s'.ovltbl = s.ovltbl ∧ s'.ldflag = s.ldflag ∧
      Filled n dest (128 * recno) (128 * k) s.mem s'.mem := by
  induction k generalizing s blk dest recno with
  | zero =>
    cases h
    exact ⟨rfl, rfl, fun i hi => by omega, fun _ _ => rfl⟩
  | succ k ih =>
    obtain ⟨r, hr, h⟩ := Option.bind_eq_some_iff.mp h
    obtain ⟨h₁, h₂, htbl, hflag, hfill, hrest⟩ := rdrec_eq hr hblk hrec
    cases k with
    | zero =>
      cases h
      exact ⟨htbl, hflag, hfill, hrest⟩
    | succ k =>
      have hd : (dest + 128) % 65536 = dest + 128 := Nat.mod_eq_of_lt (by omega)
      have hn : (recno + 1) % 65536 = recno + 1 := Nat.mod_eq_of_lt (by omega)
      simp only [hd, hn] at h
      obtain ⟨htbl', hflag', hfill', hrest'⟩ :=
        ih h (fun _ => h₂) (by omega) (by omega) (by omega)
      refine ⟨htbl'.trans htbl, hflag'.trans hflag, fun i hi => ?_, fun a ha => ?_⟩
      · by_cases hlt : i < 128
        · rw [hrest' _ (by omega), hfill i hlt]
        · have := hfill' (i - 128) (by omega)
          have hpos : 128 * (recno + 1) + (i - 128) = 128 * recno + i := by omega
          rw [show dest + 128 + (i - 128) = dest + i by omega, hpos] at this
          exact this
      · rw [hrest' a (by omega), hrest a (by omega)]

/-! ## The table -/

theorem mem_load2 {bot top : ℕ} {l : List Slot} {e : Slot} (h : e ∈ load2 bot top l)
    (hne : e.num ≠ 0) : e ∈ l ∧ (top < e.bot ∨ e.top < bot) := by
  obtain ⟨e', he', heq⟩ := List.mem_map.mp h
  split at heq
  next hc =>
    subst heq
    exact ⟨he', hc.resolve_left hne⟩
  next =>
    subst heq
    exact absurd rfl hne

theorem mem_load2_of_mem {bot top : ℕ} {l : List Slot} {e : Slot} (h : e ∈ l)
    (hap : top < e.bot ∨ e.top < bot) : e ∈ load2 bot top l :=
  List.mem_map.mpr ⟨e, h, if_pos (Or.inr hap)⟩

attribute [local grind =] load5

theorem mem_load5 {new e : Slot} {l l' : List Slot} (h : load5 new l = some l') (he : e ∈ l') :
    e = new ∨ e ∈ l := by
  induction l generalizing l' with
  | nil => cases h
  | cons x l ih =>
    unfold load5 at h
    split at h
    next hx =>
      cases h
      exact (List.mem_cons.mp he).imp_right (List.mem_cons_of_mem _)
    next =>
      obtain ⟨l'', hl, rfl⟩ := Option.map_eq_some_iff.mp h
      rcases List.mem_cons.mp he with rfl | he
      · exact Or.inr List.mem_cons_self
      · exact (ih hl he).imp_right (List.mem_cons_of_mem _)

theorem new_mem_load5 {new : Slot} {l l' : List Slot} (h : load5 new l = some l') : new ∈ l' := by
  induction l generalizing l' with
  | nil => cases h
  | cons x l ih =>
    unfold load5 at h
    split at h
    next hx =>
      cases h
      exact List.mem_cons_self
    next =>
      obtain ⟨l'', hl, rfl⟩ := Option.map_eq_some_iff.mp h
      exact List.mem_cons_of_mem _ (ih hl)

theorem mem_load5_of_mem {new e : Slot} {l l' : List Slot} (h : load5 new l = some l') (he : e ∈ l)
    (hne : e.num ≠ 0) : e ∈ l' := by
  induction l generalizing l' with
  | nil => cases h
  | cons x l ih =>
    unfold load5 at h
    split at h
    next hx =>
      cases h
      rcases List.mem_cons.mp he with rfl | he
      · exact absurd hx hne
      · exact List.mem_cons_of_mem _ he
    next =>
      obtain ⟨l'', hl, rfl⟩ := Option.map_eq_some_iff.mp h
      rcases List.mem_cons.mp he with rfl | he
      · exact List.mem_cons_self
      · exact List.mem_cons_of_mem _ (ih hl he)

/-! ## What is in memory -/

/-- An overlay without contents has no region. -/
def Ent.Empty (e : Ent) : Prop := e.len = 0

/-- `OVLTBL` is right: it lists overlays with their regions, all of them in memory, and all that
are in memory. -/
structure Exact (T : Table N) (s : State N) : Prop where
  slots : ∀ e ∈ s.ovltbl, e.num ≠ 0 →
    ∃ n : Fin N, e = ⟨n + 1, (T.ent n).load, (T.ent n).top⟩ ∧ Holds T s n
  all : ∀ n, ¬(T.ent n).Empty → Holds T s n → Listed s n

/-- Loading an overlay without contents drops an overlay whose region it is in the middle of. -/
def Drops (T : Table N) (s : State N) (n : Fin N) : Prop :=
  (T.ent n).Empty ∧ ∃ e ∈ s.ovltbl, e.num ≠ 0 ∧ e.bot < (T.ent n).load ∧ (T.ent n).load ≤ e.top

theorem size_eq_zero {e : Ent} : e.size = 0 ↔ e.Empty := by
  unfold Ent.size Ent.Empty
  omega

theorem Exact.listed (h : Exact T s) (hl : Listed s n) : Holds T s n := by
  obtain ⟨e, he, hnum⟩ := hl
  obtain ⟨n', rfl, hh⟩ := h.slots e he (by omega)
  have : n' = n := Fin.ext (by simpa using hnum)
  exact this ▸ hh

theorem load_eq (h : load T memry io s n = some s') :
    ∃ l, load5 ⟨n + 1, (T.ent n).load, (T.ent n).top⟩
        (load2 (T.ent n).load (T.ent n).top s.ovltbl) = some l ∧
      s'.ovltbl = l ∧ s'.ldflag = s.ldflag ∧
      Filled n (T.ent n).load (128 * (T.ent n).recno) (T.ent n).size s.mem s'.mem := by
  unfold load at h
  dsimp only at h
  split at h
  · cases h
  · obtain ⟨l, hl, h⟩ := Option.bind_eq_some_iff.mp h
    have h₁ := rdlen_eq T n
    have h₂ := top_eq T n
    have h₃ := T.fits n
    have h₄ := T.file n
    have h₅ := T.aligned n
    have h₆ : (T.ent n).size = 128 * (((T.ent n).len + 127) / 128) := rfl
    obtain ⟨htbl, hflag, hfill⟩ := load7_eq h (fun hne => absurd rfl hne) (T.header n)
      (by omega) (by omega)
    exact ⟨l, hl, htbl, hflag, h₁ ▸ hfill⟩

/-- The entry of an overlay that is listed -/
theorem Exact.slot (h : Exact T s) (hl : Listed s n) :
    ⟨n + 1, (T.ent n).load, (T.ent n).top⟩ ∈ s.ovltbl := by
  obtain ⟨e, he, hnum⟩ := hl
  obtain ⟨n', rfl, -⟩ := h.slots e he (by omega)
  have : n' = n := Fin.ext (by simpa using hnum)
  exact this ▸ he

/-- An overlay whose region is apart from what has been loaded is still there. -/
theorem holds_congr {dest pos len : ℕ} (hfill : Filled n dest pos len s.mem s'.mem)
    (hap : ∀ i < (T.ent m).size, (T.ent m).load + i < dest ∨ dest + len ≤ (T.ent m).load + i) :
    Holds T s' m ↔ Holds T s m := by
  refine forall₂_congr fun i hi => ?_
  rw [hfill.2 _ (hap i hi)]

theorem not_exact_of_drops (hex : Exact T s) (hd : Drops T s n)
    (hfill : Filled n (T.ent n).load (128 * (T.ent n).recno) (T.ent n).size s.mem s'.mem)
    (hmem : ∀ e ∈ s'.ovltbl, e.num ≠ n + 1 → e.num ≠ 0 →
      e ∈ s.ovltbl ∧ ((T.ent n).top < e.bot ∨ e.top < (T.ent n).load)) : ¬Exact T s' := by
  intro hex'
  obtain ⟨hempty, e, he, hne, hbot, htop⟩ := hd
  obtain ⟨m, rfl, hh⟩ := hex.slots e he hne
  simp only at hbot htop
  have hn := size_eq_zero.mpr hempty
  have ht := top_eq T n
  have htm := top_eq T m
  have hm : ¬(T.ent m).Empty := fun hm => by
    have := size_eq_zero.mpr hm
    omega
  have hmn : m ≠ n := by
    rintro rfl
    exact hm hempty
  have hl := hex'.slot (hex'.all m hm ((holds_congr hfill fun i hi => by omega).mpr hh))
  have := (hmem _ hl (fun heq => hmn (Fin.ext (by simpa using heq))) (by simp)).2
  simp only at this
  omega

/-- What a load leaves in memory -/
theorem load_spec (h : load T memry io s n = some s') (hex : Exact T s) :
    Holds T s' n ∧ Listed s' n ∧ (Exact T s' ↔ ¬Drops T s n) := by
  obtain ⟨l, hl, rfl, -, hfill⟩ := load_eq h
  have hhold : Holds T s' n := hfill.1
  have hlist : Listed s' n := ⟨_, new_mem_load5 hl, rfl⟩
  have hold : ∀ e ∈ s'.ovltbl, e.num ≠ 0 → e = ⟨n + 1, (T.ent n).load, (T.ent n).top⟩ ∨
      e ∈ s.ovltbl ∧ ((T.ent n).top < e.bot ∨ e.top < (T.ent n).load) :=
    fun e he hne => (mem_load5 hl he).imp_right fun he => mem_load2 he hne
  have ht := top_eq T n
  refine ⟨hhold, hlist, fun hex' hdrop => ?_, fun hdrop => ⟨fun e he hne => ?_, fun m hm hh => ?_⟩⟩
  · refine not_exact_of_drops hex hdrop hfill (fun e he hnum hne => ?_) hex'
    exact (hold e he hne).resolve_left fun heq => hnum (by rw [heq])
  · rcases hold e he hne with rfl | ⟨he, hap⟩
    · exact ⟨n, rfl, hhold⟩
    · obtain ⟨m, rfl, hh⟩ := hex.slots e he hne
      have htm := top_eq T m
      exact ⟨m, rfl, (holds_congr hfill fun i hi => by simp only at hap; omega).mpr hh⟩
  · by_cases hmn : m = n
    · exact hmn ▸ hlist
    have hap : ∀ i < (T.ent m).size,
        (T.ent m).load + i < (T.ent n).load ∨
          (T.ent n).load + (T.ent n).size ≤ (T.ent m).load + i := by
      intro i hi
      by_contra hin
      have h₁ := hfill.1 ((T.ent m).load + i - (T.ent n).load) (by omega)
      rw [show (T.ent n).load + ((T.ent m).load + i - (T.ent n).load) = (T.ent m).load + i by omega,
        hh i hi] at h₁
      exact hmn (Prod.ext_iff.mp (Option.some.inj h₁)).1
    have hslot := hex.slot (hex.all m hm ((holds_congr hfill hap).mp hh))
    refine ⟨_, mem_load5_of_mem hl (mem_load2_of_mem hslot ?_) (by simp), rfl⟩
    have htm := top_eq T m
    have hmsize : (T.ent m).size ≠ 0 := mt size_eq_zero.mp hm
    by_cases hempty : (T.ent n).Empty
    · have hz := size_eq_zero.mpr hempty
      have hno : ¬((T.ent m).load < (T.ent n).load ∧ (T.ent n).load ≤ (T.ent m).top) :=
        fun hd => hdrop ⟨hempty, _, hslot, by simp, hd⟩
      simp only
      omega
    · have hz : (T.ent n).size ≠ 0 := mt size_eq_zero.mp hempty
      have h₀ := hap 0 (by omega)
      have h₁ := hap ((T.ent n).load - (T.ent m).load)
      simp only
      omega

/-! ## Runs -/

/-- A call of the overlay manager by the task -/
inductive Op (N : ℕ)
  | ovla0 (n : Fin N)
  | ovlay (n : Fin N) (force : Bool)

def Op.num : Op N → Fin N
  | .ovla0 n | .ovlay n _ => n

def Op.run (T : Table N) (memry : ℕ) (io : ℕ → Bool) (s : State N) : Op N → Option (State N)
  | .ovla0 n => Ovlmgr.ovla0 T memry io s n
  | .ovlay n force => Ovlmgr.ovlay T memry io s n force

/-- The overlay is in memory after the call, and the table is right. -/
def Good (T : Table N) (s' : State N) (op : Op N) : Prop := Holds T s' op.num ∧ Exact T s'

/-- The flag of `?OVLAY` is not there, or the overlay is in the table in spite of it. -/
def Op.Careful (T : Table N) (s : State N) : Op N → Prop
  | .ovla0 n =>
    if s.ldflag then Listed s n ∨ (T.ent n).Empty else Listed s n ∨ ¬Drops T s n
  | .ovlay n force => force = false ∧ Listed s n ∨ ¬Drops T s n

/-- A careful call, which does not abort the task -/
def Step (T : Table N) (memry : ℕ) (s s' : State N) : Prop :=
  ∃ io op, Op.Careful T s op ∧ op.run T memry io s = some s'

/-- A task when it starts -/
def initial (N : ℕ) : State N where
  ldflag := false
  ovltbl := .replicate maxovl ⟨0, 0, 0⟩
  mem _ := none
  iobuf := 0

theorem exact_initial (T : Table N) : Exact T (initial N) where
  slots e he hne := by
    rw [(List.mem_replicate.mp he).2] at hne
    exact absurd rfl hne
  all n hn hh := by
    have := hh 0 (Nat.pos_of_ne_zero (mt size_eq_zero.mp hn))
    cases this

/-- `LDFLAG` does not matter to what is in memory. -/
theorem Exact.flag {b : Bool} : Exact T { s with ldflag := b } ↔ Exact T s :=
  ⟨fun h => ⟨h.slots, h.all⟩, fun h => ⟨h.slots, h.all⟩⟩

theorem holds_of_empty (h : (T.ent n).Empty) : Holds T s n := by
  intro i hi
  rw [size_eq_zero.mpr h] at hi
  exact absurd hi (Nat.not_lt_zero i)

/-- A call that loads the overlay, or finds it -/
theorem good_iff_of_load (memry : ℕ) (io : ℕ → Bool) (b : Bool) {c : Prop} (hex : Exact T s)
    (hskip : c → Listed s n ∧ s' = { s with ldflag := b })
    (hload : ¬c → load T memry io { s with ldflag := b } n = some s') :
    Holds T s' n ∧ Exact T s' ↔ c ∨ ¬Drops T s n := by
  by_cases hc : c
  · obtain ⟨hl, rfl⟩ := hskip hc
    exact iff_of_true ⟨hex.listed hl, Exact.flag.mpr hex⟩ (Or.inl hc)
  · obtain ⟨hh, -, hiff⟩ := load_spec (hload hc) (Exact.flag.mpr hex)
    have hd : Drops T { s with ldflag := b } n ↔ Drops T s n := Iff.rfl
    rw [hiff, hd]
    exact ⟨fun h => Or.inr h.2, fun h => ⟨hh, h.resolve_left hc⟩⟩

theorem Exact.run (hex : Exact T s) {op : Op N} (h : op.run T memry io s = some s') :
    Good T s' op ↔ op.Careful T s := by
  cases op with
  | ovla0 n =>
    simp only [Op.run, ovla0] at h
    simp only [Good, Op.num, Op.Careful]
    cases hflag : s.ldflag with
    | true =>
      rw [hflag, if_pos rfl] at h
      cases h
      rw [if_pos rfl]
      refine ⟨fun ⟨hh, _⟩ => ?_, fun hor => ⟨?_, Exact.flag.mpr hex⟩⟩
      · by_cases hempty : (T.ent n).Empty
        · exact Or.inr hempty
        · exact Or.inl (hex.all n hempty hh)
      · rcases hor with hl | hempty
        · exact hex.listed hl
        · exact holds_of_empty hempty
    | false =>
      rw [hflag, if_neg (by simp)] at h
      rw [if_neg (by simp)]
      have hc : fndovl { s with ldflag := false } n = true ↔ Listed s n := fndovl_iff
      refine good_iff_of_load memry io false hex (fun hl => ⟨hl, ?_⟩) fun hl => ?_
      · rw [if_pos (hc.mpr hl)] at h
        exact (Option.some.inj h).symm
      · rw [if_neg (mt hc.mp hl)] at h
        exact h
  | ovlay n force =>
    simp only [Op.run, ovlay] at h
    have hc : (!force && fndovl { s with ldflag := true } n) = true ↔ force = false ∧ Listed s n := by
      rw [Bool.and_eq_true, Bool.not_eq_true', fndovl_iff]
      exact Iff.rfl
    refine good_iff_of_load memry io true hex (fun hl => ⟨hl.2, ?_⟩) fun hl => ?_
    · rw [if_pos (hc.mpr hl)] at h
      exact (Option.some.inj h).symm
    · rw [if_neg (mt hc.mp hl)] at h
      exact h

theorem Exact.reach (hex : Exact T s) (hrun : Reach (Step T memry) s s') : Exact T s' := by
  induction hrun with
  | refl => exact hex
  | tail _ hstep ih =>
    obtain ⟨io, op, hc, h⟩ := hstep
    exact ((ih.run h).mpr hc).2

/-- After careful calls, `OVLTBL` is right, and a call leaves its overlay in memory if and only if
it is careful, too. -/
theorem good_iff_careful (T : Table N) (memry : ℕ) (hrun : Reach (Step T memry) (initial N) s) :
    Exact T s ∧ ∀ io (op : Op N) s', op.run T memry io s = some s' →
      (Good T s' op ↔ op.Careful T s) := by
  have hex := (exact_initial T).reach hrun
  exact ⟨hex, fun io op s' h => hex.run h⟩

/-! ## A data overlay before a call -/

/-- Two overlays of one record for the same place -/
def twoOverlays : Table 2 where
  ent n := ⟨4 + n, 0x1000, 100⟩
  size := by decide
  aligned _ := by simp only
  root _ := by simp only; omega
  fits _ := by simp only; omega
  header n := Nat.le_add_right 4 n
  file n := by simp only; omega

/-- The state after a call -/
def after (s : State 2) (op : Op 2) : State 2 :=
  (op.run twoOverlays 0xF000 (fun _ => true) s).getD s

theorem run_after {s : State 2} {op : Op 2}
    (h : (op.run twoOverlays 0xF000 (fun _ => true) s).isSome = true) :
    op.run twoOverlays 0xF000 (fun _ => true) s = some (after s op) := by
  obtain ⟨s', hs'⟩ := Option.isSome_iff_exists.mp h
  rw [after, hs']
  rfl

theorem reach_after : Reach (Step twoOverlays 0xF000) (initial 2)
    (after (initial 2) (.ovlay 1 false)) := by
  refine .single ⟨fun _ => true, .ovlay 1 false, Or.inr ?_, run_after (by decide)⟩
  rintro ⟨h, -⟩
  exact absurd (show (100 : ℕ) = 0 from h) (by decide)

/-- The second overlay is loaded for its data, and the routine is one of the first. -/
theorem not_good_after_ovlay : ¬∀ (N : ℕ) (T : Table N) (memry : ℕ) (s : State N),
    Reach (Step T memry) (initial N) s → ∀ io (op : Op N) s', op.run T memry io s = some s' →
      Good T s' op := by
  intro h
  have hgood := h 2 twoOverlays 0xF000 _ reach_after (fun _ => true) (.ovla0 0)
    (after (after (initial 2) (.ovlay 1 false)) (.ovla0 0)) (run_after (by decide))
  have hbyte := hgood.1 0 (by decide)
  exact absurd hbyte (by decide)

/-- The routine is one of the overlay that has been loaded. -/
theorem good_after_ovlay :
    Good twoOverlays (after (after (initial 2) (.ovlay 1 false)) (.ovla0 1)) (.ovla0 1) := by
  refine ((good_iff_careful twoOverlays 0xF000 reach_after).2 (fun _ => true) (.ovla0 1) _
    (run_after (by decide))).mpr ?_
  exact Or.inl ⟨⟨2, 0x1000, 0x107F⟩, by decide, rfl⟩

end RSX280.Ovlmgr
