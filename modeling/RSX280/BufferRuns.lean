import RSX280.Buffer
import RSX280.Memory

/-!
# Runs of the block cache

The cache against a plain block map. A state pairs the cache with the map it
should stand for and with the ledger of buffers handed out; users modify a block
through a buffer they hold, and set `BS.MOD` when they do.

`Refines` collects what the cache promises in every run. The proof is the
invariant `Inv`: the core invariant of the cache and access counts that agree
with the ledger. `B.ACCS` is one byte, so that agreement is modulo 256; as long
as no buffer is held more than 255 times at once, `Pinned` adds that a buffer in
use stays with its block.
-/

namespace RSX280.Buffer

open Links

universe u

variable {D : Type u}

/-! ## States and steps -/

/-- The cache, the buffers handed out and for which block, and the block map. -/
structure State (D : Type u) where
  cache : Cache D
  held : List (ℕ × Key)
  map : Key → D

/-- How many times buffer `i` is held. -/
def State.uses (s : State D) (i : ℕ) : ℕ := s.held.countP fun h => h.1 == i

/-- The access counts fit in a byte. -/
def State.Bounded (s : State D) : Prop := ∀ i, s.uses i < 256

/-- An empty cache on a disk; the map is the disk. -/
def State.initial [Zero D] (disk : Key → D) : State D :=
  ⟨inibuf ⟨disk, fun _ => false⟩, [], disk⟩

/-- The map after data has been stored in a buffer: the block the buffer is
assigned to changes. -/
def stored (c : Cache D) (i : ℕ) (d : D) (map : Key → D) : Key → D :=
  if (c.buf i).val then Function.update map (c.buf i).key d else map

/-- One call of the cache, or one modification by the holder of a buffer. `w` and
`r` are how the device answers the writes and reads of the call. -/
inductive Step [Zero D] : State D → State D → Prop
  /-- `GETBLK` returns a buffer -/
  | getblk {s : State D} {w r : Key → Xfer D} {k : Key} {i : ℕ} {c : Cache D}
      (h : getblk s.cache w r k = some (.ok i, c)) : Step s ⟨c, (i, k) :: s.held, s.map⟩
  /-- `GETBLK` fails -/
  | getblkFails {s : State D} {w r : Key → Xfer D} {k : Key} {e : Err} {c : Cache D}
      (h : getblk s.cache w r k = some (.error e, c)) : Step s ⟨c, s.held, s.map⟩
  /-- `NEWBLK` returns a zeroed buffer -/
  | newblk {s : State D} {w : Key → Xfer D} {k : Key} {i : ℕ} {c : Cache D}
      (h : newblk s.cache w k = some (.ok i, c)) :
      Step s ⟨c, (i, k) :: s.held, Function.update s.map k 0⟩
  /-- `NEWBLK` fails -/
  | newblkFails {s : State D} {w : Key → Xfer D} {k : Key} {e : Err} {c : Cache D}
      (h : newblk s.cache w k = some (.error e, c)) : Step s ⟨c, s.held, s.map⟩
  /-- a user changes the data of a buffer it holds and sets `BS.MOD` -/
  | modify {s : State D} {i : ℕ} {k : Key} (d : D) (h : (i, k) ∈ s.held) :
      Step s ⟨s.cache.setBuf i { s.cache.buf i with data := d, mod := true }, s.held,
        stored s.cache i d s.map⟩
  /-- `RLSBLK` -/
  | rlsblk {s : State D} {i : ℕ} {k : Key} (h : (i, k) ∈ s.held) :
      Step s ⟨rlsblk s.cache (some i), s.held.erase (i, k), s.map⟩
  /-- `FLSBLK` of any buffer -/
  | flsblk {s : State D} (w : Key → Xfer D) {i : ℕ} (h : i < nbuff) :
      Step s ⟨(flsblk s.cache w (some i)).2, s.held, s.map⟩
  /-- `FLBUFS` -/
  | flbufs {s : State D} {w : Key → Xfer D} {c : Cache D} (h : flbufs s.cache w = some c) :
      Step s ⟨c, s.held, s.map⟩

/-! ## What the cache promises -/

/-- The promises of the cache in a state. -/
structure Refines [Zero D] (s : State D) : Prop where
  /-- the LRU list is a permutation of the buffers -/
  lru : ∃ l, Chain s.cache.lnk filbf l ∧ l.Perm (List.range nbuff)
  /-- at most one valid buffer to a block -/
  uniq : ∀ i < nbuff, ∀ j < nbuff, (s.cache.buf i).val = true → (s.cache.buf j).val = true →
    (s.cache.buf i).key = (s.cache.buf j).key → i = j
  /-- `GETBLK` returns; it returns a buffer with what was last stored in the block
  unless the last write of the block failed, and is out of buffers only when the
  last buffer of the LRU list is in use -/
  getblk : ∀ w r k, ∃ res c, getblk s.cache w r k = some (res, c) ∧
    (∀ i, res = .ok i → (c.buf i).val = true ∧ (c.buf i).key = k ∧
      (c.dev.bad k = false → (c.buf i).data = s.map k)) ∧
    (res = .error .nobuf → ∃ l i, Chain s.cache.lnk filbf (l ++ [i]) ∧ 0 < s.uses i)
  /-- `NEWBLK` returns; it returns a zeroed buffer -/
  newblk : ∀ w k, ∃ res c, newblk s.cache w k = some (res, c) ∧
    (∀ i, res = .ok i → (c.buf i).val = true ∧ (c.buf i).key = k ∧ (c.buf i).data = 0) ∧
    (res = .error .nobuf → ∃ l i, Chain s.cache.lnk filbf (l ++ [i]) ∧ 0 < s.uses i)
  /-- no step discards a modified buffer or marks it clean, unless its data is on
  the disk or writing it failed -/
  noLoss : ∀ t, Step s t → NoLoss s.cache t.cache

/-- Every buffer in use is valid and assigned to the block it was handed out for. -/
def Pinned (s : State D) : Prop :=
  ∀ h ∈ s.held, (s.cache.buf h.1).val = true ∧ (s.cache.buf h.1).key = h.2

/-! ## The invariant -/

structure Inv (s : State D) : Prop where
  core : Core s.cache s.map
  count : ∀ i, (s.cache.buf i).accs = s.uses i % 256
  lt : ∀ h ∈ s.held, h.1 < nbuff

theorem State.uses_cons (c : Cache D) (held : List (ℕ × Key)) (m : Key → D) (i j : ℕ) (k : Key) :
    (State.mk c ((i, k) :: held) m).uses j =
      (State.mk c held m).uses j + if i = j then 1 else 0 := by
  simp only [State.uses, List.countP_cons, beq_iff_eq]

theorem State.uses_erase {s : State D} (c : Cache D) (m : Key → D) {i : ℕ} {k : Key}
    (h : (i, k) ∈ s.held) (j : ℕ) :
    s.uses j = (State.mk c (s.held.erase (i, k)) m).uses j + if i = j then 1 else 0 := by
  rw [← State.uses_cons (k := k)]
  exact (List.perm_cons_erase h).countP_eq _

theorem State.uses_pos {s : State D} {i : ℕ} {k : Key} (h : (i, k) ∈ s.held) : 0 < s.uses i :=
  List.countP_pos_iff.mpr ⟨_, h, beq_self_eq_true i⟩

section Inv

variable {s : State D}

/-- A call that hands out no buffer and counts none keeps the ledger. -/
theorem Inv.of_accs (h : Inv s) {c : Cache D} {m : Key → D} (hcore : Core c m)
    (haccs : ∀ j, (c.buf j).accs = (s.cache.buf j).accs) : Inv ⟨c, s.held, m⟩ where
  core := hcore
  count := fun j => (haccs j).trans (h.count j)
  lt := h.lt

/-- Handing out a buffer counts it. -/
theorem Inv.of_got (h : Inv s) {c : Cache D} {m : Key → D} {k : Key} {i : ℕ} (hcore : Core c m)
    (hgot : Got s.cache c k i) : Inv ⟨c, (i, k) :: s.held, m⟩ where
  core := hcore
  count := fun j => by
    have hcj : (s.cache.buf j).accs = (State.mk c s.held m).uses j % 256 := h.count j
    rw [State.uses_cons]
    by_cases hj : i = j
    · subst hj
      rw [if_pos rfl, hgot.accs, hcj]
      omega
    · rw [if_neg hj, (hgot.others j (Ne.symm hj)).2, hcj, Nat.add_zero]
  lt := List.forall_mem_cons.mpr ⟨hgot.lt, h.lt⟩

theorem Inv.modify (h : Inv s) {i : ℕ} {k : Key} (d : D) (hik : (i, k) ∈ s.held) :
    Inv ⟨s.cache.setBuf i { s.cache.buf i with data := d, mod := true }, s.held,
      stored s.cache i d s.map⟩ := by
  refine h.of_accs ?_ fun j => ?_
  · by_cases hv : (s.cache.buf i).val = true
    · have hcore := h.core.modify (h.lt _ hik) d fun j hj hji hvj hk =>
        hji (h.core.uniq j hj i (h.lt _ hik) hvj hv hk)
      have hb : { s.cache.buf i with data := d, val := true, mod := true } =
          { s.cache.buf i with data := d, mod := true } := by
        rw [← hv]
      rw [hb] at hcore
      rwa [stored, if_pos hv]
    · -- the buffer was taken over and could not be filled: it stands for nothing
      rw [stored, if_neg hv]
      refine h.core.congr rfl h.core.lru fun j => ?_
      by_cases hj : j = i
      · subst hj
        rw [setBuf_self]
        exact ⟨rfl, fun hv' => absurd hv' hv⟩
      · rw [setBuf_ne _ _ hj]
        exact ⟨rfl, fun _ => ⟨rfl, rfl, rfl⟩⟩
  · by_cases hj : j = i
    · subst hj
      rw [setBuf_self]
    · rw [setBuf_ne _ _ hj]

theorem Inv.rlsblk (h : Inv s) {i : ℕ} {k : Key} (hik : (i, k) ∈ s.held) :
    Inv ⟨rlsblk s.cache (some i), s.held.erase (i, k), s.map⟩ where
  core := h.core.rlsblk i
  count := fun j => by
    have hcount := State.uses_erase (Buffer.rlsblk s.cache (some i)) s.map hik j
    have hcj := h.count j
    by_cases hj : j = i
    · subst hj
      rw [if_pos rfl] at hcount
      rw [Buffer.rlsblk, setBuf_self]
      simp only [State.uses] at *
      omega
    · rw [if_neg (Ne.symm hj), Nat.add_zero] at hcount
      rw [Buffer.rlsblk, setBuf_ne _ _ hj, hcj, hcount]
      rfl
  lt := fun x hx => h.lt x (List.mem_of_mem_erase hx)

/-- Every step keeps the invariant. -/
theorem Inv.step [Zero D] {t : State D} (h : Inv s) (hst : Step s t) : Inv t := by
  cases hst with
  | @getblk w r k i c hrun =>
    obtain ⟨_, _, hrun', hcore, -, hres⟩ := getblk_spec h.core w r k
    cases hrun.symm.trans hrun'
    exact h.of_got hcore hres
  | @getblkFails w r k e c hrun =>
    obtain ⟨_, _, hrun', hcore, -, hres⟩ := getblk_spec h.core w r k
    cases hrun.symm.trans hrun'
    exact h.of_accs hcore hres.accs
  | @newblk w k i c hrun =>
    obtain ⟨_, _, hrun', -, hres⟩ := newblk_spec h.core w k
    cases hrun.symm.trans hrun'
    exact h.of_got hres.1 hres.2.1
  | @newblkFails w k e c hrun =>
    obtain ⟨_, _, hrun', -, hres⟩ := newblk_spec h.core w k
    cases hrun.symm.trans hrun'
    exact h.of_accs hres.1 hres.2.accs
  | modify d hik => exact h.modify d hik
  | rlsblk hik => exact h.rlsblk hik
  | @flsblk w i hi =>
    exact h.of_accs (h.core.flsblk w hi) fun j => (sameBlock_flsblk s.cache w i j).2
  | @flbufs w c hrun =>
    obtain ⟨_, hrun', hcore, hf⟩ := flbufs_spec h.core w
    cases hrun.symm.trans hrun'
    exact h.of_accs hcore fun j => (hf.same j).2

/-- No step loses modified data behind the user's back. -/
theorem Inv.noLoss [Zero D] {t : State D} (h : Inv s) (hst : Step s t) :
    NoLoss s.cache t.cache := by
  cases hst with
  | @getblk w r k i c hrun =>
    obtain ⟨_, _, hrun', -, hloss, -⟩ := getblk_spec h.core w r k
    cases hrun.symm.trans hrun'
    exact hloss
  | @getblkFails w r k e c hrun =>
    obtain ⟨_, _, hrun', -, hloss, -⟩ := getblk_spec h.core w r k
    cases hrun.symm.trans hrun'
    exact hloss
  | @newblk w k i c hrun =>
    obtain ⟨_, _, hrun', hloss, -⟩ := newblk_spec h.core w k
    cases hrun.symm.trans hrun'
    exact hloss
  | @newblkFails w k e c hrun =>
    obtain ⟨_, _, hrun', hloss, -⟩ := newblk_spec h.core w k
    cases hrun.symm.trans hrun'
    exact hloss
  | @modify i k d hik =>
    refine (NoLoss.refl s.cache).trans rfl fun j _ hd => ?_
    by_cases hj : j = i
    · subst hj
      rw [Dirty, setBuf_self]
      exact ⟨⟨hd.1, rfl⟩, rfl⟩
    · rw [Dirty, setBuf_ne _ _ hj]
      exact ⟨hd, rfl⟩
  | @rlsblk i k hik =>
    refine (NoLoss.refl s.cache).trans rfl fun j _ hd => ?_
    by_cases hj : j = i
    · subst hj
      rw [Dirty, Buffer.rlsblk, setBuf_self]
      exact ⟨hd, rfl⟩
    · rw [Dirty, Buffer.rlsblk, setBuf_ne _ _ hj]
      exact ⟨hd, rfl⟩
  | @flsblk w i hi => exact noLoss_flsblk s.cache w i
  | @flbufs w c hrun =>
    obtain ⟨_, hrun', -, hf⟩ := flbufs_spec h.core w
    cases hrun.symm.trans hrun'
    exact hf.noLoss

/-- A buffer with a nonzero access count is in use. -/
theorem Inv.uses_pos (h : Inv s) {i : ℕ} (hi : (s.cache.buf i).accs ≠ 0) : 0 < s.uses i := by
  rw [h.count] at hi
  exact Nat.pos_of_ne_zero fun h0 => hi (by rw [h0])

/-- The invariant has all the promises. -/
theorem Inv.refines [Zero D] (h : Inv s) : Refines s where
  lru := h.core.lru
  uniq := h.core.uniq
  getblk := fun w r k => by
    obtain ⟨res, c, hrun, hcore, -, hres⟩ := getblk_spec h.core w r k
    refine ⟨res, c, hrun, fun i hi => ?_, fun he => ?_⟩
    · subst hi
      refine ⟨hres.val, hres.key, fun hbad => ?_⟩
      rw [← hres.key] at hbad ⊢
      exact hcore.cached i hres.lt hres.val (Or.inr hbad)
    · subst he
      obtain ⟨l, i, hc, hi⟩ := hres.nobuf rfl
      exact ⟨l, i, hc, h.uses_pos hi⟩
  newblk := fun w k => by
    obtain ⟨res, c, hrun, -, hres⟩ := newblk_spec h.core w k
    refine ⟨res, c, hrun, fun i hi => ?_, fun he => ?_⟩
    · subst hi
      obtain ⟨-, hgot, hdata⟩ := hres
      exact ⟨hgot.val, hgot.key, hdata⟩
    · subst he
      obtain ⟨l, i, hc, hi⟩ := hres.2.nobuf rfl
      exact ⟨l, i, hc, h.uses_pos hi⟩
  noLoss := fun _ hst => h.noLoss hst

/-! ## Buffers in use -/

/-- Calls leave buffers in use with their block, if the counts have not wrapped. -/
theorem Pinned.of_used (hp : Pinned s) (h : Inv s) (hb : s.Bounded) {c : Cache D}
    (hused : ∀ j, (s.cache.buf j).accs = 0 ∨ SameBlock (s.cache.buf j) (c.buf j)) :
    ∀ x ∈ s.held, (c.buf x.1).val = true ∧ (c.buf x.1).key = x.2 := by
  intro x hx
  obtain ⟨hv, hk⟩ := hp x hx
  have hpos := State.uses_pos (s := s) (i := x.1) (k := x.2) hx
  rcases hused x.1 with h0 | hs
  · rw [h.count, Nat.mod_eq_of_lt (hb x.1)] at h0
    omega
  · exact ⟨hs.1.trans hv, hs.2.trans hk⟩

theorem Got.used_all {c c' : Cache D} {k : Key} {i : ℕ} (h : Got c c' k i) (j : ℕ) :
    (c.buf j).accs = 0 ∨ SameBlock (c.buf j) (c'.buf j) := by
  by_cases hj : j = i
  · subst hj
    exact h.used
  · exact Or.inr (h.others j hj).1

theorem Pinned.step [Zero D] {t : State D} (hp : Pinned s) (h : Inv s) (hb : s.Bounded)
    (hst : Step s t) : Pinned t := by
  cases hst with
  | @getblk w r k i c hrun =>
    obtain ⟨_, _, hrun', -, -, hres⟩ := getblk_spec h.core w r k
    cases hrun.symm.trans hrun'
    exact List.forall_mem_cons.mpr ⟨⟨hres.val, hres.key⟩, hp.of_used h hb hres.used_all⟩
  | @getblkFails w r k e c hrun =>
    obtain ⟨_, _, hrun', -, -, hres⟩ := getblk_spec h.core w r k
    cases hrun.symm.trans hrun'
    exact hp.of_used h hb hres.used
  | @newblk w k i c hrun =>
    obtain ⟨_, _, hrun', -, hres⟩ := newblk_spec h.core w k
    cases hrun.symm.trans hrun'
    obtain ⟨-, hgot, -⟩ := hres
    exact List.forall_mem_cons.mpr ⟨⟨hgot.val, hgot.key⟩, hp.of_used h hb hgot.used_all⟩
  | @newblkFails w k e c hrun =>
    obtain ⟨_, _, hrun', -, hres⟩ := newblk_spec h.core w k
    cases hrun.symm.trans hrun'
    exact hp.of_used h hb hres.2.used
  | @modify i k d hik =>
    refine hp.of_used h hb fun j => Or.inr ?_
    by_cases hj : j = i
    · subst hj
      rw [setBuf_self]
      exact ⟨rfl, rfl⟩
    · rw [setBuf_ne _ _ hj]
      exact ⟨rfl, rfl⟩
  | @rlsblk i k hik =>
    have hused : ∀ j, SameBlock (s.cache.buf j) ((Buffer.rlsblk s.cache (some i)).buf j) := by
      intro j
      by_cases hj : j = i
      · subst hj
        rw [Buffer.rlsblk, setBuf_self]
        exact ⟨rfl, rfl⟩
      · rw [Buffer.rlsblk, setBuf_ne _ _ hj]
        exact ⟨rfl, rfl⟩
    exact fun x hx => hp.of_used h hb (fun j => Or.inr (hused j)) x (List.mem_of_mem_erase hx)
  | @flsblk w i hi => exact hp.of_used h hb fun j => Or.inr (sameBlock_flsblk s.cache w i j).1
  | @flbufs w c hrun =>
    obtain ⟨_, hrun', -, hf⟩ := flbufs_spec h.core w
    cases hrun.symm.trans hrun'
    exact hp.of_used h hb fun j => Or.inr (hf.same j).1

end Inv

theorem inv_initial [Zero D] (disk : Key → D) : Inv (State.initial disk) where
  core := core_inibuf disk
  count := fun _ => rfl
  lt := fun _ hx => absurd hx List.not_mem_nil

/-- In every state a run reaches, the cache stands for the block map; and if no
buffer was ever held more than 255 times, every buffer in use has its block. -/
theorem refines_of_reach [Zero D] (disk : Key → D) {s : State D}
    (h : Reach Step (State.initial disk) s) :
    Refines s ∧
      (Reach (fun s t => Step s t ∧ t.Bounded) (State.initial disk) s → Pinned s) := by
  have hinv : Inv s := h.invariant (inv_initial disk) fun _ _ => Inv.step
  refine ⟨hinv.refines, fun hr => ?_⟩
  have hall : Inv s ∧ s.Bounded ∧ Pinned s := by
    refine hr.invariant (P := fun s => Inv s ∧ s.Bounded ∧ Pinned s)
      ⟨inv_initial disk, fun _ => Nat.zero_lt_succ _, fun _ hx => absurd hx List.not_mem_nil⟩ ?_
    exact fun a b ha hab => ⟨ha.1.step hab.1, hab.2, ha.2.2.step ha.1 ha.2.1 hab.1⟩
  exact hall.2.2

/-- A run on a working device: block 7 of device 0 is read. -/
theorem refines_of_reach_read :
    ∃ s : State ℕ, s.held = [(19, (0, 7))] ∧ s.map (0, 7) = 5 ∧ Refines s ∧ Pinned s := by
  have hstep : Step (State.initial fun _ => 5) _ :=
    @Step.getblk ℕ _ (State.initial fun _ => 5) (fun _ => none) (fun _ => none) (0, 7) 19 _ rfl
  obtain ⟨hrefines, hpinned⟩ := refines_of_reach (fun _ => 5) (.single hstep)
  refine ⟨_, rfl, rfl, hrefines, hpinned (.single ⟨hstep, fun i => ?_⟩)⟩
  exact Nat.lt_of_le_of_lt List.countP_le_length (by decide)

/-! ## Out of buffers with buffers free -/

/-- `GETBLK` on a working device. -/
def get (c : Cache ℕ) (k : Key) : Option (Except Err ℕ × Cache ℕ) :=
  getblk c (fun _ => none) (fun _ => none) k

/-- Read a block and release it at once. -/
def touch (s : State ℕ) (k : Key) : Option (State ℕ) :=
  match get s.cache k with
  | some (.ok i, c) => some ⟨rlsblk c (some i), s.held, s.map⟩
  | _ => none

/-- Touch the first blocks of device 0, counting down. -/
def touchAll : ℕ → State ℕ → Option (State ℕ)
  | 0, s => some s
  | n + 1, s => (touch s (0, n)).bind (touchAll n)

theorem reach_of_touch {s t : State ℕ} {k : Key} (h : touch s k = some t) : Reach Step s t := by
  rw [touch] at h
  split at h
  · next i c hrun =>
    obtain rfl := Option.some.inj h
    have hget : Step s ⟨c, (i, k) :: s.held, s.map⟩ := Step.getblk hrun
    refine .tail (.single hget) ?_
    have hrls := Step.rlsblk (s := ⟨c, (i, k) :: s.held, s.map⟩) List.mem_cons_self
    rwa [List.erase_cons_head] at hrls
  · cases h

theorem reach_of_touchAll {n : ℕ} {s t : State ℕ} (h : touchAll n s = some t) :
    Reach Step s t := by
  induction n generalizing s with
  | zero =>
    cases h
    exact .refl
  | succ n ih =>
    obtain ⟨s', hs', h'⟩ := Option.bind_eq_some_iff.mp h
    exact (reach_of_touch hs').trans (ih h')

/-- Hold block 100, then touch 19 others. -/
def holdOne : Option (State ℕ) :=
  match get (inibuf ⟨fun _ => 0, fun _ => false⟩) (0, 100) with
  | some (.ok i, c) => touchAll 19 ⟨c, [(i, (0, 100))], fun _ => 0⟩
  | _ => none

theorem reach_of_holdOne {s : State ℕ} (h : holdOne = some s) :
    Reach Step (State.initial fun _ => 0) s := by
  rw [holdOne] at h
  split at h
  · next i c hrun =>
    have hget : Step (State.initial fun _ => 0) ⟨c, (i, (0, 100)) :: [], fun _ => 0⟩ :=
      Step.getblk hrun
    exact .trans (.single hget) (reach_of_touchAll h)
  · cases h

/-- Is the next block refused, and is buffer `0` free? -/
def refusedWithFree (s : State ℕ) : Bool :=
  (match get s.cache (1, 1) with
    | some (.error .nobuf, _) => true
    | _ => false) && (s.cache.buf 0).accs == 0 && s.uses 0 == 0

/-- One buffer is held and sinks to the end of the list while others come and go:
the next block that is not cached is refused, though no other buffer is in use. -/
theorem nobuf_with_free_buffer :
    ∃ s : State ℕ, Reach Step (State.initial fun _ => 0) s ∧
      (∃ c, getblk s.cache (fun _ => none) (fun _ => none) (1, 1) = some (.error .nobuf, c)) ∧
      ∃ i < nbuff, (s.cache.buf i).accs = 0 ∧ s.uses i = 0 := by
  have hrun : holdOne.map refusedWithFree = some true := by decide
  obtain ⟨s, hs, hcheck⟩ := Option.map_eq_some_iff.mp hrun
  rw [refusedWithFree, Bool.and_eq_true, Bool.and_eq_true, beq_iff_eq, beq_iff_eq] at hcheck
  obtain ⟨⟨hget, haccs⟩, huses⟩ := hcheck
  refine ⟨s, reach_of_holdOne hs, ?_, 0, by decide, haccs, huses⟩
  split at hget
  · next c hc => exact ⟨c, hc⟩
  · cases hget

end RSX280.Buffer
