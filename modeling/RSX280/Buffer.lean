import Mathlib.Algebra.GroupWithZero.Nat
import Mathlib.Data.List.Count
import Mathlib.Data.List.Perm.Basic
import RSX280.Errors
import RSX280.Links

/-!
# The block cache (`buffer.mac`)

`NBUFF` buffers in a single-linked LRU list headed by `$FILBF`. `FNDBUF` looks a
block up along the list and, failing that, takes the last buffer over; the
buffer it returns moves to the head. `GETBLK` and `NEWBLK` are built on it.

Buffers are numbered rather than addressed, a device and a block number make up
a `Key`, and a block is a value of an arbitrary type `D` with a zero. The device
is a disk and, for each transfer, an answer: done, or a fault.
-/

namespace RSX280.Buffer

open Links

universe u

/-! ## Data -/

/-- `NBUFF` of `sysfcp.inc`. -/
def nbuff : ℕ := 20

/-- UCB address and 24-bit block number. -/
abbrev Key : Type := ℕ × ℕ

/-- A buffer without its link field. -/
structure Buf (D : Type u) where
  /-- `BS.VAL`: contains valid data -/
  val : Bool
  /-- `BS.MOD`: modified -/
  mod : Bool
  /-- `B.UCB` -/
  ucb : ℕ
  /-- `B.BLKNO` -/
  blkno : ℕ
  /-- `B.ACCS`: access count, one byte -/
  accs : ℕ
  /-- `B.DATA` -/
  data : D

/-- The block a buffer is assigned to. -/
def Buf.key {D : Type u} (b : Buf D) : Key := (b.ucb, b.blkno)

/-- A transfer the device refused or broke off, and what it left behind. No
driver returns `E.NOBUF`, the code the cache itself returns. -/
structure Fault (D : Type u) where
  err : Err
  junk : D
  err_ne : err ≠ .nobuf

/-- The outcome of a transfer; `none` is success. -/
abbrev Xfer (D : Type u) : Type u := Option (Fault D)

/-- The block device. -/
structure Dev (D : Type u) where
  /-- contents of the blocks -/
  disk : Key → D
  /-- whether the last write of a block failed -/
  bad : Key → Bool

/-- The cache and the device below it. -/
structure Cache (D : Type u) where
  /-- `$FILBF` and the `B.LNK` fields -/
  lnk : Links Unit ℕ
  buf : ℕ → Buf D
  dev : Dev D
  /-- hit and miss counters -/
  hit : ℕ
  miss : ℕ

/-- Head of the LRU list. -/
abbrev filbf : Cell Unit ℕ := .head ()

variable {D : Type u}

/-! ## The routines -/

/-- Store into one buffer. -/
def Cache.setBuf (c : Cache D) (i : ℕ) (b : Buf D) : Cache D :=
  { c with buf := Function.update c.buf i b }

/-- Four-byte increment. -/
def inc32 (n : ℕ) : ℕ := (n + 1) % 4294967296

/-- The loop `inib1` of `INIBUF`: chain the buffers from `de` on. -/
def inib1 : ℕ → ℕ → Links Unit ℕ → Links Unit ℕ
  | 0, _, lk => lk
  | b + 1, de, lk => inib1 b (de + 1) (Function.update lk (.node de) (some (de + 1)))

/-- `INIBUF`: clear all buffers and chain them. -/
def inibuf [Zero D] (dev : Dev D) : Cache D where
  lnk := inib1 (nbuff - 1) 0 (Function.update (fun _ => none) filbf (some 0))
  buf := fun _ => ⟨false, false, 0, 0, 0, 0⟩
  dev := dev
  hit := 0
  miss := 0

/-- `RLSBLK`: release a block. A null pointer is ignored. -/
def rlsblk (c : Cache D) : Option ℕ → Cache D
  | none => c
  | some i => c.setBuf i { c.buf i with accs := ((c.buf i).accs + 255) % 256 }

/-- `WRBLK`. Returns the error, if any. -/
def wrblk (dev : Dev D) (x : Xfer D) (k : Key) (d : D) : Option Err × Dev D :=
  match x with
  | none => (none, ⟨Function.update dev.disk k d, Function.update dev.bad k false⟩)
  | some f => (some f.err, ⟨Function.update dev.disk k f.junk, Function.update dev.bad k true⟩)

/-- `FLSBLK`: write a buffer back. `w` is how the device answers writes. -/
def flsblk (c : Cache D) (w : Key → Xfer D) : Option ℕ → Option Err × Cache D
  | none => (none, c)
  | some i =>
    let b := c.buf i
    if b.val then
      if b.mod then
        let r := wrblk c.dev (w b.key) b.key b.data
        -- with or without an error the code goes through fls1
        (r.1, { c with dev := r.2 }.setBuf i { b with mod := false })
      else (none, c)
    else (none, c.setBuf i { b with mod := false })

/-- The loop `flb1` of `FLBUFS`; errors are dropped. -/
def flb1 (w : Key → Xfer D) : ℕ → Cache D → Option ℕ → Option (Cache D)
  | _, c, none => some c
  | 0, _, some _ => none
  | n + 1, c, some i =>
    let c := (flsblk c w (some i)).2
    flb1 w n c (c.lnk (.node i))

/-- `FLBUFS`: flush all buffers. -/
def flbufs (c : Cache D) (w : Key → Xfer D) : Option (Cache D) := flb1 w nbuff c (c.lnk filbf)

/-- The loop `fnd1`/`fnd2` of `FNDBUF`. Returns whether a valid buffer for `k` was
found, the cell in front of the buffer the loop stopped at, and that buffer. -/
def fnd1 (c : Cache D) (k : Key) : ℕ → Cell Unit ℕ → ℕ → Option (Bool × Cell Unit ℕ × ℕ)
  | 0, _, _ => none
  | n + 1, prev, ix =>
    let b := c.buf ix
    if b.val = true ∧ b.ucb = k.1 ∧ b.blkno = k.2 then some (true, prev, ix)
    else
      match c.lnk (.node ix) with
      | none => some (false, prev, ix)
      | some next => fnd1 c k n (.node ix) next

/-- `fnd4`: count the access and make the buffer the head of the list. -/
def fnd4 (c : Cache D) (prev : Cell Unit ℕ) (ix : ℕ) : Cache D :=
  let c := c.setBuf ix { c.buf ix with accs := ((c.buf ix).accs + 1) % 256 }
  { c with lnk := (c.lnk.unlink prev ix).relink filbf ix }

/-- `fnd3`: no buffer holds the block, take the last one over. -/
def fnd3 (c : Cache D) (w : Key → Xfer D) (k : Key) (prev : Cell Unit ℕ) (ix : ℕ) :
    Except Err ℕ × Cache D :=
  let c := { c with miss := inc32 c.miss }
  if (c.buf ix).accs ≠ 0 then (.error .nobuf, c)
  else
    match flsblk c w (some ix) with
    | (some e, c) => (.error e, c)
    | (none, c) =>
      let c := c.setBuf ix
        { c.buf ix with ucb := k.1, blkno := k.2, val := false, mod := false }
      (.ok ix, fnd4 c prev ix)

/-- `FNDBUF`. `none` would be an empty pool or a list that does not end. -/
def fndbuf (c : Cache D) (w : Key → Xfer D) (k : Key) : Option (Except Err ℕ × Cache D) :=
  match c.lnk filbf with
  | none => none
  | some ix =>
    (fnd1 c k nbuff filbf ix).map fun r =>
      if r.1 then (.ok r.2.2, fnd4 { c with hit := inc32 c.hit } r.2.1 r.2.2)
      else fnd3 c w k r.2.1 r.2.2

/-- The part of `GETBLK` behind `FNDBUF`: fill the buffer if it is not valid. -/
def fill (c : Cache D) (x : Xfer D) (k : Key) (ix : ℕ) : Except Err ℕ × Cache D :=
  if (c.buf ix).val then (.ok ix, c)
  else
    match x with
    | none => (.ok ix, c.setBuf ix { c.buf ix with val := true, data := c.dev.disk k })
    | some f =>
      -- gblk2: the buffer is released again
      (.error f.err, c.setBuf ix
        { c.buf ix with data := f.junk, accs := ((c.buf ix).accs + 255) % 256 })

/-- `GETBLK`; `r` is how the device answers reads. -/
def getblk (c : Cache D) (w r : Key → Xfer D) (k : Key) : Option (Except Err ℕ × Cache D) :=
  (fndbuf c w k).map fun
    | (.error e, c) => (.error e, c)
    | (.ok ix, c) => fill c (r k) k ix

/-- `NEWBLK`: a zeroed block. -/
def newblk [Zero D] (c : Cache D) (w : Key → Xfer D) (k : Key) :
    Option (Except Err ℕ × Cache D) :=
  (fndbuf c w k).map fun
    | (.error e, c) => (.error e, c)
    | (.ok ix, c) => (.ok ix, c.setBuf ix { c.buf ix with data := 0, val := true, mod := true })

/-! ## What the routines do to single fields -/

theorem setBuf_self (c : Cache D) (i : ℕ) (b : Buf D) : (c.setBuf i b).buf i = b :=
  Function.update_self ..

theorem setBuf_ne (c : Cache D) {i j : ℕ} (b : Buf D) (h : j ≠ i) :
    (c.setBuf i b).buf j = c.buf j :=
  Function.update_of_ne h ..

@[simp] theorem setBuf_lnk (c : Cache D) (i : ℕ) (b : Buf D) : (c.setBuf i b).lnk = c.lnk := rfl

@[simp] theorem setBuf_dev (c : Cache D) (i : ℕ) (b : Buf D) : (c.setBuf i b).dev = c.dev := rfl

@[simp] theorem flsblk_lnk (c : Cache D) (w : Key → Xfer D) (i : ℕ) :
    (flsblk c w (some i)).2.lnk = c.lnk := by
  simp only [flsblk]
  split
  · split <;> rfl
  · rfl

/-- Whatever the outcome, `FLSBLK` leaves the buffer marked clean. -/
theorem flsblk_buf (c : Cache D) (w : Key → Xfer D) (i : ℕ) :
    (flsblk c w (some i)).2.buf = Function.update c.buf i { c.buf i with mod := false } := by
  simp only [flsblk]
  split
  · split
    · rfl
    · next h =>
      have hb : { c.buf i with mod := false } = c.buf i := by
        rw [← (Bool.not_eq_true _).mp h]
      rw [hb, Function.update_eq_self]
  · rfl

/-- A buffer is dirty when it holds data the disk does not have yet. -/
def Dirty (c : Cache D) (i : ℕ) : Prop := (c.buf i).val = true ∧ (c.buf i).mod = true

theorem flsblk_dev_of_dirty {c : Cache D} {i : ℕ} (w : Key → Xfer D) (h : Dirty c i) :
    (flsblk c w (some i)).2.dev =
      (wrblk c.dev (w (c.buf i).key) (c.buf i).key (c.buf i).data).2 := by
  simp only [flsblk, h.1, h.2, if_true, setBuf_dev]

theorem flsblk_dev_of_clean {c : Cache D} {i : ℕ} (w : Key → Xfer D) (h : ¬ Dirty c i) :
    (flsblk c w (some i)).2.dev = c.dev := by
  simp only [flsblk]
  split
  · split
    · exact absurd ⟨‹_›, ‹_›⟩ h
    · rfl
  · rfl

theorem wrblk_of_ne (dev : Dev D) (x : Xfer D) {k k' : Key} (d : D) (h : k' ≠ k) :
    (wrblk dev x k d).2.disk k' = dev.disk k' ∧ (wrblk dev x k d).2.bad k' = dev.bad k' := by
  cases x with
  | none => exact ⟨Function.update_of_ne h .., Function.update_of_ne h ..⟩
  | some f => exact ⟨Function.update_of_ne h .., Function.update_of_ne h ..⟩

/-- A write has put the data on the disk or is known to have failed. -/
theorem wrblk_self (dev : Dev D) (x : Xfer D) (k : Key) (d : D) :
    (wrblk dev x k d).2.disk k = d ∨ (wrblk dev x k d).2.bad k = true := by
  cases x with
  | none => exact Or.inl (Function.update_self ..)
  | some f => exact Or.inr (Function.update_self ..)

/-! ## The invariant

`map` is what the cache stands for: the plain block map. A buffer agrees with it
unless it is clean and the last write of its block failed; the disk agrees with
it in every block that has no dirty buffer and whose last write did not fail. -/

structure Core (c : Cache D) (map : Key → D) : Prop where
  /-- the LRU list is a permutation of the buffers -/
  lru : ∃ l, Chain c.lnk filbf l ∧ l.Perm (List.range nbuff)
  /-- one valid buffer to a block -/
  uniq : ∀ i < nbuff, ∀ j < nbuff, (c.buf i).val = true → (c.buf j).val = true →
    (c.buf i).key = (c.buf j).key → i = j
  cached : ∀ i < nbuff, (c.buf i).val = true →
    (c.buf i).mod = true ∨ c.dev.bad (c.buf i).key = false → (c.buf i).data = map (c.buf i).key
  synced : ∀ k, c.dev.bad k = false → (∀ i < nbuff, Dirty c i → (c.buf i).key ≠ k) →
    c.dev.disk k = map k

/-- Only what the invariant reads matters: the device, the list and the buffers
that are valid. -/
theorem Core.congr {c c' : Cache D} {map : Key → D} (h : Core c map) (hdev : c'.dev = c.dev)
    (hlru : ∃ l, Chain c'.lnk filbf l ∧ l.Perm (List.range nbuff))
    (hbuf : ∀ i, (c'.buf i).val = (c.buf i).val ∧ ((c.buf i).val = true →
      (c'.buf i).mod = (c.buf i).mod ∧ (c'.buf i).key = (c.buf i).key ∧
        (c'.buf i).data = (c.buf i).data)) : Core c' map where
  lru := hlru
  uniq := fun i hi j hj => by
    rw [(hbuf i).1, (hbuf j).1]
    intro hvi hvj
    rw [((hbuf i).2 hvi).2.1, ((hbuf j).2 hvj).2.1]
    exact h.uniq i hi j hj hvi hvj
  cached := fun i hi => by
    rw [(hbuf i).1, hdev]
    intro hv
    obtain ⟨hm, hk, hd⟩ := (hbuf i).2 hv
    rw [hm, hk, hd]
    exact h.cached i hi hv
  synced := fun k => by
    rw [hdev]
    refine fun hb hk => h.synced k hb fun i hi hd => ?_
    obtain ⟨hm, hk', -⟩ := (hbuf i).2 hd.1
    rw [← hk']
    exact hk i hi ⟨(hbuf i).1.trans hd.1, hm.trans hd.2⟩

/-- Flushing a buffer, successfully or not, keeps the invariant. -/
theorem Core.flsblk {c : Cache D} {map : Key → D} (h : Core c map) (w : Key → Xfer D) {i : ℕ}
    (hi : i < nbuff) : Core (flsblk c w (some i)).2 map := by
  have hbuf : ∀ j, ((Buffer.flsblk c w (some i)).2.buf j).val = (c.buf j).val ∧
      ((Buffer.flsblk c w (some i)).2.buf j).key = (c.buf j).key ∧
      ((Buffer.flsblk c w (some i)).2.buf j).data = (c.buf j).data := by
    intro j
    rw [flsblk_buf]
    by_cases hj : j = i
    · subst hj
      rw [Function.update_self]
      exact ⟨rfl, rfl, rfl⟩
    · rw [Function.update_of_ne hj]
      exact ⟨rfl, rfl, rfl⟩
  have hmod : ((Buffer.flsblk c w (some i)).2.buf i).mod = false := by
    rw [flsblk_buf, Function.update_self]
  have hmod' : ∀ j, j ≠ i → (Buffer.flsblk c w (some i)).2.buf j = c.buf j := fun j hj => by
    rw [flsblk_buf, Function.update_of_ne hj]
  -- the device changes at most in the block of a dirty buffer
  have hdev : ∀ k, (Dirty c i → (c.buf i).key ≠ k) →
      (Buffer.flsblk c w (some i)).2.dev.disk k = c.dev.disk k ∧
        (Buffer.flsblk c w (some i)).2.dev.bad k = c.dev.bad k := by
    intro k hk
    by_cases hd : Dirty c i
    · rw [flsblk_dev_of_dirty w hd]
      exact wrblk_of_ne _ _ _ (hk hd).symm
    · rw [flsblk_dev_of_clean w hd]
      exact ⟨rfl, rfl⟩
  refine ⟨by simpa only [flsblk_lnk] using h.lru, ?_, ?_, ?_⟩
  · intro j hj k hk
    rw [(hbuf j).1, (hbuf k).1, (hbuf j).2.1, (hbuf k).2.1]
    exact h.uniq j hj k hk
  · intro j hj
    rw [(hbuf j).1, (hbuf j).2.1, (hbuf j).2.2]
    intro hv hcase
    by_cases hji : j = i
    · subst hji
      rw [hmod] at hcase
      have hbad := hcase.resolve_left nofun
      by_cases hd : Dirty c j
      · exact h.cached j hj hv (Or.inl hd.2)
      · rw [(hdev _ fun hd' => absurd hd' hd).2] at hbad
        exact h.cached j hj hv (Or.inr hbad)
    · rw [hmod' j hji, (hdev _ fun hd he => hji (h.uniq j hj i hi hv hd.1 he.symm)).2] at hcase
      exact h.cached j hj hv hcase
  · intro k hbad hk
    by_cases hd : Dirty c i ∧ (c.buf i).key = k
    · -- the block just written
      obtain ⟨hd, rfl⟩ := hd
      rw [flsblk_dev_of_dirty w hd] at hbad ⊢
      rcases wrblk_self c.dev (w (c.buf i).key) (c.buf i).key (c.buf i).data with hw | hw
      · rw [hw]
        exact h.cached i hi hd.1 (Or.inl hd.2)
      · rw [hw] at hbad
        cases hbad
    · have hne : Dirty c i → (c.buf i).key ≠ k := fun hd' he => hd ⟨hd', he⟩
      rw [(hdev k hne).1]
      rw [(hdev k hne).2] at hbad
      refine h.synced k hbad fun j hj hdj => ?_
      by_cases hji : j = i
      · subst hji
        exact hne hdj
      · have := hk j hj
        rw [Dirty, hmod' j hji] at this
        exact this hdj

/-- Handing a clean buffer over to another block keeps the invariant. -/
theorem Core.assign {c : Cache D} {map : Key → D} (h : Core c map) {i : ℕ} (k : Key)
    (hm : (c.buf i).mod = false) :
    Core (c.setBuf i { c.buf i with ucb := k.1, blkno := k.2, val := false, mod := false })
      map where
  lru := h.lru
  uniq := fun j hj l hl hvj hvl => by
    have hji : j ≠ i := by rintro rfl; rw [setBuf_self] at hvj; cases hvj
    have hli : l ≠ i := by rintro rfl; rw [setBuf_self] at hvl; cases hvl
    rw [setBuf_ne _ _ hji] at hvj ⊢
    rw [setBuf_ne _ _ hli] at hvl ⊢
    exact h.uniq j hj l hl hvj hvl
  cached := fun j hj hvj => by
    have hji : j ≠ i := by rintro rfl; rw [setBuf_self] at hvj; cases hvj
    rw [setBuf_ne _ _ hji] at hvj ⊢
    exact h.cached j hj hvj
  synced := fun k' hb hk => by
    refine h.synced k' hb fun j hj hd => ?_
    have hji : j ≠ i := by
      rintro rfl
      rw [Dirty, hm] at hd
      cases hd.2
    have := hk j hj
    rw [Dirty, setBuf_ne _ _ hji] at this
    exact this hd

/-- Moving a buffer to the head of the list keeps the invariant. -/
theorem Core.fnd4 {c : Cache D} {map : Key → D} (h : Core c map) {i : ℕ} {l₁ l₂ : List ℕ}
    (hc : Chain c.lnk filbf (l₁ ++ i :: l₂)) (hp : (l₁ ++ i :: l₂).Perm (List.range nbuff)) :
    Core (fnd4 c (last filbf l₁) i) map := by
  refine h.congr rfl ⟨i :: (l₁ ++ l₂), ?_, List.perm_middle.symm.trans hp⟩ fun j => ?_
  · have hi : i ∉ l₁ ++ l₂ := by
      have := hc.nodup
      rw [List.nodup_middle] at this
      exact (List.nodup_cons.mp this).1
    have hun : Chain _ filbf ([] ++ (l₁ ++ l₂)) := hc.unlink fun _ _ => nofun
    exact hun.relink (fun _ _ => nofun) nofun hi
  · simp only [Buffer.fnd4]
    by_cases hj : j = i
    · subst hj
      rw [setBuf_self]
      exact ⟨rfl, fun _ => ⟨rfl, rfl, rfl⟩⟩
    · rw [setBuf_ne _ _ hj]
      exact ⟨rfl, fun _ => ⟨rfl, rfl, rfl⟩⟩

/-! ## Finding a buffer -/

/-- The loop of `FNDBUF` stops at a valid buffer of the block, or at the last
buffer when there is none. -/
theorem fnd1_eq {c : Cache D} {k : Key} {p : Cell Unit ℕ} {i n : ℕ} {l : List ℕ}
    (h : Chain c.lnk p (i :: l)) (hn : l.length < n) :
    ∃ hit l₁ j l₂, i :: l = l₁ ++ j :: l₂ ∧ fnd1 c k n p i = some (hit, last p l₁, j) ∧
      (hit = true → (c.buf j).val = true ∧ (c.buf j).key = k) ∧
      (hit = false → l₂ = [] ∧ ∀ x ∈ i :: l, (c.buf x).val = true → (c.buf x).key ≠ k) := by
  obtain ⟨n, rfl⟩ : ∃ n', n = n' + 1 := ⟨n - 1, by omega⟩
  induction l generalizing p i n with
  | nil =>
    by_cases hk : (c.buf i).val = true ∧ (c.buf i).ucb = k.1 ∧ (c.buf i).blkno = k.2
    · exact ⟨true, [], i, [], rfl, by simp [fnd1, hk], fun _ => ⟨hk.1, Prod.ext hk.2.1 hk.2.2⟩,
        nofun⟩
    · refine ⟨false, [], i, [], rfl, ?_, nofun, fun _ => ⟨rfl, fun x hx hv he => hk ?_⟩⟩
      · rw [fnd1]
        simp only [if_neg hk, show c.lnk (.node i) = none from h.2, last_nil]
      · obtain rfl := List.mem_singleton.mp hx
        exact ⟨hv, congrArg Prod.fst he, congrArg Prod.snd he⟩
  | cons a l ih =>
    by_cases hk : (c.buf i).val = true ∧ (c.buf i).ucb = k.1 ∧ (c.buf i).blkno = k.2
    · exact ⟨true, [], i, a :: l, rfl, by simp [fnd1, hk],
        fun _ => ⟨hk.1, Prod.ext hk.2.1 hk.2.2⟩, nofun⟩
    · obtain ⟨n, rfl⟩ : ∃ n', n = n' + 1 :=
        ⟨n - 1, by simp only [List.length_cons] at hn; omega⟩
      obtain ⟨hit, l₁, j, l₂, he, hrun, hhit, hmiss⟩ := ih h.2 n (by simpa using hn)
      refine ⟨hit, i :: l₁, j, l₂, by rw [he, List.cons_append], ?_, hhit, fun hf => ?_⟩
      · rw [fnd1]
        simp only [if_neg hk, show c.lnk (.node i) = some a from h.2.1, last_cons]
        exact hrun
      · refine ⟨(hmiss hf).1, List.forall_mem_cons.mpr ⟨fun hv he => hk ?_, (hmiss hf).2⟩⟩
        exact ⟨hv, congrArg Prod.fst he, congrArg Prod.snd he⟩

/-- Everything the callers rely on in a buffer but its access count. -/
def SameBlock (b b' : Buf D) : Prop := b'.val = b.val ∧ b'.key = b.key

/-- No dirty buffer is lost: each one is dirty for the same block in `c'`, or its
data is on the disk, or writing it failed. -/
def NoLoss (c c' : Cache D) : Prop :=
  ∀ i < nbuff, Dirty c i → (Dirty c' i ∧ (c'.buf i).key = (c.buf i).key) ∨
    c'.dev.disk (c.buf i).key = (c.buf i).data ∨ c'.dev.bad (c.buf i).key = true

/-- What `FNDBUF` does when it finds or makes room for block `k` in buffer `i`. -/
structure Found (c c' : Cache D) (k : Key) (i : ℕ) : Prop where
  lt : i < nbuff
  key : (c'.buf i).key = k
  accs : (c'.buf i).accs = ((c.buf i).accs + 1) % 256
  others : ∀ j, j ≠ i → SameBlock (c.buf j) (c'.buf j) ∧ (c'.buf j).accs = (c.buf j).accs
  /-- either the block was in the cache, or buffer `i` was free and is now clean
  and not valid, and no other buffer holds the block -/
  fresh : ((c'.buf i).val = true ∧ SameBlock (c.buf i) (c'.buf i)) ∨
    ((c'.buf i).val = false ∧ (c'.buf i).mod = false ∧ (c.buf i).accs = 0 ∧
      ∀ j < nbuff, (c'.buf j).val = true → (c'.buf j).key ≠ k)

/-- What `FNDBUF` does when it fails. -/
structure Refused (c c' : Cache D) (k : Key) (e : Err) : Prop where
  same : ∀ j, SameBlock (c.buf j) (c'.buf j) ∧ (c'.buf j).accs = (c.buf j).accs
  /-- out of buffers: the block is not cached and the last buffer of the LRU list is in use -/
  nobuf : e = .nobuf → (∀ j < nbuff, (c.buf j).val = true → (c.buf j).key ≠ k) ∧
    ∃ l i, Chain c.lnk filbf (l ++ [i]) ∧ (c.buf i).accs ≠ 0

theorem NoLoss.refl (c : Cache D) : NoLoss c c := fun _ _ hd => Or.inl ⟨hd, rfl⟩

/-- Steps that keep the dirty buffers and the device lose nothing. -/
theorem NoLoss.trans {c c' c'' : Cache D} (h : NoLoss c c') (hdev : c''.dev = c'.dev)
    (hd : ∀ j < nbuff, Dirty c' j → Dirty c'' j ∧ (c''.buf j).key = (c'.buf j).key) :
    NoLoss c c'' := by
  intro i hi hdi
  rw [hdev]
  rcases h i hi hdi with ⟨hd', hk⟩ | h
  · exact Or.inl ⟨(hd i hi hd').1, (hd i hi hd').2.trans hk⟩
  · exact Or.inr h

theorem noLoss_flsblk (c : Cache D) (w : Key → Xfer D) (i : ℕ) :
    NoLoss c (flsblk c w (some i)).2 := by
  intro j _ hd
  by_cases hj : j = i
  · subst hj
    rw [flsblk_dev_of_dirty w hd]
    exact Or.inr (wrblk_self ..)
  · left
    rw [Dirty, flsblk_buf, Function.update_of_ne hj]
    exact ⟨hd, rfl⟩

theorem fnd4_buf_self (c : Cache D) (p : Cell Unit ℕ) (i : ℕ) :
    (fnd4 c p i).buf i = { c.buf i with accs := ((c.buf i).accs + 1) % 256 } :=
  setBuf_self ..

theorem fnd4_buf_ne (c : Cache D) (p : Cell Unit ℕ) {i j : ℕ} (h : j ≠ i) :
    (fnd4 c p i).buf j = c.buf j :=
  setBuf_ne _ _ h

/-- The errors of `FLSBLK` are the device's. -/
theorem flsblk_err_ne (c : Cache D) (w : Key → Xfer D) (i : ℕ) :
    (flsblk c w (some i)).1 ≠ some .nobuf := by
  simp only [flsblk]
  split
  · split
    · cases w (c.buf i).key with
      | none => simp [wrblk]
      | some f => simpa [wrblk] using f.err_ne
    · simp
  · simp

theorem sameBlock_flsblk (c : Cache D) (w : Key → Xfer D) (i j : ℕ) :
    SameBlock (c.buf j) ((flsblk c w (some i)).2.buf j) ∧
      ((flsblk c w (some i)).2.buf j).accs = (c.buf j).accs := by
  rw [flsblk_buf]
  by_cases hj : j = i
  · subst hj
    rw [Function.update_self]
    exact ⟨⟨rfl, rfl⟩, rfl⟩
  · rw [Function.update_of_ne hj]
    exact ⟨⟨rfl, rfl⟩, rfl⟩

section Fndbuf

variable {c : Cache D} {map : Key → D} {k : Key} {i : ℕ} {l₁ l₂ : List ℕ}

/-- The block is in the cache: its buffer is counted and moved to the head. -/
theorem found_of_hit (hc : Chain c.lnk filbf (l₁ ++ i :: l₂))
    (hp : (l₁ ++ i :: l₂).Perm (List.range nbuff)) (hk : (c.buf i).val = true ∧ (c.buf i).key = k) :
    NoLoss c (fnd4 c (last filbf l₁) i) ∧ Found c (fnd4 c (last filbf l₁) i) k i := by
  have hi : i < nbuff := List.mem_range.mp (hp.mem_iff.mp (by simp))
  have hself := fnd4_buf_self c (last filbf l₁) i
  refine ⟨(NoLoss.refl c).trans rfl fun j _ hd => ?_, hi, ?_, ?_, fun j hj => ?_, ?_⟩
  · by_cases hj : j = i
    · subst hj
      rw [Dirty, hself]
      exact ⟨hd, rfl⟩
    · rw [Dirty, fnd4_buf_ne _ _ hj]
      exact ⟨hd, rfl⟩
  · rw [hself]
    exact hk.2
  · rw [hself]
  · rw [fnd4_buf_ne _ _ hj]
    exact ⟨⟨rfl, rfl⟩, rfl⟩
  · rw [hself]
    exact Or.inl ⟨hk.1, rfl, rfl⟩

/-- The block is not in the cache: the last buffer is refused, or flushed and
taken over. -/
theorem fnd3_spec (h : Core c map) (w : Key → Xfer D) (hc : Chain c.lnk filbf (l₁ ++ [i]))
    (hp : (l₁ ++ [i]).Perm (List.range nbuff))
    (hmiss : ∀ x ∈ l₁ ++ [i], (c.buf x).val = true → (c.buf x).key ≠ k) :
    Core (fnd3 c w k (last filbf l₁) i).2 map ∧ NoLoss c (fnd3 c w k (last filbf l₁) i).2 ∧
      match (fnd3 c w k (last filbf l₁) i).1 with
      | .ok j => Found c (fnd3 c w k (last filbf l₁) i).2 k j
      | .error e => Refused c (fnd3 c w k (last filbf l₁) i).2 k e := by
  have hi : i < nbuff := List.mem_range.mp (hp.mem_iff.mp (by simp))
  have hmiss' : ∀ j < nbuff, (c.buf j).val = true → (c.buf j).key ≠ k := fun j hj =>
    hmiss j (hp.mem_iff.mpr (List.mem_range.mpr hj))
  simp only [fnd3]
  by_cases haccs : (c.buf i).accs ≠ 0
  · rw [if_pos haccs]
    exact ⟨⟨h.lru, h.uniq, h.cached, h.synced⟩, NoLoss.refl c,
      fun j => ⟨⟨rfl, rfl⟩, rfl⟩, fun _ => ⟨hmiss', l₁, i, hc, haccs⟩⟩
  · rw [if_neg haccs]
    let c₁ : Cache D := { c with miss := inc32 c.miss }
    have h₁ : Core c₁ map := ⟨h.lru, h.uniq, h.cached, h.synced⟩
    have hf := h₁.flsblk w hi
    have hloss : NoLoss c (flsblk c₁ w (some i)).2 := noLoss_flsblk c₁ w i
    have hsame : ∀ j, SameBlock (c.buf j) ((flsblk c₁ w (some i)).2.buf j) ∧
        ((flsblk c₁ w (some i)).2.buf j).accs = (c.buf j).accs := sameBlock_flsblk c₁ w i
    have hlnk : (flsblk c₁ w (some i)).2.lnk = c.lnk := flsblk_lnk c₁ w i
    have hmod : ((flsblk c₁ w (some i)).2.buf i).mod = false := by
      rw [flsblk_buf, Function.update_self]
    have herr := flsblk_err_ne c₁ w i
    rcases hrun : flsblk c₁ w (some i) with ⟨_ | e, c₂⟩ <;>
      rw [hrun] at hf hloss hsame hlnk hmod herr
    · -- nothing is left to write: the buffer is assigned to the new block
      have hself := fnd4_buf_self
        (c₂.setBuf i { c₂.buf i with ucb := k.1, blkno := k.2, val := false, mod := false })
        (last filbf l₁) i
      rw [setBuf_self] at hself
      have hne : ∀ j, j ≠ i → (fnd4 (c₂.setBuf i { c₂.buf i with
          ucb := k.1, blkno := k.2, val := false, mod := false }) (last filbf l₁) i).buf j =
            c₂.buf j := fun j hj => by rw [fnd4_buf_ne _ _ hj, setBuf_ne _ _ hj]
      have hc₂ : Chain c₂.lnk filbf (l₁ ++ [i]) := by
        rw [show c₂.lnk = c.lnk from hlnk]
        exact hc
      refine ⟨(hf.assign k hmod).fnd4 hc₂ hp,
        hloss.trans rfl fun j _ hd => ?_, hi, ?_, ?_, fun j hj => ?_, ?_⟩
      · have hj : j ≠ i := by
          rintro rfl
          rw [Dirty, hmod] at hd
          cases hd.2
        rw [Dirty, hne j hj]
        exact ⟨hd, rfl⟩
      · rw [hself]
        rfl
      · rw [hself]
        exact congrArg (fun n => (n + 1) % 256) (hsame i).2
      · rw [hne j hj]
        exact hsame j
      · refine Or.inr ⟨by rw [hself], by rw [hself], not_not.mp haccs, fun j hj hv => ?_⟩
        have hji : j ≠ i := by
          rintro rfl
          rw [hself] at hv
          cases hv
        rw [hne j hji] at hv ⊢
        rw [(hsame j).1.2]
        exact hmiss' j hj ((hsame j).1.1.symm.trans hv)
    · exact ⟨hf, hloss, hsame, fun he => absurd (congrArg some he) herr⟩

end Fndbuf

theorem fndbuf_spec {c : Cache D} {map : Key → D} (h : Core c map) (w : Key → Xfer D) (k : Key) :
    ∃ r c', fndbuf c w k = some (r, c') ∧ Core c' map ∧ NoLoss c c' ∧
      match r with
      | .ok i => Found c c' k i
      | .error e => Refused c c' k e := by
  obtain ⟨l, hchain, hperm⟩ := h.lru
  cases l with
  | nil => exact absurd hperm.length_eq (by simp [nbuff])
  | cons i l =>
    have hlen : l.length < nbuff := by
      have := hperm.length_eq
      simp only [List.length_cons, List.length_range] at this
      omega
    obtain ⟨hit, l₁, j, l₂, he, hrun, hhit, hmiss⟩ := fnd1_eq (k := k) hchain hlen
    have hfirst : c.lnk filbf = some i := hchain.1
    rw [he] at hchain hperm hmiss
    rw [fndbuf, hfirst]
    simp only [hrun, Option.map_some]
    cases hit with
    | true =>
      obtain ⟨hloss, hfound⟩ := found_of_hit (c := { c with hit := inc32 c.hit }) hchain hperm
        (hhit rfl)
      have hcore : Core { c with hit := inc32 c.hit } map := ⟨h.lru, h.uniq, h.cached, h.synced⟩
      exact ⟨_, _, rfl, hcore.fnd4 hchain hperm, hloss,
        hfound.lt, hfound.key, hfound.accs, hfound.others, hfound.fresh⟩
    | false =>
      obtain ⟨rfl, hall⟩ := hmiss rfl
      exact ⟨_, _, rfl, fnd3_spec h w hchain hperm hall⟩

/-! ## `GETBLK`, `NEWBLK` and `FLBUFS` -/

/-- What `GETBLK` and `NEWBLK` do when they return buffer `i`. -/
structure Got (c c' : Cache D) (k : Key) (i : ℕ) : Prop where
  lt : i < nbuff
  val : (c'.buf i).val = true
  key : (c'.buf i).key = k
  accs : (c'.buf i).accs = ((c.buf i).accs + 1) % 256
  others : ∀ j, j ≠ i → SameBlock (c.buf j) (c'.buf j) ∧ (c'.buf j).accs = (c.buf j).accs
  /-- a buffer in use is handed out for the block it holds only -/
  used : (c.buf i).accs = 0 ∨ SameBlock (c.buf i) (c'.buf i)

/-- Storing into a buffer whose block no other buffer holds leaves one valid
buffer to a block. -/
theorem Core.uniq_setBuf {c : Cache D} {map : Key → D} (h : Core c map) {i : ℕ} {b : Buf D}
    (hkey : b.key = (c.buf i).key)
    (hfresh : ∀ j < nbuff, j ≠ i → (c.buf j).val = true → (c.buf j).key ≠ (c.buf i).key) :
    ∀ j < nbuff, ∀ l < nbuff, ((c.setBuf i b).buf j).val = true →
      ((c.setBuf i b).buf l).val = true →
        ((c.setBuf i b).buf j).key = ((c.setBuf i b).buf l).key → j = l := by
  intro j hj l hl hvj hvl hk
  by_cases hji : j = i <;> by_cases hli : l = i
  · rw [hji, hli]
  · subst hji
    rw [setBuf_self, setBuf_ne _ _ hli, hkey] at hk
    rw [setBuf_ne _ _ hli] at hvl
    exact absurd hk.symm (hfresh l hl hli hvl)
  · subst hli
    rw [setBuf_self, setBuf_ne _ _ hji, hkey] at hk
    rw [setBuf_ne _ _ hji] at hvj
    exact absurd hk (hfresh j hj hji hvj)
  · rw [setBuf_ne _ _ hji] at hvj hk
    rw [setBuf_ne _ _ hli] at hvl hk
    exact h.uniq j hj l hl hvj hvl hk

/-- Filling a buffer with what is on the disk keeps the invariant. -/
theorem Core.load {c : Cache D} {map : Key → D} (h : Core c map) {i : ℕ}
    (hv : (c.buf i).val = false) (hm : (c.buf i).mod = false)
    (hfresh : ∀ j < nbuff, (c.buf j).val = true → (c.buf j).key ≠ (c.buf i).key) :
    Core (c.setBuf i { c.buf i with val := true, data := c.dev.disk (c.buf i).key }) map where
  lru := h.lru
  uniq := h.uniq_setBuf rfl fun j hj _ => hfresh j hj
  cached := fun j hj hvj hcase => by
    by_cases hji : j = i
    · subst hji
      rw [setBuf_self] at hcase ⊢
      have hbad : c.dev.bad (c.buf j).key = false := hcase.resolve_left (by simp [hm])
      exact h.synced _ hbad fun l hl hd => hfresh l hl hd.1
    · rw [setBuf_ne _ _ hji] at hvj hcase ⊢
      exact h.cached j hj hvj hcase
  synced := fun k hb hk => by
    refine h.synced k hb fun j hj hd => ?_
    have hji : j ≠ i := by
      rintro rfl
      rw [Dirty, hv] at hd
      cases hd.1
    have := hk j hj
    rw [Dirty, setBuf_ne _ _ hji] at this
    exact this hd

/-- Overwriting a buffer changes the map in its block and nowhere else. -/
theorem Core.modify {c : Cache D} {map : Key → D} (h : Core c map) {i : ℕ} (hi : i < nbuff) (d : D)
    (hfresh : ∀ j < nbuff, j ≠ i → (c.buf j).val = true → (c.buf j).key ≠ (c.buf i).key) :
    Core (c.setBuf i { c.buf i with data := d, val := true, mod := true })
      (Function.update map (c.buf i).key d) where
  lru := h.lru
  uniq := h.uniq_setBuf rfl hfresh
  cached := fun j hj hvj hcase => by
    by_cases hji : j = i
    · subst hji
      rw [setBuf_self]
      exact (Function.update_self (c.buf j).key d map).symm
    · rw [setBuf_ne _ _ hji] at hvj hcase ⊢
      rw [Function.update_of_ne (hfresh j hj hji hvj)]
      exact h.cached j hj hvj hcase
  synced := fun k hb hk => by
    have hki : (c.buf i).key ≠ k := by
      have := hk i hi
      rw [Dirty, setBuf_self] at this
      exact this ⟨rfl, rfl⟩
    rw [Function.update_of_ne hki.symm]
    refine h.synced k hb fun j hj hd => ?_
    by_cases hji : j = i
    · rw [hji]
      exact hki
    · have := hk j hj
      rw [Dirty, setBuf_ne _ _ hji] at this
      exact this hd

/-- What they do when they fail. -/
structure Failed (c c' : Cache D) (e : Err) : Prop where
  accs : ∀ j, (c'.buf j).accs = (c.buf j).accs
  used : ∀ j, (c.buf j).accs = 0 ∨ SameBlock (c.buf j) (c'.buf j)
  /-- out of buffers: the last buffer of the LRU list is in use -/
  nobuf : e = .nobuf → ∃ l i, Chain c.lnk filbf (l ++ [i]) ∧ (c.buf i).accs ≠ 0

theorem Refused.failed {c c' : Cache D} {k : Key} {e : Err} (h : Refused c c' k e) :
    Failed c c' e where
  accs := fun j => (h.same j).2
  used := fun j => Or.inr (h.same j).1
  nobuf := fun he => (h.nobuf he).2

/-- A buffer found is handed out for its own block only. -/
theorem Found.used {c c' : Cache D} {k : Key} {i : ℕ} (h : Found c c' k i) (j : ℕ) :
    (c.buf j).accs = 0 ∨ SameBlock (c.buf j) (c'.buf j) := by
  by_cases hj : j = i
  · subst hj
    rcases h.fresh with ⟨-, hs⟩ | ⟨-, -, ha, -⟩
    · exact Or.inr hs
    · exact Or.inl ha
  · exact Or.inr (h.others j hj).1

theorem getblk_spec {c : Cache D} {map : Key → D} (h : Core c map) (w r : Key → Xfer D)
    (k : Key) : ∃ res c', getblk c w r k = some (res, c') ∧ Core c' map ∧ NoLoss c c' ∧
      match res with
      | .ok i => Got c c' k i
      | .error e => Failed c c' e := by
  obtain ⟨res, c₁, hrun, hcore, hloss, hres⟩ := fndbuf_spec h w k
  cases res with
  | error e => exact ⟨_, _, by rw [getblk, hrun]; rfl, hcore, hloss, hres.failed⟩
  | ok i =>
    have hget : getblk c w r k = some (fill c₁ (r k) k i) := by rw [getblk, hrun]; rfl
    by_cases hv : (c₁.buf i).val = true
    · -- in the cache
      rw [show fill c₁ (r k) k i = (.ok i, c₁) from if_pos hv] at hget
      exact ⟨_, _, hget, hcore, hloss, hres.lt, hv, hres.key, hres.accs, hres.others, hres.used i⟩
    · -- just assigned: read it
      obtain ⟨hval, hmod, haccs, hfresh⟩ := hres.fresh.resolve_left fun hl => hv hl.1
      have hdirty : ∀ b : Buf D, ∀ j < nbuff, Dirty c₁ j →
          Dirty (c₁.setBuf i b) j ∧ ((c₁.setBuf i b).buf j).key = (c₁.buf j).key := by
        intro b j _ hd
        have hji : j ≠ i := by
          rintro rfl
          exact hv hd.1
        rw [Dirty, setBuf_ne _ _ hji]
        exact ⟨hd, rfl⟩
      have hother : ∀ b : Buf D, ∀ j, j ≠ i →
          SameBlock (c.buf j) ((c₁.setBuf i b).buf j) ∧
            ((c₁.setBuf i b).buf j).accs = (c.buf j).accs := by
        intro b j hj
        rw [setBuf_ne _ _ hj]
        exact hres.others j hj
      rcases hrk : r k with _ | f
      · -- done
        rw [hrk, show fill c₁ none k i = (.ok i, c₁.setBuf i
          { c₁.buf i with val := true, data := c₁.dev.disk k }) from if_neg hv] at hget
        have hload := hcore.load hval hmod (by rw [hres.key]; exact hfresh)
        rw [hres.key] at hload
        refine ⟨_, _, hget, hload, hloss.trans rfl (hdirty _), hres.lt, ?_, ?_, ?_, hother _,
          Or.inl haccs⟩
        · rw [setBuf_self]
        · rw [setBuf_self]
          exact hres.key
        · rw [setBuf_self]
          exact hres.accs
      · -- not done: the buffer stays invalid
        rw [hrk, show fill c₁ (some f) k i = (.error f.err, c₁.setBuf i { c₁.buf i with
          data := f.junk, accs := ((c₁.buf i).accs + 255) % 256 }) from if_neg hv] at hget
        refine ⟨_, _, hget, hcore.congr rfl hcore.lru fun j => ?_, hloss.trans rfl (hdirty _),
          fun j => ?_, fun j => ?_, fun he => absurd he f.err_ne⟩
        · by_cases hj : j = i
          · subst hj
            rw [setBuf_self]
            exact ⟨rfl, fun hv' => absurd hv' hv⟩
          · rw [setBuf_ne _ _ hj]
            exact ⟨rfl, fun _ => ⟨rfl, rfl, rfl⟩⟩
        · by_cases hj : j = i
          · subst hj
            rw [setBuf_self]
            simp only [hres.accs, haccs]
          · exact (hother _ j hj).2
        · by_cases hj : j = i
          · exact Or.inl (hj ▸ haccs)
          · exact Or.inr (hother _ j hj).1

theorem newblk_spec [Zero D] {c : Cache D} {map : Key → D} (h : Core c map) (w : Key → Xfer D)
    (k : Key) : ∃ res c', newblk c w k = some (res, c') ∧ NoLoss c c' ∧
      match res with
      | .ok i => Core c' (Function.update map k 0) ∧ Got c c' k i ∧ (c'.buf i).data = 0
      | .error e => Core c' map ∧ Failed c c' e := by
  obtain ⟨res, c₁, hrun, hcore, hloss, hres⟩ := fndbuf_spec h w k
  rw [newblk, hrun, Option.map_some]
  cases res with
  | error e => exact ⟨_, _, rfl, hloss, hcore, hres.failed⟩
  | ok i =>
    have hfresh : ∀ j < nbuff, j ≠ i → (c₁.buf j).val = true → (c₁.buf j).key ≠ (c₁.buf i).key := by
      intro j hj hji hv hk
      rcases hres.fresh with ⟨hvi, -⟩ | ⟨-, -, -, hf⟩
      · exact hji (hcore.uniq j hj i hres.lt hv hvi hk)
      · exact hf j hj hv (hk.trans hres.key)
    have hmap := hcore.modify hres.lt 0 hfresh
    rw [hres.key] at hmap
    refine ⟨_, _, rfl, hloss.trans rfl fun j hj hd => ?_, hmap,
      ⟨hres.lt, ?_, ?_, ?_, fun j hj => ?_, ?_⟩, by rw [setBuf_self]⟩
    · by_cases hji : j = i
      · subst hji
        rw [Dirty, setBuf_self]
        exact ⟨⟨rfl, rfl⟩, rfl⟩
      · rw [Dirty, setBuf_ne _ _ hji]
        exact ⟨hd, rfl⟩
    · rw [setBuf_self]
    · rw [setBuf_self]
      exact hres.key
    · rw [setBuf_self]
      exact hres.accs
    · rw [setBuf_ne _ _ hj]
      exact hres.others j hj
    · rw [setBuf_self]
      rcases hres.fresh with ⟨hv, hs⟩ | ⟨-, -, ha, -⟩
      · exact Or.inr ⟨hv.symm.trans hs.1, hs.2⟩
      · exact Or.inl ha

/-- `c'` is `c` with any number of buffers flushed. -/
structure Flushed (c c' : Cache D) : Prop where
  lnk : c'.lnk = c.lnk
  same : ∀ j, SameBlock (c.buf j) (c'.buf j) ∧ (c'.buf j).accs = (c.buf j).accs
  data : ∀ j, (c'.buf j).data = (c.buf j).data
  noLoss : NoLoss c c'

theorem Flushed.refl (c : Cache D) : Flushed c c :=
  ⟨rfl, fun _ => ⟨⟨rfl, rfl⟩, rfl⟩, fun _ => rfl, NoLoss.refl c⟩

/-- One more flush. A block has one buffer, so no flush undoes what another wrote. -/
theorem Flushed.flsblk {c c' : Cache D} {map : Key → D} (h : Flushed c c') (hcore : Core c' map)
    (w : Key → Xfer D) {i : ℕ} (hi : i < nbuff) : Flushed c (flsblk c' w (some i)).2 := by
  have hsame := sameBlock_flsblk c' w i
  refine ⟨(flsblk_lnk c' w i).trans h.lnk, fun j => ?_, fun j => ?_, fun j hj hd => ?_⟩
  · exact ⟨⟨(hsame j).1.1.trans (h.same j).1.1, (hsame j).1.2.trans (h.same j).1.2⟩,
      (hsame j).2.trans (h.same j).2⟩
  · rw [flsblk_buf, ← h.data j]
    by_cases hji : j = i
    · subst hji
      rw [Function.update_self]
    · rw [Function.update_of_ne hji]
  · have hval : (c'.buf j).val = true := (h.same j).1.1.trans hd.1
    have hkey : (c'.buf j).key = (c.buf j).key := (h.same j).1.2
    by_cases hji : j = i ∧ Dirty c' i
    · obtain ⟨rfl, hd'⟩ := hji
      rw [flsblk_dev_of_dirty w hd', hkey, h.data j]
      exact Or.inr (wrblk_self ..)
    · rcases h.noLoss j hj hd with ⟨hd', hk⟩ | hdone
      · left
        have hne : j ≠ i := fun he => hji ⟨he, he ▸ hd'⟩
        rw [Dirty, flsblk_buf, Function.update_of_ne hne]
        exact ⟨hd', hk⟩
      · right
        by_cases hdi : Dirty c' i
        · rw [flsblk_dev_of_dirty w hdi]
          have hne : (c.buf j).key ≠ (c'.buf i).key := fun he =>
            hji ⟨hcore.uniq j hj i hi hval hdi.1 (hkey.trans he), hdi⟩
          rw [(wrblk_of_ne _ _ _ hne).1, (wrblk_of_ne _ _ _ hne).2]
          exact hdone
        · rw [flsblk_dev_of_clean w hdi]
          exact hdone

theorem flb1_spec {c c' : Cache D} {map : Key → D} (h : Flushed c c') (hcore : Core c' map)
    (w : Key → Xfer D) {p : Cell Unit ℕ} {n : ℕ} {l : List ℕ} (hc : Chain c.lnk p l)
    (hl : ∀ i ∈ l, i < nbuff) (hn : l.length ≤ n) :
    ∃ c'', flb1 w n c' (c'.lnk p) = some c'' ∧ Core c'' map ∧ Flushed c c'' := by
  induction l generalizing c' p n with
  | nil =>
    rw [h.lnk, show c.lnk p = none from hc]
    cases n <;> exact ⟨c', rfl, hcore, h⟩
  | cons i l ih =>
    obtain ⟨hi, hl'⟩ := List.forall_mem_cons.mp hl
    obtain ⟨n, rfl⟩ : ∃ n', n = n' + 1 := ⟨n - 1, by simp only [List.length_cons] at hn; omega⟩
    rw [h.lnk, show c.lnk p = some i from hc.1]
    exact ih (h.flsblk hcore w hi) (hcore.flsblk w hi) hc.2 hl' (by simpa using hn)

theorem flbufs_spec {c : Cache D} {map : Key → D} (h : Core c map) (w : Key → Xfer D) :
    ∃ c', flbufs c w = some c' ∧ Core c' map ∧ Flushed c c' := by
  obtain ⟨l, hc, hp⟩ := h.lru
  have hlen : l.length ≤ nbuff := Nat.le_of_eq (hp.length_eq.trans List.length_range)
  exact flb1_spec (Flushed.refl c) h w hc (fun i hi => List.mem_range.mp (hp.mem_iff.mp hi)) hlen

theorem Core.rlsblk {c : Cache D} {map : Key → D} (h : Core c map) (i : ℕ) :
    Core (rlsblk c (some i)) map := by
  refine h.congr rfl h.lru fun j => ?_
  by_cases hj : j = i
  · subst hj
    rw [Buffer.rlsblk, setBuf_self]
    exact ⟨rfl, fun _ => ⟨rfl, rfl, rfl⟩⟩
  · rw [Buffer.rlsblk, setBuf_ne _ _ hj]
    exact ⟨rfl, fun _ => ⟨rfl, rfl, rfl⟩⟩

/-! ## The empty cache -/

theorem inib1_chain {b de : ℕ} {lk : Links Unit ℕ} (h : ∀ i, de ≤ i → lk (.node i) = none) :
    Chain (inib1 b de lk) (.node de) (List.range' (de + 1) b) ∧
      ∀ p, (∀ i, de ≤ i → p ≠ .node i) → inib1 b de lk p = lk p := by
  induction b generalizing de lk with
  | zero => exact ⟨h de (Nat.le_refl _), fun _ _ => rfl⟩
  | succ b ih =>
    obtain ⟨hc, hp⟩ := @ih (de + 1) (Function.update lk (.node de) (some (de + 1))) fun i hi => by
      rw [Function.update_of_ne (by simp; omega)]
      exact h i (by omega)
    refine ⟨⟨?_, hc⟩, fun p hp' => ?_⟩
    · rw [inib1, hp _ fun i hi => by simp; omega, Function.update_self]
    · rw [inib1, hp p fun i hi => hp' i (by omega), Function.update_of_ne (hp' de (Nat.le_refl _))]

/-- After `INIBUF` the cache stands for what is on the disk. -/
theorem core_inibuf [Zero D] (disk : Key → D) :
    Core (inibuf ⟨disk, fun _ => false⟩) disk where
  lru := by
    obtain ⟨hc, hp⟩ := @inib1_chain (nbuff - 1) 0 (Function.update (fun _ => none) filbf (some 0))
      fun i _ => Function.update_of_ne (show Cell.node i ≠ filbf from nofun) ..
    refine ⟨0 :: List.range' 1 (nbuff - 1), ⟨?_, hc⟩, .of_eq rfl⟩
    exact (hp filbf fun i _ => nofun).trans (Function.update_self ..)
  uniq := fun i _ j _ hv => by cases hv
  cached := fun i _ hv => by cases hv
  synced := fun _ _ _ => rfl

end RSX280.Buffer
