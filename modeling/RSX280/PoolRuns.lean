import RSX280.Pool

/-!
# Runs of the pool allocator

The pool as VMR hands it to the kernel is one free block. From there any
sequence of `$ALLOC`, `$FREE` of live blocks and stores into live blocks is a
run. `Holds` relates the bytes of a reachable state to the free list and to the
ledger of live blocks; it is kept by every step (`Holds.alloc`, `Holds.free`,
`Holds.store`) and everything the allocator promises is read off from it.
-/

namespace RSX280.Pool

open FreeList

/-! ## The pool area -/

/-- A pool as VMR lays it out: the kernel variable `$POOL` and the area it points
to. VMR rounds the first address past the kernel up to 4 bytes and takes
everything from there to the fixed top `0F000h`. -/
structure Area where
  /-- address of `$POOL` -/
  head : ℕ
  /-- first address of the pool -/
  base : ℕ
  /-- its size in bytes, `$POLSZ` -/
  size : ℕ
  head_lt : head + 1 < 65536
  head_out : head + 1 < base ∨ base + size ≤ head
  base_pos : 0 < base
  size_pos : 0 < size
  base_dvd : 4 ∣ base
  size_dvd : 4 ∣ size
  top_lt : base + size < 65536

/-- Top of the system bank in `INISYS`. -/
def systop : ℕ := 0xF000

/-- The area `INISYS` computes from the end address of the kernel image. -/
def inisysArea (head sysend : ℕ) (h₁ : head + 1 < sysend) (h₂ : sysend + 3 < systop) : Area where
  head := head
  base := round4 sysend
  size := systop - round4 sysend
  head_lt := by simp only [systop] at h₂; omega
  head_out := by simp only [systop, round4] at *; omega
  base_pos := by simp only [systop, round4] at *; omega
  size_pos := by simp only [systop, round4] at *; omega
  base_dvd := by simp only [round4]; omega
  size_dvd := by simp only [systop, round4] at *; omega
  top_lt := by simp only [systop, round4] at *; omega

/-- `INISYS` and `KMINIT`: `$POOL` points to one block that is the whole area. -/
def kminit (A : Area) (m : Mem) : Mem :=
  let m := m.wr16 A.head A.base
  let m := m.wr16 A.base 0
  m.wr16 (A.base + 2) A.size

/-! ## The steps -/

/-- A live allocation: its address and the size it was requested with. -/
abbrev Alloc : Type := ℕ × ℕ

/-- The bytes an allocation owns. -/
def Alloc.block (x : Alloc) : Block := ⟨x.1, round4 x.2⟩

/-- The memory, and the ledger of the blocks handed out and not given back. -/
structure State where
  mem : Mem
  live : List Alloc

/-- The pool as VMR leaves it; nothing is allocated. -/
def State.initial (A : Area) (m : Mem) : State := ⟨kminit A m, []⟩

/-- One step of the kernel on the pool. -/
inductive Step (A : Area) : State → State → Prop
  /-- `$ALLOC` returns a block -/
  | alloc {s : State} {n a : ℕ} {m : Mem} (h : alloc A.head s.mem n = some (.ok (a, m))) :
      Step A s ⟨m, (a, n) :: s.live⟩
  /-- `$ALLOC` fails -/
  | refuse {s : State} {n : ℕ} {e : Err} (h : alloc A.head s.mem n = some (.error e)) : Step A s s
  /-- `$FREE` of a live block with the size it was requested with -/
  | free {s : State} {x : Alloc} {m : Mem} (hx : x ∈ s.live)
      (h : free A.head s.mem x.1 x.2 = some m) : Step A s ⟨m, s.live.erase x⟩
  /-- the owner of a live block stores into it -/
  | store {s : State} {x : Alloc} {m : Mem} (hx : x ∈ s.live)
      (h : ∀ a, a < x.block.addr ∨ x.block.top ≤ a → m a = s.mem a) : Step A s ⟨m, s.live⟩

/-- `$FREE` of the blocks of a list, in that order. -/
def freeAll (pool : ℕ) : Mem → List Alloc → Option Mem
  | m, [] => some m
  | m, x :: xs => (free pool m x.1 x.2).bind fun m' => freeAll pool m' xs

/-! ## The invariant -/

/-- A block lies in the pool and can carry a header. -/
structure InPool (A : Area) (b : Block) : Prop where
  fits : Fits b
  base_le : A.base ≤ b.addr
  top_le : b.top ≤ A.base + A.size

/-- The memory holds the free list `l`, and `l` with the live blocks tiles the pool. -/
structure Holds (A : Area) (m : Mem) (live : List Alloc) (l : List Block) : Prop where
  rep : Rep m A.head l
  separated : Separated l
  free_in : ∀ b ∈ l, InPool A b
  live_in : ∀ x ∈ live, InPool A x.block
  apart : ∀ x ∈ live, Apart x.block l
  disjoint : live.Pairwise fun x y => x.block.Disjoint y.block
  total_eq : total l + total (live.map Alloc.block) = A.size

theorem InPool.pos {A : Area} {b : Block} (h : InPool A b) : 0 < b.addr :=
  Nat.lt_of_lt_of_le A.base_pos h.base_le

/-- `$POOL` lies outside every block of the pool. -/
theorem clear_head {A : Area} {l : List Block} (h : ∀ b ∈ l, InPool A b) : Clear A.head l := by
  refine ⟨A.head_lt, fun b hb => ?_⟩
  have h₁ := (h b hb).base_le
  have h₂ := (h b hb).top_le
  have h₃ := A.head_out
  simp only [Block.top] at h₂
  omega

/-- The front and the rest of a block in the pool, cut at a multiple of four. -/
theorem InPool.cut {A : Area} {b : Block} {n : ℕ} (h : InPool A b) (hn : 4 ∣ n)
    (hlt : n < b.size) : InPool A ⟨b.addr + n, b.size - n⟩ := by
  obtain ⟨⟨-, h₁, h₂, h₃⟩, h₄, h₅⟩ := h
  simp only [Block.top] at h₅
  refine ⟨⟨?_, Nat.dvd_sub h₁ hn, Nat.dvd_add h₂ hn, ?_⟩, ?_, ?_⟩ <;>
    simp only [Block.top] <;> omega

theorem InPool.front {A : Area} {b : Block} {n : ℕ} (h : InPool A b) (hn : 4 ∣ n) (hpos : 0 < n)
    (hle : n ≤ b.size) : InPool A ⟨b.addr, n⟩ := by
  obtain ⟨⟨-, h₁, h₂, h₃⟩, h₄, h₅⟩ := h
  simp only [Block.top] at h₅
  refine ⟨⟨hpos, hn, h₂, ?_⟩, h₄, ?_⟩ <;> simp only [Block.top] <;> omega

theorem InPool.merge {A : Area} {b c : Block} (hb : InPool A b) (hc : InPool A c)
    (ht : b.top = c.addr) : InPool A ⟨b.addr, b.size + c.size⟩ := by
  obtain ⟨⟨h₁, h₂, h₃, h₄⟩, h₅, h₆⟩ := hb
  obtain ⟨⟨k₁, k₂, k₃, k₄⟩, k₅, k₆⟩ := hc
  simp only [Block.top] at ht h₆ k₆
  refine ⟨⟨?_, Nat.dvd_add h₂ k₂, h₃, ?_⟩, h₅, ?_⟩ <;> simp only [Block.top] <;> omega

theorem four_dvd_round4 (n : ℕ) : 4 ∣ round4 n := Nat.dvd_mul_left ..

section Holds

variable {A : Area} {m : Mem} {live : List Alloc} {l : List Block}

/-- There are fewer free blocks than the walks have fuel for. -/
theorem Holds.length_lt (h : Holds A m live l) : l.length < fuel := by
  have hlen : total l + (l.length - 1) ≤ A.base + A.size - A.base :=
    total_add_length_le h.separated (fun b hb => (h.free_in b hb).base_le)
      (fun b hb => (h.free_in b hb).top_le) (Nat.le_add_right ..)
  have htop := A.top_lt
  have hpos := A.base_pos
  simp only [fuel]
  omega

theorem Holds.fits (h : Holds A m live l) : ∀ b ∈ l, Fits b := fun b hb => (h.free_in b hb).fits

/-- The order of the ledger does not matter. -/
theorem Holds.perm {live' : List Alloc} (h : Holds A m live l) (hp : live.Perm live') :
    Holds A m live' l where
  rep := h.rep
  separated := h.separated
  free_in := h.free_in
  live_in := fun x hx => h.live_in x (hp.mem_iff.mpr hx)
  apart := fun x hx => h.apart x (hp.mem_iff.mpr hx)
  disjoint := (hp.pairwise_iff fun h => Block.Disjoint.symm h).mp h.disjoint
  total_eq := by
    rw [← h.total_eq]
    have := ((hp.map Alloc.block).map Block.size).sum_eq
    simp only [total, this]

/-- The area as VMR sets it up holds one free block. -/
theorem holds_kminit (A : Area) (m : Mem) : Holds A (kminit A m) [] [⟨A.base, A.size⟩] := by
  have h₁ := A.head_lt
  have h₂ := A.head_out
  have h₃ := A.top_lt
  have h₄ := Nat.le_of_dvd A.size_pos A.size_dvd
  have h₅ := A.base_pos
  have hin : ∀ b ∈ [Block.mk A.base A.size], InPool A b :=
    List.forall_mem_singleton.mpr
      ⟨⟨A.size_pos, A.size_dvd, A.base_dvd, A.top_lt⟩, Nat.le_refl _, Nat.le_refl _⟩
  refine ⟨rep_cons.mpr ⟨?_, Nat.pos_iff_ne_zero.mp h₅, ?_, rep_nil.mpr ?_⟩,
    List.pairwise_singleton _ _, hin, by simp, by simp, List.Pairwise.nil, by simp⟩
  · rw [kminit, Mem.rd16_wr16_ne _ _ (by omega) (by omega) (by omega),
      Mem.rd16_wr16_ne _ _ (by omega) (by omega) (by omega), Mem.rd16_wr16_self _ (by omega)]
  · exact Mem.rd16_wr16_self _ (Nat.lt_of_le_of_lt (Nat.le_add_left ..) h₃)
  · dsimp only
    rw [kminit, Mem.rd16_wr16_ne _ _ (by omega) (by omega) (by omega),
      Mem.rd16_wr16_self _ (by omega)]

theorem Holds.alloc_ne_none (h : Holds A m live l) (n : ℕ) : alloc A.head m n ≠ none := by
  rw [alloc]
  split
  · simp
  · rcases hc : carve (round4 n) l with _ | ⟨a, l'⟩
    · simp [ka1_eq_error h.rep h.fits h.length_lt hc]
    · obtain ⟨m', hrun, -⟩ := ka1_eq_ok h.rep h.fits h.separated (clear_head h.free_in)
        (four_dvd_round4 n) h.length_lt hc
      simp [hrun]

/-- `$ALLOC` fails exactly when the size rounds to nothing or no free block has room. -/
theorem Holds.alloc_error_iff (h : Holds A m live l) (n : ℕ) :
    (∃ e, alloc A.head m n = some (.error e)) ↔ round4 n = 0 ∨ ∀ b ∈ l, b.size < round4 n := by
  by_cases hn : round4 n = 0
  · simp [alloc, hn]
  · rw [alloc, if_neg hn, or_iff_right hn, ← carve_eq_none]
    refine ⟨fun ⟨e, he⟩ => ?_, fun hc => ⟨_, ka1_eq_error h.rep h.fits h.length_lt hc⟩⟩
    rcases hc : carve (round4 n) l with _ | ⟨a, l'⟩
    · rfl
    · obtain ⟨m', hrun, -⟩ := ka1_eq_ok h.rep h.fits h.separated (clear_head h.free_in)
        (four_dvd_round4 n) h.length_lt hc
      rw [hrun] at he
      cases he

/-- `$ALLOC` moves a block from the free list to the ledger. -/
theorem Holds.alloc (h : Holds A m live l) {n a : ℕ} {m' : Mem}
    (hrun : alloc A.head m n = some (.ok (a, m'))) :
    ∃ l', Holds A m' ((a, n) :: live) l' := by
  have hn : round4 n ≠ 0 := fun hn => by simp [Pool.alloc, hn] at hrun
  rw [Pool.alloc, if_neg hn] at hrun
  have hfour := four_dvd_round4 n
  rcases hc : carve (round4 n) l with _ | ⟨b, l'⟩
  · rw [ka1_eq_error h.rep h.fits h.length_lt hc] at hrun
    cases hrun
  · obtain ⟨m'', hrun', hrep, -⟩ := ka1_eq_ok h.rep h.fits h.separated (clear_head h.free_in)
      hfour h.length_lt hc
    rw [hrun'] at hrun
    obtain ⟨rfl, rfl⟩ := Prod.mk.inj (Except.ok.inj (Option.some.inj hrun))
    obtain ⟨c, hcl, rfl, hle⟩ := exists_mem_of_carve hc
    have hin : InPool A ⟨c.addr, round4 n⟩ :=
      (h.free_in c hcl).front hfour (Nat.pos_of_ne_zero hn) hle
    -- a live block is apart from the block carved out of `c` as it is from `c`
    have hdisj : ∀ x ∈ live, (Block.mk c.addr (round4 n)).Disjoint x.block := by
      intro x hx
      have := h.apart x hx c hcl
      simp only [Block.Disjoint, Block.top] at this ⊢
      omega
    refine ⟨l', hrep, separated_carve h.separated hc, ?_, ?_, ?_, ?_, ?_⟩
    · exact forall_mem_carve (fun b hb hlt => hb.cut hfour hlt) h.free_in hc
    · exact List.forall_mem_cons.mpr ⟨hin, h.live_in⟩
    · refine List.forall_mem_cons.mpr ⟨apart_carve h.separated hc, fun x hx => ?_⟩
      refine forall_mem_carve (fun b hb hlt => ?_) (h.apart x hx) hc
      simp only [Block.Disjoint, Block.top] at hb ⊢
      omega
    · exact List.pairwise_cons.mpr ⟨hdisj, h.disjoint⟩
    · have h₁ := total_carve hc
      have h₂ := h.total_eq
      simp only [List.map_cons, total_cons, Alloc.block] at h₁ h₂ ⊢
      omega

/-- `$FREE` of a live block returns, and moves it back to the free list. -/
theorem Holds.free {x : Alloc} (h : Holds A m (x :: live) l) :
    ∃ m', free A.head m x.1 x.2 = some m' ∧ Holds A m' live (FreeList.insert x.block l) := by
  obtain ⟨hxin, hin⟩ := List.forall_mem_cons.mp h.live_in
  obtain ⟨hxap, hap⟩ := List.forall_mem_cons.mp h.apart
  obtain ⟨hxdisj, hdisj⟩ := List.pairwise_cons.mp h.disjoint
  obtain ⟨m', hrun, hrep, -⟩ := free_rep h.rep h.fits h.separated hxin.fits hxin.pos hxap
    (clear_head (List.forall_mem_cons.mpr ⟨hxin, h.free_in⟩)) h.length_lt
  refine ⟨m', hrun, hrep, ?_, ?_, hin, ?_, hdisj, ?_⟩
  · exact separated_insert hxin.fits.pos h.separated (fun c hc => (h.fits c hc).pos) hxap
  · exact forall_mem_insert (fun c d hc hd ht => hc.merge hd ht) hxin h.free_in
  · exact fun y hy => apart_insert (hin y hy).fits.pos (hxdisj y hy).symm (hap y hy)
  · have := h.total_eq
    simp only [total_insert, List.map_cons, total_cons] at this ⊢
    omega

/-- Stores into live blocks do not reach the free list. -/
theorem Holds.store (h : Holds A m live l) {x : Alloc} {m' : Mem} (hx : x ∈ live)
    (hsame : ∀ a, a < x.block.addr ∨ x.block.top ≤ a → m' a = m a) : Holds A m' live l := by
  refine { h with rep := h.rep.congr h.fits ?_ fun b hb a h₁ h₂ => hsame a ?_ }
  · obtain ⟨h₁, h₂⟩ := clear_head (l := [x.block]) (List.forall_mem_singleton.mpr (h.live_in x hx))
    have h₃ := h₂ x.block List.mem_cons_self
    refine Mem.rd16_congr (hsame _ (by simp only [Block.top]; omega)) ?_
    rw [Nat.mod_eq_of_lt h₁]
    exact hsame _ (by simp only [Block.top]; omega)
  · have := h.apart x hx b hb
    simp only [Block.Disjoint, Block.top] at this ⊢
    omega

/-- Giving everything back, in whatever order, leaves one block. -/
theorem Holds.freeAll (h : Holds A m live l) {xs : List Alloc} (hp : xs.Perm live) :
    ∃ m', freeAll A.head m xs = some m' ∧ Holds A m' [] [⟨A.base, A.size⟩] := by
  replace h := h.perm hp.symm
  clear hp
  induction xs generalizing m l with
  | nil =>
    have hl : l = [⟨A.base, A.size⟩] :=
      eq_singleton_of_total h.separated (fun b hb => (h.free_in b hb).base_le)
        (fun b hb => (h.free_in b hb).top_le) A.size_pos (by simpa using h.total_eq)
    exact ⟨m, rfl, hl ▸ h⟩
  | cons x xs ih =>
    obtain ⟨m', hrun, h'⟩ := h.free
    obtain ⟨m'', hrun', h''⟩ := ih h'
    exact ⟨m'', by rw [Pool.freeAll, hrun, Option.bind_some, hrun'], h''⟩

end Holds

/-- Every step keeps the invariant. -/
theorem Holds.step {A : Area} {s t : State} (h : ∃ l, Holds A s.mem s.live l)
    (hst : Step A s t) : ∃ l, Holds A t.mem t.live l := by
  obtain ⟨l, h⟩ := h
  cases hst with
  | alloc hrun => exact h.alloc hrun
  | refuse _ => exact ⟨l, h⟩
  | free hx hrun =>
    obtain ⟨m', hrun', h'⟩ := (h.perm (List.perm_cons_erase hx)).free
    rw [hrun'] at hrun
    cases hrun
    exact ⟨_, h'⟩
  | store hx hsame => exact ⟨l, h.store hx hsame⟩

/-! ## What the allocator promises -/

/-- The promises of the allocator about a pool with the free list `l`. -/
structure Sound (A : Area) (m : Mem) (live : List Alloc) (l : List Block) : Prop where
  /-- the list in memory is `l` -/
  listed : Rep m A.head l
  /-- strictly ascending addresses -/
  ordered : l.Pairwise fun b c => b.addr < c.addr
  /-- multiples of four bytes inside the pool -/
  granular : ∀ b ∈ l, 0 < b.size ∧ 4 ∣ b.addr ∧ 4 ∣ b.size ∧ A.base ≤ b.addr ∧
    b.top ≤ A.base + A.size
  /-- no two free blocks overlap -/
  free_disjoint : l.Pairwise Block.Disjoint
  /-- no two free blocks touch -/
  coalesced : ∀ b ∈ l, ∀ c ∈ l, b.top ≠ c.addr
  /-- no two live blocks overlap -/
  live_disjoint : live.Pairwise fun x y => x.block.Disjoint y.block
  /-- no live block overlaps a free one -/
  live_free_disjoint : ∀ x ∈ live, ∀ b ∈ l, x.block.Disjoint b
  /-- live blocks lie in the pool -/
  live_inside : ∀ x ∈ live, A.base ≤ x.1 ∧ x.1 + round4 x.2 ≤ A.base + A.size
  /-- `$AVAIL` and the rounded live sizes make up the pool -/
  conserved : ∃ n, avail A.head m = some n ∧ n + (live.map fun x => round4 x.2).sum = A.size
  /-- `$ALLOC` always returns -/
  alloc_returns : ∀ n, alloc A.head m n ≠ none
  /-- it fails exactly for a size that rounds to nothing or has no room, and then
  has stored nothing -/
  alloc_fails_iff : ∀ n, (∃ e, alloc A.head m n = some (.error e)) ↔
    round4 n = 0 ∨ ∀ b ∈ l, ¬ round4 n ≤ b.size
  /-- giving all live blocks back in any order restores the single block -/
  restores : ∀ xs : List Alloc, xs.Perm live →
    ∃ m', freeAll A.head m xs = some m' ∧ Rep m' A.head [⟨A.base, A.size⟩]

/-- The invariant has all the promises. -/
theorem Holds.sound {A : Area} {m : Mem} {live : List Alloc} {l : List Block}
    (h : Holds A m live l) : Sound A m live l where
  listed := h.rep
  ordered := h.separated.imp fun hbc => Nat.lt_of_le_of_lt (Nat.le_add_right ..) hbc
  granular := fun b hb =>
    ⟨(h.fits b hb).pos, (h.fits b hb).addr_dvd, (h.fits b hb).size_dvd, (h.free_in b hb).base_le,
      (h.free_in b hb).top_le⟩
  free_disjoint := h.separated.imp fun hbc => Or.inl (Nat.le_of_lt hbc)
  coalesced := h.separated.top_ne fun b hb => (h.fits b hb).pos
  live_disjoint := h.disjoint
  live_free_disjoint := h.apart
  live_inside := fun x hx => ⟨(h.live_in x hx).base_le, (h.live_in x hx).top_le⟩
  conserved := by
    have htot := h.total_eq
    have htop := A.top_lt
    refine ⟨total l, avail_eq h.rep h.fits h.length_lt (by omega), ?_⟩
    rw [← htot, total, total, List.map_map]
    rfl
  alloc_returns := h.alloc_ne_none
  alloc_fails_iff := fun n => by
    rw [h.alloc_error_iff]
    simp only [Nat.not_le]
  restores := fun xs hp => by
    obtain ⟨m', hrun, h'⟩ := h.freeAll hp
    exact ⟨m', hrun, h'.rep⟩

/-- In every state a run from VMR's pool reaches, the allocator keeps its promises. -/
theorem sound_of_reach (A : Area) (m : Mem) {s : State}
    (h : Reach (Step A) (State.initial A m) s) : ∃ l, Sound A s.mem s.live l := by
  obtain ⟨l, hl⟩ := h.invariant (P := fun s => ∃ l, Holds A s.mem s.live l)
    ⟨_, holds_kminit A m⟩ fun _ _ => Holds.step
  exact ⟨l, hl.sound⟩

/-- The kernel's own pool, after one request for ten bytes. -/
theorem sound_of_reach_kernel :
    ∃ s : State, s.live = [(0x549C, 10)] ∧
      ∃ l, Sound (inisysArea 0x53D8 0x5499 (by decide) (by decide)) s.mem s.live l :=
  ⟨_, rfl, sound_of_reach _ (fun _ => 0) (.single (@Step.alloc _ _ 10 0x549C _ rfl))⟩

end RSX280.Pool
