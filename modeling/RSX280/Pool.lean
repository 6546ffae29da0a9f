import RSX280.Memory
import RSX280.FreeList
import RSX280.Errors

/-!
# The kernel pool (`kalloc.mac`)

The routines `$ALLOC`, `$FREE` and `$AVAIL` over byte memory. Free blocks form a
single-linked list threaded through the pool: a free block at `a` holds the
address of the next one in the word at `a` and its own size in the word at
`a + 2`; the variable `$POOL` holds the first address and `0` ends the list. A
*link cell* is an address holding such a link, `$POOL` itself or a block.

The loops of the source have no counter. Here they take fuel, and `none` is a
walk that has not come to the end of the list.
-/

namespace RSX280.Pool

open FreeList

/-! ## The routines -/

/-- Round a size up to the 4-byte granularity: add 3 and drop the low two bits,
in 16 bits. -/
def round4 (n : ℕ) : ℕ := (n + 3) % 65536 / 4 * 4

/-- More list elements than a 16-bit address space can hold. -/
abbrev fuel : ℕ := 65536

/-- The search loop `ka1` of `$ALLOC` with its two exits `ka2` and `ka3`: `ix` is
the link cell under inspection, `bc` the rounded size. -/
def ka1 (m : Mem) (bc : ℕ) : ℕ → ℕ → Option (Except Err (ℕ × Mem))
  | 0, _ => none
  | n + 1, ix =>
    let hl := m.rd16 ix
    if hl = 0 then some (.error .nomem)
    else
      let next := m.rd16 hl
      let de := m.rd16 ((hl + 2) % 65536)
      if de < bc then ka1 m bc n hl
      else if de = bc then
        -- ka3: exact fit, unlink the block
        some (.ok (hl, m.wr16 ix next))
      else
        -- ka2: the rest of the block takes its place in the list
        let rest := (hl + bc) % 65536
        let m := m.wr16 ix rest
        let m := m.wr16 rest next
        some (.ok (hl, m.wr16 ((rest + 2) % 65536) (de - bc)))

/-- `$ALLOC`: first fit. Returns the address of the block and the new memory. -/
def alloc (pool : ℕ) (m : Mem) (n : ℕ) : Option (Except Err (ℕ × Mem)) :=
  if round4 n = 0 then some (.error .badop) else ka1 m (round4 n) fuel pool

/-- The search loop `kf1` of `$FREE`: stop at the first link cell whose block lies
behind `de`. Returns the cell, the block it points to and whether the cell is a
block (register H). -/
def kf1 (m : Mem) (de : ℕ) : ℕ → ℕ → Bool → Option (ℕ × ℕ × Bool)
  | 0, _, _ => none
  | n + 1, ix, h =>
    let bc := m.rd16 ix
    if bc = 0 then some (ix, bc, h)
    else if de < bc then some (ix, bc, h)
    else kf1 m de n bc true

/-- `kf3`: merge the block `this` of size `de` with `bc` if they touch. -/
def kf3 (m : Mem) (this de bc : ℕ) : Mem :=
  if (this + de) % 65536 = bc then
    let m := m.wr16 this (m.rd16 bc)
    m.wr16 ((this + 2) % 65536) ((m.rd16 ((bc + 2) % 65536) + de) % 65536)
  else m

/-- `kf2`: link the block `hl` of size `de` between `ix` and `bc`, then merge it
with the previous block, if there is one, and with the next. -/
def kf2 (m : Mem) (ix bc : ℕ) (h : Bool) (hl de : ℕ) : Mem :=
  let m := m.wr16 ix hl
  let m := m.wr16 hl bc
  let m := m.wr16 ((hl + 2) % 65536) de
  let psize := m.rd16 ((ix + 2) % 65536)
  if h = true ∧ (ix + psize) % 65536 = hl then
    let size := (psize + de) % 65536
    let m := m.wr16 ix bc
    kf3 (m.wr16 ((ix + 2) % 65536) size) ix size bc
  else kf3 m hl de bc

/-- `$FREE`: put the block of `n` bytes at `hl` back. -/
def free (pool : ℕ) (m : Mem) (hl n : ℕ) : Option Mem :=
  if round4 n = 0 then some m
  else (kf1 m hl fuel pool false).map fun r => kf2 m r.1 r.2.1 r.2.2 hl (round4 n)

/-- The loop `ks1` of `$AVAIL`. -/
def ks1 (m : Mem) : ℕ → ℕ → ℕ → Option ℕ
  | 0, _, _ => none
  | n + 1, hl, bc =>
    if hl = 0 then some bc
    else ks1 m n (m.rd16 hl) ((m.rd16 ((hl + 2) % 65536) + bc) % 65536)

/-- `$AVAIL`: the amount of free pool. -/
def avail (pool : ℕ) (m : Mem) : Option ℕ := ks1 m fuel (m.rd16 pool) 0

/-! ## The list in memory -/

/-- From link cell `p` the list runs through the blocks of `l` to link cell `q`. -/
def Seg (m : Mem) : ℕ → List Block → ℕ → Prop
  | p, [], q => p = q
  | p, b :: l, q =>
    m.rd16 p = b.addr ∧ b.addr ≠ 0 ∧ m.rd16 (b.addr + 2) = b.size ∧ Seg m b.addr l q

/-- The list headed by link cell `p` is `l`, and it is null-terminated. -/
def Rep (m : Mem) (p : ℕ) (l : List Block) : Prop := ∃ q, Seg m p l q ∧ m.rd16 q = 0

/-- The link cell a list from `p` ends in. -/
def lastCell (p : ℕ) : List Block → ℕ
  | [] => p
  | b :: l => lastCell b.addr l

theorem seg_append {m : Mem} {p q : ℕ} {l₁ l₂ : List Block} :
    Seg m p (l₁ ++ l₂) q ↔ ∃ r, Seg m p l₁ r ∧ Seg m r l₂ q := by
  induction l₁ generalizing p with
  | nil => simp [Seg]
  | cons b l₁ ih =>
    simp only [List.cons_append, Seg, ih]
    refine ⟨?_, ?_⟩
    · rintro ⟨h₁, h₂, h₃, r, h₄, h₅⟩
      exact ⟨r, ⟨h₁, h₂, h₃, h₄⟩, h₅⟩
    · rintro ⟨r, ⟨h₁, h₂, h₃, h₄⟩, h₅⟩
      exact ⟨h₁, h₂, h₃, r, h₄, h₅⟩

theorem rep_nil {m : Mem} {p : ℕ} : Rep m p [] ↔ m.rd16 p = 0 := by
  simp [Rep, Seg]

theorem rep_cons {m : Mem} {p : ℕ} {b : Block} {l : List Block} :
    Rep m p (b :: l) ↔
      m.rd16 p = b.addr ∧ b.addr ≠ 0 ∧ m.rd16 (b.addr + 2) = b.size ∧ Rep m b.addr l := by
  refine ⟨?_, ?_⟩
  · rintro ⟨q, ⟨h₁, h₂, h₃, h₄⟩, h₅⟩
    exact ⟨h₁, h₂, h₃, q, h₄, h₅⟩
  · rintro ⟨h₁, h₂, h₃, q, h₄, h₅⟩
    exact ⟨q, ⟨h₁, h₂, h₃, h₄⟩, h₅⟩

theorem rep_append {m : Mem} {p : ℕ} {l₁ l₂ : List Block} :
    Rep m p (l₁ ++ l₂) ↔ ∃ r, Seg m p l₁ r ∧ Rep m r l₂ := by
  refine ⟨?_, ?_⟩
  · rintro ⟨q, h, h₀⟩
    obtain ⟨r, h₁, h₂⟩ := seg_append.mp h
    exact ⟨r, h₁, q, h₂, h₀⟩
  · rintro ⟨r, h₁, q, h₂, h₀⟩
    exact ⟨q, seg_append.mpr ⟨r, h₁, h₂⟩, h₀⟩

/-! ## Framing

A free block the routines may touch is a nonempty run of 4-byte units that lies
wholly below the top of the address space. A link cell is *clear* of a list when
its word overlaps no block of the list. -/

/-- A block that can carry a header, before and after it is split. -/
structure Fits (b : Block) : Prop where
  pos : 0 < b.size
  size_dvd : 4 ∣ b.size
  addr_dvd : 4 ∣ b.addr
  top_lt : b.addr + b.size < 65536

theorem Fits.four_le {b : Block} (h : Fits b) : 4 ≤ b.size := Nat.le_of_dvd h.pos h.size_dvd

/-- The word at `p` lies outside every block of `l`. -/
def Clear (p : ℕ) (l : List Block) : Prop :=
  p + 1 < 65536 ∧ ∀ b ∈ l, p + 1 < b.addr ∨ b.addr + b.size ≤ p

/-- `m'` differs from `m` at most in the word at `p` and inside the blocks of `l`. -/
def SameOutside (m m' : Mem) (p : ℕ) (l : List Block) : Prop :=
  ∀ x, x ≠ p → x ≠ p + 1 → (∀ b ∈ l, x < b.addr ∨ b.addr + b.size ≤ x) → m' x = m x

theorem Clear.tail {p : ℕ} {b : Block} {l : List Block} (h : Clear p (b :: l)) : Clear p l :=
  ⟨h.1, fun c hc => h.2 c (List.mem_cons_of_mem _ hc)⟩

/-- The link cell of a block is clear of what follows it. -/
theorem clear_of_ordered {b : Block} {l : List Block} (hb : Fits b)
    (hl : Ordered (b :: l)) : Clear b.addr l := by
  have h₄ := hb.four_le
  have htop := hb.top_lt
  refine ⟨by omega, fun c hc => Or.inl ?_⟩
  have := List.rel_of_pairwise_cons hl hc
  simp only [Block.top] at this
  omega

/-- A list is read only through its first link and its blocks: any memory with
the same first link and the same blocks holds the same list. -/
theorem Rep.congr {m m' : Mem} {p q : ℕ} {l : List Block} (hr : Rep m p l)
    (hfits : ∀ b ∈ l, Fits b) (hlink : m'.rd16 q = m.rd16 p)
    (hin : ∀ b ∈ l, ∀ x, b.addr ≤ x → x < b.addr + b.size → m' x = m x) : Rep m' q l := by
  induction l generalizing p q with
  | nil =>
    rw [rep_nil] at hr ⊢
    rw [hlink, hr]
  | cons b l ih =>
    obtain ⟨haddr, hne, hsize, hrest⟩ := rep_cons.mp hr
    obtain ⟨hb, hfits'⟩ := List.forall_mem_cons.mp hfits
    obtain ⟨hinb, hin'⟩ := List.forall_mem_cons.mp hin
    have h₄ := hb.four_le
    have htop := hb.top_lt
    have hbyte : ∀ k, k < 4 → m' (b.addr + k) = m (b.addr + k) :=
      fun k hk => hinb _ (by omega) (by omega)
    refine rep_cons.mpr ⟨by rw [hlink, haddr], hne, ?_, ih hrest hfits' ?_ hin'⟩
    · rw [← hsize]
      refine Mem.rd16_congr (hbyte 2 (by omega)) ?_
      rw [Nat.mod_eq_of_lt (by omega)]
      exact hbyte 3 (by omega)
    · refine Mem.rd16_congr (hbyte 0 (by omega)) ?_
      rw [Nat.mod_eq_of_lt (by omega)]
      exact hbyte 1 (by omega)

/-! ## `$ALLOC` is first fit -/

/-- `ka1` runs off the end of a list no block of which has room. -/
theorem ka1_eq_error {m : Mem} {n p k : ℕ} {l : List Block} (hr : Rep m p l)
    (hfits : ∀ b ∈ l, Fits b) (hk : l.length < k) (hc : carve n l = none) :
    ka1 m n k p = some (.error .nomem) := by
  obtain ⟨k, rfl⟩ : ∃ k', k = k' + 1 := ⟨k - 1, by omega⟩
  induction l generalizing p k with
  | nil =>
    rw [rep_nil] at hr
    simp [ka1, hr]
  | cons b l ih =>
    obtain ⟨haddr, hne, hsize, hrest⟩ := rep_cons.mp hr
    obtain ⟨hb, hfits'⟩ := List.forall_mem_cons.mp hfits
    have hlt := carve_eq_none.mp hc b List.mem_cons_self
    have hc' : carve n l = none :=
      carve_eq_none.mpr fun c hc' => carve_eq_none.mp hc c (List.mem_cons_of_mem _ hc')
    have h₄ := hb.four_le
    have htop := hb.top_lt
    obtain ⟨k, rfl⟩ : ∃ k', k = k' + 1 := ⟨k - 1, by simp only [List.length_cons] at hk; omega⟩
    rw [ka1]
    simp only [haddr, if_neg hne, Nat.mod_eq_of_lt (show b.addr + 2 < 65536 by omega), hsize,
      if_pos hlt]
    exact ih hrest hfits' hc' k (by simpa using hk)

/-- `ka1` carves the block first fit carves, and touches nothing but the link
cell it starts from and the free blocks. -/
theorem ka1_eq_ok {m : Mem} {n p k a : ℕ} {l l' : List Block} (hr : Rep m p l)
    (hfits : ∀ b ∈ l, Fits b) (hl : Separated l) (hp : Clear p l) (hn : 4 ∣ n) (hk : l.length < k)
    (hc : carve n l = some (a, l')) :
    ∃ m', ka1 m n k p = some (.ok (a, m')) ∧ Rep m' p l' ∧ SameOutside m m' p l := by
  obtain ⟨k, rfl⟩ : ∃ k', k = k' + 1 := ⟨k - 1, by omega⟩
  induction l generalizing p k l' with
  | nil => cases hc
  | cons b l ih =>
    obtain ⟨haddr, hne, hsize, hrest⟩ := rep_cons.mp hr
    obtain ⟨hb, hfits'⟩ := List.forall_mem_cons.mp hfits
    obtain ⟨hbl, hl'⟩ := List.pairwise_cons.mp hl
    have h₄ := hb.four_le
    have htop := hb.top_lt
    obtain ⟨hp₁, hpb⟩ := hp
    have hpb := List.forall_mem_cons.mp hpb
    rw [ka1]
    simp only [haddr, if_neg hne, Nat.mod_eq_of_lt (show b.addr + 2 < 65536 by omega), hsize]
    rw [carve] at hc
    by_cases hlt : b.size < n
    · -- too small: the search goes on from this block's own link
      rw [if_pos hlt] at hc ⊢
      obtain ⟨⟨a', l''⟩, hc', he⟩ := Option.map_eq_some_iff.mp hc
      obtain ⟨rfl, rfl⟩ := Prod.mk.inj he
      obtain ⟨k, rfl⟩ : ∃ k', k = k' + 1 :=
        ⟨k - 1, by simp only [List.length_cons] at hk; omega⟩
      obtain ⟨m', hrun, hrep, hsame⟩ :=
        ih hrest hfits' hl' (clear_of_ordered hb hl.ordered) hc' k (by simpa using hk)
      refine ⟨m', hrun, rep_cons.mpr ⟨?_, hne, ?_, hrep⟩, ?_⟩
      · rw [← haddr]
        refine Mem.rd16_congr (hsame p (by omega) (by omega) ?_) ?_
        · exact fun c hc => (hpb.2 c hc).imp (by omega) id
        · rw [Nat.mod_eq_of_lt hp₁]
          exact hsame _ (by omega) (by omega) fun c hc => (hpb.2 c hc).imp id (by omega)
      · rw [← hsize]
        have hbefore : ∀ c ∈ l, b.addr + 3 < c.addr := fun c hc => by
          have := hbl c hc
          simp only [Block.top] at this
          omega
        refine Mem.rd16_congr (hsame _ (by omega) (by omega) ?_) ?_
        · exact fun c hc => Or.inl (by have := hbefore c hc; omega)
        · rw [Nat.mod_eq_of_lt (by omega)]
          exact hsame _ (by omega) (by omega) fun c hc => Or.inl (hbefore c hc)
      · intro x hx₁ hx₂ hx
        obtain ⟨hxb, hxl⟩ := List.forall_mem_cons.mp hx
        exact hsame x (by omega) (by omega) hxl
    · rw [if_neg hlt] at hc ⊢
      by_cases heq : b.size = n
      · -- exact fit: the previous link skips the block
        rw [if_pos heq] at hc ⊢
        obtain ⟨rfl, rfl⟩ := Prod.mk.inj (Option.some.inj hc)
        refine ⟨_, rfl, hrest.congr hfits' (Mem.rd16_wr16_self _ (Mem.rd16_lt _ _)) ?_, ?_⟩
        · intro c hc x hx₁ hx₂
          have := hpb.2 c hc
          exact Mem.wr16_apply_ne _ _ (by omega) (by omega)
        · intro x hx₁ hx₂ _
          exact Mem.wr16_apply_ne _ _ hx₁ (by omega)
      · -- the rest of the block takes its place
        rw [if_neg heq] at hc ⊢
        obtain ⟨rfl, rfl⟩ := Prod.mk.inj (Option.some.inj hc)
        have hdvd := hb.size_dvd
        have hrest₁ : (b.addr + n) % 65536 = b.addr + n := Nat.mod_eq_of_lt (by omega)
        have hrest₂ : (b.addr + n + 2) % 65536 = b.addr + n + 2 := Nat.mod_eq_of_lt (by omega)
        simp only [hrest₁, hrest₂]
        refine ⟨_, rfl, rep_cons.mpr ⟨?_, by simp; omega, ?_, ?_⟩, ?_⟩
        · rw [Mem.rd16_wr16_ne _ _ (by omega) hp₁ (by omega),
            Mem.rd16_wr16_ne _ _ (by omega) hp₁ (by omega), Mem.rd16_wr16_self _ (by omega)]
        · exact Mem.rd16_wr16_self _ (by omega)
        · refine hrest.congr hfits' ?_ ?_
          · dsimp only
            rw [Mem.rd16_wr16_ne _ _ (by omega) (by omega) (by omega),
              Mem.rd16_wr16_self _ (Mem.rd16_lt _ _)]
          · intro c hc x hx₁ hx₂
            have h₁ := hpb.2 c hc
            have h₂ := hbl c hc
            simp only [Block.top] at h₂
            rw [Mem.wr16_apply_ne _ _ (by omega) (by omega),
              Mem.wr16_apply_ne _ _ (by omega) (by omega),
              Mem.wr16_apply_ne _ _ (by omega) (by omega)]
        · intro x hx₁ hx₂ hx
          have hxb := hx b List.mem_cons_self
          rw [Mem.wr16_apply_ne _ _ (by omega) (by omega),
            Mem.wr16_apply_ne _ _ (by omega) (by omega),
            Mem.wr16_apply_ne _ _ (by omega) (by omega)]

/-! ## `$FREE` inserts and coalesces -/

/-- The address a null-terminated list starts with, `0` for the empty list. -/
def headAddr : List Block → ℕ
  | [] => 0
  | b :: _ => b.addr

theorem Rep.rd16_eq {m : Mem} {p : ℕ} {l : List Block} (h : Rep m p l) :
    m.rd16 p = headAddr l := by
  cases l with
  | nil => exact rep_nil.mp h
  | cons b l => exact (rep_cons.mp h).1

theorem Seg.eq_lastCell {m : Mem} {p q : ℕ} {l : List Block} (h : Seg m p l q) :
    q = lastCell p l := by
  induction l generalizing p with
  | nil => exact Eq.symm h
  | cons b l ih => exact ih h.2.2.2

/-- A nonempty segment ends in one of its own blocks. -/
theorem Seg.exists_mem {m : Mem} {p r : ℕ} {b : Block} {l : List Block} (h : Seg m p (b :: l) r) :
    ∃ c ∈ b :: l, c.addr = r := by
  induction l generalizing p b with
  | nil => exact ⟨b, List.mem_cons_self, h.2.2.2⟩
  | cons c l ih =>
    obtain ⟨d, hd, he⟩ := ih h.2.2.2
    exact ⟨d, List.mem_cons_of_mem _ hd, he⟩

/-- The last link cell is the first one or a block. -/
theorem Seg.end_cases {m : Mem} {p r : ℕ} {l : List Block} (h : Seg m p l r) :
    (l = [] ∧ p = r) ∨ ∃ c ∈ l, c.addr = r := by
  cases l with
  | nil => exact Or.inl ⟨rfl, h⟩
  | cons b l => exact Or.inr h.exists_mem

/-- A segment does not read the link it ends in: it survives any change that
leaves its first link and its blocks alone, but for that last link. -/
theorem Seg.congr {m m' : Mem} {p r : ℕ} {l : List Block} (h : Seg m p l r)
    (hfits : ∀ b ∈ l, Fits b) (hl : Ordered l) (hp : Clear p l)
    (hlink : ∀ x, p ≤ x → x ≤ p + 1 → x ≠ r → x ≠ r + 1 → m' x = m x)
    (hin : ∀ b ∈ l, ∀ x, b.addr ≤ x → x < b.addr + b.size → x ≠ r → x ≠ r + 1 →
      m' x = m x) : Seg m' p l r := by
  induction l generalizing p with
  | nil => exact h
  | cons b l ih =>
    obtain ⟨c, hc, rfl⟩ := h.exists_mem
    obtain ⟨haddr, hne, hsize, hrest⟩ := h
    obtain ⟨hb, hfits'⟩ := List.forall_mem_cons.mp hfits
    obtain ⟨hbl, hl'⟩ := List.pairwise_cons.mp hl
    obtain ⟨hinb, hin'⟩ := List.forall_mem_cons.mp hin
    have hfc := hfits c hc
    have hpc := hp.2 c hc
    have h₄ := hb.four_le
    have htop := hb.top_lt
    have hc₄ := hfc.four_le
    have hp₁ := hp.1
    -- the last link lies at or behind this block's own link
    have hrb : c.addr = b.addr ∨ b.addr + b.size ≤ c.addr := by
      rcases List.mem_cons.mp hc with rfl | hc
      · exact Or.inl rfl
      · exact Or.inr (hbl c hc)
    refine ⟨?_, hne, ?_, ih hrest hfits' hl' (clear_of_ordered hb hl) ?_ hin'⟩
    · rw [← haddr]
      refine Mem.rd16_congr (hlink p (by omega) (by omega) (by omega) (by omega)) ?_
      rw [Nat.mod_eq_of_lt hp₁]
      exact hlink _ (by omega) (by omega) (by omega) (by omega)
    · rw [← hsize]
      refine Mem.rd16_congr (hinb _ (by omega) (by omega) (by omega) (by omega)) ?_
      rw [Nat.mod_eq_of_lt (by omega)]
      exact hinb _ (by omega) (by omega) (by omega) (by omega)
    · exact fun x hx₁ hx₂ => hinb x (by omega) (by omega)

/-- A list can be edited behind a segment: `r` is the link cell in front of the
edit, and any change inside the blocks of `l'` that leaves another list behind
`r` leaves that list behind `l`. -/
theorem Rep.replace {m : Mem} {p : ℕ} {l l' : List Block} (h : Rep m p (l ++ l'))
    (hfits : ∀ b ∈ l, Fits b) (hl : Ordered (l ++ l')) (hp : Clear p (l ++ l')) :
    ∃ r, Clear r l' ∧ Rep m r l' ∧ ∀ m' l'',
      (∀ x, (∀ d ∈ l', x < d.addr ∨ d.addr + d.size ≤ x) → m' x = m x) →
        Rep m' r l'' → Rep m' p (l ++ l'') := by
  obtain ⟨r, hseg, hrest⟩ := rep_append.mp h
  obtain ⟨hl₁, -, hord⟩ := List.pairwise_append.mp hl
  obtain ⟨hp₁, hp⟩ := hp
  obtain ⟨hpl, hpl'⟩ := List.forall_mem_append.mp hp
  refine ⟨r, ?_, hrest, fun m' l'' hsame hrep =>
    rep_append.mpr ⟨r, hseg.congr hfits hl₁ ⟨hp₁, hpl⟩ ?_ ?_, hrep⟩⟩
  · rcases hseg.end_cases with ⟨-, rfl⟩ | ⟨c, hc, rfl⟩
    · exact ⟨hp₁, hpl'⟩
    · have h₄ := (hfits c hc).four_le
      have htop := (hfits c hc).top_lt
      refine ⟨by omega, fun d hd => Or.inl ?_⟩
      have := hord c hc d hd
      simp only [Block.top] at this
      omega
  · intro x hx₁ hx₂ _ _
    refine hsame x fun d hd => ?_
    have := hpl' d hd
    omega
  · intro b hb x hx₁ hx₂ _ _
    refine hsame x fun d hd => ?_
    have := hord b hb d hd
    simp only [Block.top] at this
    omega

/-- `kf1` stops between the blocks up to `a` and those behind it. -/
theorem kf1_eq {m : Mem} {a p k : ℕ} {h : Bool} {l : List Block} (hr : Rep m p l)
    (hl : Separated l) (hk : l.length < k) :
    ∃ l₁ l₂, l = l₁ ++ l₂ ∧ (∀ b ∈ l₁, b.addr ≤ a) ∧ (∀ b ∈ l₂, a < b.addr) ∧
      kf1 m a k p h = some (lastCell p l₁, headAddr l₂, h || !l₁.isEmpty) := by
  obtain ⟨k, rfl⟩ : ∃ k', k = k' + 1 := ⟨k - 1, by omega⟩
  induction l generalizing p k h with
  | nil =>
    refine ⟨[], [], rfl, by simp, by simp, ?_⟩
    simp [kf1, rep_nil.mp hr, lastCell, headAddr]
  | cons b l ih =>
    obtain ⟨haddr, hne, -, hrest⟩ := rep_cons.mp hr
    obtain ⟨hbl, hl'⟩ := List.pairwise_cons.mp hl
    by_cases hlt : a < b.addr
    · refine ⟨[], b :: l, rfl, by simp, ?_, ?_⟩
      · intro c hc
        rcases List.mem_cons.mp hc with rfl | hc
        · exact hlt
        · have := hbl c hc
          simp only [Block.top] at this
          omega
      · simp [kf1, haddr, hne, hlt, lastCell, headAddr]
    · obtain ⟨k, rfl⟩ : ∃ k', k = k' + 1 :=
        ⟨k - 1, by simp only [List.length_cons] at hk; omega⟩
      obtain ⟨l₁, l₂, rfl, h₁, h₂, hrun⟩ := @ih b.addr true hrest hl' k (by simpa using hk)
      refine ⟨b :: l₁, l₂, rfl, ?_, h₂, ?_⟩
      · exact List.forall_mem_cons.mpr ⟨by omega, h₁⟩
      · rw [kf1]
        simp only [haddr, if_neg hne, if_neg hlt, hrun, lastCell]
        simp

/-- `kf3` coalesces a linked block with its successor and writes nothing but the
block's header. -/
theorem kf3_rep {m : Mem} {p : ℕ} {b : Block} {l : List Block} (hr : Rep m p (b :: l))
    (hfits : ∀ c ∈ b :: l, Fits c) (hord : ∀ c ∈ l, b.top ≤ c.addr)
    (hp : Clear p [b]) :
    Rep (kf3 m b.addr b.size (headAddr l)) p (join b l) ∧
      ∀ x, x < b.addr ∨ b.addr + 4 ≤ x → kf3 m b.addr b.size (headAddr l) x = m x := by
  obtain ⟨haddr, hne, hsize, hrest⟩ := rep_cons.mp hr
  obtain ⟨hb, hfits'⟩ := List.forall_mem_cons.mp hfits
  obtain ⟨hp₁, hpb⟩ := hp
  have hpb := hpb b List.mem_cons_self
  have h₄ := hb.four_le
  have htop := hb.top_lt
  cases l with
  | nil =>
    have hkeep : kf3 m b.addr b.size (headAddr []) = m := by
      rw [kf3, if_neg]
      simp only [headAddr]
      omega
    rw [hkeep]
    exact ⟨hr, fun _ _ => rfl⟩
  | cons c l =>
    have hbc := hord c List.mem_cons_self
    obtain ⟨hcaddr, hcne, hcsize, hcrest⟩ := rep_cons.mp hrest
    obtain ⟨hc, hfits''⟩ := List.forall_mem_cons.mp hfits'
    have hc₄ := hc.four_le
    have hctop := hc.top_lt
    simp only [Block.top] at hbc
    by_cases ht : b.addr + b.size = c.addr
    · -- the two touch: `b` takes over the link and the size of `c`
      have hrun : kf3 m b.addr b.size (headAddr (c :: l)) =
          (m.wr16 b.addr (m.rd16 c.addr)).wr16 (b.addr + 2) (c.size + b.size) := by
        rw [kf3, headAddr, if_pos (by omega)]
        simp only [Nat.mod_eq_of_lt (show c.addr + 2 < 65536 by omega),
          Nat.mod_eq_of_lt (show b.addr + 2 < 65536 by omega)]
        rw [Mem.rd16_wr16_ne _ _ (by omega) (by omega) (by omega), hcsize,
          Nat.mod_eq_of_lt (show c.size + b.size < 65536 by omega)]
      rw [hrun, join, if_pos ht]
      have hframe : ∀ x, x < b.addr ∨ b.addr + 4 ≤ x →
          ((m.wr16 b.addr (m.rd16 c.addr)).wr16 (b.addr + 2) (c.size + b.size)) x = m x := by
        intro x hx
        rw [Mem.wr16_apply_ne _ _ (by omega) (by omega), Mem.wr16_apply_ne _ _ (by omega) (by omega)]
      refine ⟨rep_cons.mpr ⟨?_, hne, ?_, ?_⟩, hframe⟩
      · rw [Mem.rd16_wr16_ne _ _ (by omega) (by omega) (by omega),
          Mem.rd16_wr16_ne _ _ (by omega) (by omega) (by omega), haddr]
      · dsimp only
        rw [Mem.rd16_wr16_self _ (by omega), Nat.add_comm]
      · refine hcrest.congr hfits'' ?_ fun d hd x hx₁ hx₂ => hframe x ?_
        · dsimp only
          rw [Mem.rd16_wr16_ne _ _ (by omega) (by omega) (by omega),
            Mem.rd16_wr16_self _ (Mem.rd16_lt _ _)]
        · have := hord d (List.mem_cons_of_mem _ hd)
          simp only [Block.top] at this
          omega
    · have hkeep : kf3 m b.addr b.size (headAddr (c :: l)) = m := by
        rw [kf3, headAddr, if_neg (by omega)]
      rw [hkeep, join, if_neg ht]
      exact ⟨hr, fun _ _ => rfl⟩

/-- The three stores at the head of `kf2`. -/
def link (m : Mem) (r next : ℕ) (b : Block) : Mem :=
  ((m.wr16 r b.addr).wr16 b.addr next).wr16 ((b.addr + 2) % 65536) b.size

/-- They link `b` in between the cell `r` and the list behind it. -/
theorem link_rep {m : Mem} {p r : ℕ} {b : Block} {l₁ l₂ : List Block} (h₁ : Seg m p l₁ r)
    (h₂ : Rep m r l₂) (hfits : ∀ c ∈ l₁ ++ l₂, Fits c) (hl : Separated (l₁ ++ l₂)) (hb : Fits b)
    (hpos : 0 < b.addr) (hap : Apart b (l₁ ++ l₂)) (hp : Clear p (b :: (l₁ ++ l₂))) :
    Rep (link m r (headAddr l₂) b) p (l₁ ++ b :: l₂) ∧
      ∀ x, x ≠ r → x ≠ r + 1 → x < b.addr ∨ b.addr + 4 ≤ x →
        link m r (headAddr l₂) b x = m x := by
  have h₄ := hb.four_le
  have htop := hb.top_lt
  obtain ⟨hp₁, hp'⟩ := hp
  obtain ⟨hpb, hpl⟩ := List.forall_mem_cons.mp hp'
  obtain ⟨hl₁, hl₂, hl₁₂⟩ := List.pairwise_append.mp hl
  have hl₁ : Separated l₁ := hl₁
  have hhead : headAddr l₂ < 65536 := by
    rw [← h₂.rd16_eq]
    exact Mem.rd16_lt _ _
  -- the link word lies outside `b` and outside the rest of the list
  have hr : r + 1 < 65536 ∧ (r + 1 < b.addr ∨ b.addr + b.size ≤ r) ∧
      ∀ c ∈ l₂, r + 1 < c.addr ∨ c.addr + c.size ≤ r := by
    rcases h₁.end_cases with ⟨rfl, rfl⟩ | ⟨c, hc, rfl⟩
    · exact ⟨hp₁, hpb, hpl⟩
    · have hc₄ := (hfits c (List.mem_append_left _ hc)).four_le
      have hctop := (hfits c (List.mem_append_left _ hc)).top_lt
      have hbc := hap c (List.mem_append_left _ hc)
      simp only [Block.Disjoint, Block.top] at hbc
      refine ⟨by omega, by omega, fun d hd => ?_⟩
      have := hl₁₂ c hc d hd
      simp only [Block.top] at this
      omega
  obtain ⟨hr₁, hrb, hrl⟩ := hr
  have hmod : (b.addr + 2) % 65536 = b.addr + 2 := Nat.mod_eq_of_lt (by omega)
  have hframe : ∀ x, x ≠ r → x ≠ r + 1 → x < b.addr ∨ b.addr + 4 ≤ x →
      link m r (headAddr l₂) b x = m x := by
    intro x hx₁ hx₂ hx₃
    rw [link, hmod, Mem.wr16_apply_ne _ _ (by omega) (by omega),
      Mem.wr16_apply_ne _ _ (by omega) (by omega), Mem.wr16_apply_ne _ _ hx₁ (by omega)]
  have hout : ∀ c ∈ l₁ ++ l₂, ∀ x, c.addr ≤ x → x < c.addr + c.size →
      x < b.addr ∨ b.addr + 4 ≤ x := by
    intro c hc x hx₁ hx₂
    have := hap c hc
    simp only [Block.Disjoint, Block.top] at this
    omega
  refine ⟨rep_append.mpr ⟨r, ?_, rep_cons.mpr ⟨?_, by omega, ?_, ?_⟩⟩, hframe⟩
  · refine h₁.congr (fun c hc => hfits c (List.mem_append_left _ hc)) hl₁.ordered
      ⟨hp₁, fun c hc => hpl c (List.mem_append_left _ hc)⟩ ?_ ?_
    · exact fun x hx₁ hx₂ hx₃ hx₄ => hframe x hx₃ hx₄ (by omega)
    · exact fun c hc x hx₁ hx₂ hx₃ hx₄ =>
        hframe x hx₃ hx₄ (hout c (List.mem_append_left _ hc) x hx₁ hx₂)
  · rw [link, hmod, Mem.rd16_wr16_ne _ _ (by omega) hr₁ (by omega),
      Mem.rd16_wr16_ne _ _ (by omega) hr₁ (by omega), Mem.rd16_wr16_self _ (by omega)]
  · rw [link, hmod, Mem.rd16_wr16_self _ (by omega)]
  · refine h₂.congr (fun c hc => hfits c (List.mem_append_right _ hc)) ?_ ?_
    · rw [link, hmod, Mem.rd16_wr16_ne _ _ (by omega) (by omega) (by omega),
        Mem.rd16_wr16_self _ hhead, h₂.rd16_eq]
    · intro c hc x hx₁ hx₂
      have := hrl c hc
      exact hframe x (by omega) (by omega) (hout c (List.mem_append_right _ hc) x hx₁ hx₂)

theorem le_addr_of_apart {b : Block} {l : List Block} (hap : Apart b l)
    (h : ∀ c ∈ l, b.addr < c.addr) (hb : Fits b) : ∀ c ∈ l, b.top ≤ c.addr := by
  intro c hc
  have hbc := hap c hc
  have hlt := h c hc
  have h₄ := hb.four_le
  simp only [Block.Disjoint, Block.top] at hbc ⊢
  omega

/-- `kf2` in front of the whole list: there is no previous block to merge with. -/
theorem kf2_front {m : Mem} {p : ℕ} {b : Block} {l : List Block} (hr : Rep m p l)
    (hfits : ∀ c ∈ l, Fits c) (hl : Separated l) (hb : Fits b) (hpos : 0 < b.addr)
    (hap : Apart b l) (hp : Clear p (b :: l)) (h : ∀ c ∈ l, b.addr < c.addr) :
    Rep (kf2 m p (headAddr l) false b.addr b.size) p (FreeList.insert b l) ∧
      SameOutside m (kf2 m p (headAddr l) false b.addr b.size) p (b :: l) := by
  have hseg : Seg m p [] p := rfl
  obtain ⟨hlink, hframe⟩ := link_rep hseg hr hfits hl hb hpos hap hp
  have hrun : kf2 m p (headAddr l) false b.addr b.size =
      kf3 (link m p (headAddr l) b) b.addr b.size (headAddr l) := by
    simp [kf2, link]
  have hpb : Clear p [b] := ⟨hp.1, fun c hc => hp.2 c (by simp at hc; simp [hc])⟩
  obtain ⟨hrep, hsame⟩ := kf3_rep hlink (List.forall_mem_cons.mpr ⟨hb, hfits⟩)
    (le_addr_of_apart hap h hb) hpb
  have h₄ := hb.four_le
  rw [hrun, insert_front h]
  refine ⟨hrep, fun x hx₁ hx₂ hx => ?_⟩
  have hxb := hx b List.mem_cons_self
  rw [hsame x (by omega), hframe x hx₁ hx₂ (by omega)]

/-- The two stores of `kf2` that grow the previous block `c` by `n` bytes. -/
def widen (m : Mem) (c : Block) (next n : ℕ) : Mem :=
  (m.wr16 c.addr next).wr16 ((c.addr + 2) % 65536) (c.size + n)

/-- They turn `c` and the block `b` behind it into one. -/
theorem widen_rep {m : Mem} {r : ℕ} {b c : Block} {l : List Block} (h : Rep m r (c :: b :: l))
    (hfits : ∀ d ∈ c :: b :: l, Fits d) (hl : Ordered (c :: b :: l)) (hr : Clear r [c])
    (hsum : c.size + b.size < 65536) :
    Rep (widen m c (headAddr l) b.size) r (⟨c.addr, c.size + b.size⟩ :: l) ∧
      ∀ x, x < c.addr ∨ c.addr + 4 ≤ x → widen m c (headAddr l) b.size x = m x := by
  obtain ⟨haddr, hne, -, hb⟩ := rep_cons.mp h
  have hrest := (rep_cons.mp hb).2.2.2
  obtain ⟨hc, hfits'⟩ := List.forall_mem_cons.mp hfits
  obtain ⟨-, hfits''⟩ := List.forall_mem_cons.mp hfits'
  obtain ⟨hcl, -⟩ := List.pairwise_cons.mp hl
  obtain ⟨hr₁, hrc⟩ := hr
  have hrc := hrc c List.mem_cons_self
  have h₄ := hc.four_le
  have htop := hc.top_lt
  have hcb := hcl b List.mem_cons_self
  simp only [Block.top] at hcb
  have hmod : (c.addr + 2) % 65536 = c.addr + 2 := Nat.mod_eq_of_lt (by omega)
  have hhead : headAddr l < 65536 := by
    rw [← hrest.rd16_eq]
    exact Mem.rd16_lt _ _
  have hframe : ∀ x, x < c.addr ∨ c.addr + 4 ≤ x → widen m c (headAddr l) b.size x = m x := by
    intro x hx
    rw [widen, hmod, Mem.wr16_apply_ne _ _ (by omega) (by omega),
      Mem.wr16_apply_ne _ _ (by omega) (by omega)]
  refine ⟨rep_cons.mpr ⟨?_, hne, ?_, ?_⟩, hframe⟩
  · rw [widen, hmod, Mem.rd16_wr16_ne _ _ (by omega) (by omega) (by omega),
      Mem.rd16_wr16_ne _ _ (by omega) (by omega) (by omega), haddr]
  · dsimp only
    rw [widen, hmod, Mem.rd16_wr16_self _ hsum]
  · refine hrest.congr hfits'' ?_ fun d hd x hx₁ hx₂ => hframe x ?_
    · dsimp only
      rw [widen, hmod, Mem.rd16_wr16_ne _ _ (by omega) (by omega) (by omega),
        Mem.rd16_wr16_self _ hhead, hrest.rd16_eq]
    · have := hcl d (by simp [hd])
      simp only [Block.top] at this
      omega

/-- What the second half of `kf2` makes of a list with `b` linked behind `c`. -/
theorem merge_rep {m : Mem} {p : ℕ} {b c : Block} {l₀ l₂ : List Block}
    (h : Rep m p (l₀ ++ c :: b :: l₂)) (hfits : ∀ d ∈ l₀ ++ c :: b :: l₂, Fits d)
    (hl : Ordered (l₀ ++ c :: b :: l₂)) (hp : Clear p (l₀ ++ c :: b :: l₂)) :
    ∃ m', m' = (if c.top = b.addr then
          kf3 (widen m c (headAddr l₂) b.size) c.addr (c.size + b.size) (headAddr l₂)
        else kf3 m b.addr b.size (headAddr l₂)) ∧
      Rep m' p (l₀ ++ join c (join b l₂)) ∧
      ∀ x, (∀ d ∈ [b, c], x < d.addr ∨ d.addr + d.size ≤ x) → m' x = m x := by
  obtain ⟨hfits₀, hfits'⟩ := List.forall_mem_append.mp hfits
  obtain ⟨hc, hfits₁⟩ := List.forall_mem_cons.mp hfits'
  obtain ⟨hb, hfits₂⟩ := List.forall_mem_cons.mp hfits₁
  obtain ⟨-, hlc, -⟩ := List.pairwise_append.mp hl
  obtain ⟨hlc', hlb⟩ := List.pairwise_cons.mp hlc
  obtain ⟨hlb', -⟩ := List.pairwise_cons.mp hlb
  have hb₄ := hb.four_le
  have hc₄ := hc.four_le
  have hbtop := hb.top_lt
  have hcb := hlc' b List.mem_cons_self
  by_cases ht : c.top = b.addr
  · -- `b` touches `c`: the header of `c` is widened over `b`
    obtain ⟨r, hr, hrep, hput⟩ := h.replace hfits₀ hl hp
    have hw : Fits ⟨c.addr, c.size + b.size⟩ := by
      refine ⟨?_, Nat.dvd_add hc.size_dvd hb.size_dvd, hc.addr_dvd, ?_⟩
      · dsimp only
        omega
      · simp only [Block.top] at ht ⊢
        omega
    have hwl : ∀ d ∈ l₂, Block.top ⟨c.addr, c.size + b.size⟩ ≤ d.addr := by
      intro d hd
      have := hlb' d hd
      simp only [Block.top] at this ht ⊢
      omega
    have hrw : Clear r [⟨c.addr, c.size + b.size⟩] := by
      refine ⟨hr.1, List.forall_mem_singleton.mpr ?_⟩
      have hrc := hr.2 c (by simp)
      have hrb := hr.2 b (by simp)
      simp only [Block.top] at ht
      dsimp only
      omega
    obtain ⟨hwid, hsame₁⟩ := widen_rep hrep hfits' hlc
      ⟨hr.1, List.forall_mem_singleton.mpr (hr.2 c (by simp))⟩ (by simp only [Block.top] at ht; omega)
    obtain ⟨hkf3, hsame₂⟩ := kf3_rep hwid (List.forall_mem_cons.mpr ⟨hw, hfits₂⟩) hwl hrw
    have hsame : ∀ x, (x < c.addr ∨ c.addr + c.size ≤ x) →
        kf3 (widen m c (headAddr l₂) b.size) c.addr (c.size + b.size) (headAddr l₂) x = m x := by
      intro x hx
      rw [hsame₂ x (by dsimp only; omega), hsame₁ x (by omega)]
    rw [if_pos ht, join_join_of_touch ht]
    exact ⟨_, rfl, hput _ _ (fun x hx => hsame x (hx c (by simp))) hkf3,
      fun x hx => hsame x (hx c (by simp))⟩
  · -- a gap before `b`: only the next block can be merged
    rw [List.append_cons] at h hl hp
    obtain ⟨r, hr, hrep, hput⟩ := h.replace
      (List.forall_mem_append.mpr ⟨hfits₀, List.forall_mem_singleton.mpr hc⟩) hl hp
    obtain ⟨hkf3, hsame⟩ := kf3_rep hrep hfits₁ hlb'
      ⟨hr.1, List.forall_mem_singleton.mpr (hr.2 b (by simp))⟩
    have hsame : ∀ x, (x < b.addr ∨ b.addr + b.size ≤ x) →
        kf3 m b.addr b.size (headAddr l₂) x = m x := fun x hx => hsame x (by omega)
    rw [if_neg ht, join_join_of_gap ht, List.append_cons]
    exact ⟨_, rfl, hput _ _ (fun x hx => hsame x (hx b (by simp))) hkf3,
      fun x hx => hsame x (hx b (by simp))⟩

/-- `kf2` behind a block `c`: the three blocks around the seam are coalesced. -/
theorem kf2_behind {m : Mem} {p : ℕ} {b c : Block} {l₀ l₂ : List Block}
    (hr : Rep m p (l₀ ++ c :: l₂)) (hfits : ∀ d ∈ l₀ ++ c :: l₂, Fits d)
    (hl : Separated (l₀ ++ c :: l₂)) (hb : Fits b) (hpos : 0 < b.addr)
    (hap : Apart b (l₀ ++ c :: l₂)) (hp : Clear p (b :: (l₀ ++ c :: l₂)))
    (hcb : c.addr ≤ b.addr) (h₂ : ∀ d ∈ l₂, b.addr < d.addr) :
    Rep (kf2 m c.addr (headAddr l₂) true b.addr b.size) p
        (FreeList.insert b (l₀ ++ c :: l₂)) ∧
      SameOutside m (kf2 m c.addr (headAddr l₂) true b.addr b.size) p
        (b :: (l₀ ++ c :: l₂)) := by
  obtain ⟨r₀, hseg₀, hc⟩ := rep_append.mp hr
  obtain ⟨hcaddr, hcne, hcsize, hrest⟩ := rep_cons.mp hc
  have happ : l₀ ++ c :: l₂ = (l₀ ++ [c]) ++ l₂ := by simp
  have hseg : Seg m p (l₀ ++ [c]) c.addr :=
    seg_append.mpr ⟨r₀, hseg₀, hcaddr, hcne, hcsize, rfl⟩
  obtain ⟨hlink, hframe⟩ := link_rep hseg hrest (happ ▸ hfits) (happ ▸ hl) hb hpos
    (happ ▸ hap) (happ ▸ hp)
  have hcf : Fits c := hfits c (by simp)
  have hc₄ := hcf.four_le
  have hctop := hcf.top_lt
  have hb₄ := hb.four_le
  have hcbt : c.top ≤ b.addr := by
    have := hap c (by simp)
    simp only [Block.Disjoint, Block.top] at this ⊢
    omega
  obtain ⟨hl₀, hl', h₀⟩ := List.pairwise_append.mp hl
  obtain ⟨hcl, hl₂⟩ := List.pairwise_cons.mp hl'
  -- the linked list is ordered: `b` lies between `c` and what follows
  have hord : Ordered (l₀ ++ c :: b :: l₂) := by
    have hbl := le_addr_of_apart (fun d hd => hap d (by simp [hd])) h₂ hb
    have hbo : Ordered (b :: l₂) := List.pairwise_cons.mpr ⟨hbl, Separated.ordered hl₂⟩
    refine List.pairwise_append.mpr ⟨Separated.ordered hl₀, List.pairwise_cons.mpr ⟨?_, hbo⟩, ?_⟩
    · intro d hd
      rcases List.mem_cons.mp hd with rfl | hd
      · exact hcbt
      · exact Nat.le_of_lt (hcl d hd)
    · intro d hd e he
      have hdc := h₀ d hd c List.mem_cons_self
      rcases List.mem_cons.mp he with rfl | he
      · exact Nat.le_of_lt hdc
      · rcases List.mem_cons.mp he with rfl | he
        · simp only [Block.top] at hdc hcbt ⊢
          omega
        · exact Nat.le_of_lt (h₀ d hd e (List.mem_cons_of_mem _ he))
  have hmem : ∀ d ∈ l₀ ++ c :: b :: l₂, d ∈ b :: (l₀ ++ c :: l₂) := fun d hd => by
    simp at hd ⊢
    tauto
  rw [List.append_assoc, List.singleton_append] at hlink
  have hlc : (link m c.addr (headAddr l₂) b).rd16 (c.addr + 2) = c.size := by
    obtain ⟨r, -, hrc⟩ := rep_append.mp hlink
    exact (rep_cons.mp hrc).2.2.1
  obtain ⟨m', hm', hrep, hsame⟩ := merge_rep hlink
    (fun d hd => (List.forall_mem_cons.mpr ⟨hb, hfits⟩) d (hmem d hd)) hord
    ⟨hp.1, fun d hd => hp.2 d (hmem d hd)⟩
  have hrun : kf2 m c.addr (headAddr l₂) true b.addr b.size = m' := by
    have hmod : (c.addr + 2) % 65536 = c.addr + 2 := Nat.mod_eq_of_lt (by omega)
    have hsum : (c.addr + c.size) % 65536 = c.addr + c.size := Nat.mod_eq_of_lt hctop
    rw [link] at hlc
    rw [hm', widen, link]
    simp only [kf2, hmod, hlc, hsum, true_and, Block.top]
    split
    · rw [Nat.mod_eq_of_lt (show c.size + b.size < 65536 by have := hb.top_lt; omega)]
    · rfl
  rw [hrun, insert_between hl hcbt h₂]
  refine ⟨hrep, fun x hx₁ hx₂ hx => ?_⟩
  have hxb := hx b List.mem_cons_self
  have hxc := hx c (by simp)
  rw [hsame x (by simp; omega), hframe x (by omega) (by omega) (by omega)]

/-- `$FREE` puts a block apart from the free list back at its place. -/
theorem free_rep {m : Mem} {pool a n : ℕ} {l : List Block} (hr : Rep m pool l)
    (hfits : ∀ b ∈ l, Fits b) (hl : Separated l) (hb : Fits ⟨a, round4 n⟩) (hpos : 0 < a)
    (hap : Apart ⟨a, round4 n⟩ l) (hp : Clear pool (⟨a, round4 n⟩ :: l))
    (hk : l.length < fuel) :
    ∃ m', free pool m a n = some m' ∧ Rep m' pool (FreeList.insert ⟨a, round4 n⟩ l) ∧
      SameOutside m m' pool (⟨a, round4 n⟩ :: l) := by
  have hround : round4 n ≠ 0 := Nat.pos_iff_ne_zero.mp hb.pos
  obtain ⟨l₁, l₂, rfl, h₁, h₂, hrun⟩ := kf1_eq (a := a) (h := false) hr hl hk
  rw [free, if_neg hround, hrun, Option.map_some]
  refine ⟨_, rfl, ?_⟩
  rcases List.eq_nil_or_concat l₁ with rfl | ⟨l₀, c, rfl⟩
  · have hfront := kf2_front (p := pool) (m := m) hr hfits hl hb hpos hap hp h₂
    exact hfront
  · have hlast : lastCell pool (l₀.concat c) = c.addr := by
      obtain ⟨r, hseg, -⟩ := rep_append.mp hr
      rw [← hseg.eq_lastCell]
      rw [List.concat_eq_append] at hseg
      obtain ⟨-, -, -, -, -, h⟩ := seg_append.mp hseg
      exact h.symm
    have hsome : (!(l₀.concat c).isEmpty) = true := by simp
    have happ : l₀.concat c ++ l₂ = l₀ ++ c :: l₂ := by simp
    rw [happ] at hr hfits hl hap hp ⊢
    have hbehind := kf2_behind hr hfits hl hb hpos hap hp (h₁ c (by simp)) h₂
    rw [hlast, hsome]
    exact hbehind

/-! ## `$AVAIL` is the total -/

theorem ks1_eq {m : Mem} {p k bc : ℕ} {l : List Block} (hr : Rep m p l)
    (hfits : ∀ b ∈ l, Fits b) (hk : l.length < k) :
    ks1 m k (m.rd16 p) bc = some (if l = [] then bc else (total l + bc) % 65536) := by
  obtain ⟨k, rfl⟩ : ∃ k', k = k' + 1 := ⟨k - 1, by omega⟩
  induction l generalizing p k bc with
  | nil => simp [ks1, rep_nil.mp hr]
  | cons b l ih =>
    obtain ⟨haddr, hne, hsize, hrest⟩ := rep_cons.mp hr
    obtain ⟨hb, hfits'⟩ := List.forall_mem_cons.mp hfits
    have h₄ := hb.four_le
    have htop := hb.top_lt
    obtain ⟨k, rfl⟩ : ∃ k', k = k' + 1 := ⟨k - 1, by simp only [List.length_cons] at hk; omega⟩
    rw [ks1]
    simp only [haddr, if_neg hne, Nat.mod_eq_of_lt (show b.addr + 2 < 65536 by omega), hsize]
    rw [ih hrest hfits' k (by simpa using hk)]
    cases l with
    | nil => simp
    | cons c l =>
      simp only [total_cons, reduceCtorEq, if_false]
      congr 1
      omega

theorem avail_eq {m : Mem} {pool : ℕ} {l : List Block} (hr : Rep m pool l)
    (hfits : ∀ b ∈ l, Fits b) (hk : l.length < fuel) (ht : total l < 65536) :
    avail pool m = some (total l) := by
  rw [avail, ks1_eq hr hfits hk, Nat.add_zero, Nat.mod_eq_of_lt ht]
  cases l <;> rfl

end RSX280.Pool
