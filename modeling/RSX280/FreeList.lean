import Mathlib.Algebra.GroupWithZero.Nat
import Mathlib.Algebra.BigOperators.Group.List.Basic
import Mathlib.Tactic.Common

/-!
# Coalescing first-fit free lists

A free list as mathematics: a list of blocks in ascending address order, no two
of them touching (`Separated`). Three operations:

* `carve n l` — first fit: take `n` units from the front of the first block that
  has room, dropping the block when it fits exactly;
* `join b l` — put `b` in front of `l`, merging it with the head when they touch;
* `insert b l` — put `b` back at its place and coalesce on both sides.

The lemmas say what each does to the order, to the total size (`total`) and to
the space covered (`Apart`: a block apart from every block of a list). Nothing
here knows how a list is laid out in memory.
-/

namespace RSX280

/-- A block of `size` units starting at `addr`. -/
structure Block where
  /-- first unit -/
  addr : ℕ
  /-- number of units -/
  size : ℕ
  deriving DecidableEq, Repr

namespace Block

/-- First address past the block. -/
abbrev top (b : Block) : ℕ := b.addr + b.size

/-- Two blocks with no unit in common. -/
def Disjoint (b c : Block) : Prop := b.top ≤ c.addr ∨ c.top ≤ b.addr

theorem Disjoint.symm {b c : Block} (h : b.Disjoint c) : c.Disjoint b := Or.symm h

end Block

namespace FreeList

/-- Ascending and with a gap between neighbours: ordered, disjoint and fully
coalesced at once. -/
def Separated (l : List Block) : Prop := l.Pairwise fun b c => b.top < c.addr

/-- Ascending and disjoint; neighbours may touch. -/
def Ordered (l : List Block) : Prop := l.Pairwise fun b c => b.top ≤ c.addr

theorem Separated.ordered {l : List Block} (h : Separated l) : Ordered l :=
  h.imp fun hbc => Nat.le_of_lt hbc

/-- No block of a separated list starts where another one ends. -/
theorem Separated.top_ne {l : List Block} (h : Separated l) (hpos : ∀ b ∈ l, 0 < b.size) :
    ∀ b ∈ l, ∀ c ∈ l, b.top ≠ c.addr := by
  induction l with
  | nil => simp
  | cons d l ih =>
    obtain ⟨hd, hl⟩ := List.pairwise_cons.mp h
    obtain ⟨hdpos, hpos'⟩ := List.forall_mem_cons.mp hpos
    intro b hb c hc
    simp only [Block.top] at hd ⊢
    rcases List.mem_cons.mp hb with rfl | hb' <;> rcases List.mem_cons.mp hc with rfl | hc'
    · omega
    · have := hd c hc'
      omega
    · have := hd b hb'
      omega
    · exact ih hl hpos' b hb' c hc'

/-- The number of free units. -/
def total (l : List Block) : ℕ := (l.map Block.size).sum

/-- `b` has no unit in common with any block of `l`. -/
def Apart (b : Block) (l : List Block) : Prop := ∀ c ∈ l, b.Disjoint c

@[simp] theorem total_nil : total [] = 0 := rfl

@[simp] theorem total_cons (b : Block) (l : List Block) : total (b :: l) = b.size + total l := by
  simp [total]

@[simp] theorem apart_nil (b : Block) : Apart b [] := fun _ h => absurd h List.not_mem_nil

@[simp] theorem apart_cons {b c : Block} {l : List Block} :
    Apart b (c :: l) ↔ b.Disjoint c ∧ Apart b l := by
  simp [Apart]

/-! ## The operations -/

/-- First fit. Returns the address carved out and the list left. -/
def carve (n : ℕ) : List Block → Option (ℕ × List Block)
  | [] => none
  | b :: l =>
    if b.size < n then (carve n l).map fun r => (r.1, b :: r.2)
    else if b.size = n then some (b.addr, l)
    else some (b.addr, ⟨b.addr + n, b.size - n⟩ :: l)

/-- Put `b` in front of `l`, coalescing it with the head of `l`. -/
def join (b : Block) : List Block → List Block
  | [] => [b]
  | c :: l => if b.top = c.addr then ⟨b.addr, b.size + c.size⟩ :: l else b :: c :: l

/-- Put `b` back at its place and coalesce on both sides. -/
def insert (b : Block) : List Block → List Block
  | [] => [b]
  | c :: l => if b.addr < c.addr then join b (c :: l) else join c (insert b l)

/-! ## Carving -/

/-- First fit fails exactly when no block has room. -/
theorem carve_eq_none {n : ℕ} {l : List Block} : carve n l = none ↔ ∀ b ∈ l, b.size < n := by
  induction l with
  | nil => simp [carve]
  | cons b l ih =>
    by_cases hlt : b.size < n
    · simp [carve, hlt, ih]
    · have : ∃ r, carve n (b :: l) = some r := by
        simp only [carve, if_neg hlt]
        split <;> exact ⟨_, rfl⟩
      obtain ⟨r, hr⟩ := this
      rw [hr]
      simp [hlt]

/-- What a successful first fit did: it split the list at the block it used. -/
theorem carve_eq_some {n a : ℕ} {l l' : List Block} (h : carve n l = some (a, l')) :
    ∃ l₁ b l₂, l = l₁ ++ b :: l₂ ∧ b.addr = a ∧
      ((b.size = n ∧ l' = l₁ ++ l₂) ∨
        (n < b.size ∧ l' = l₁ ++ ⟨a + n, b.size - n⟩ :: l₂)) := by
  induction l generalizing l' with
  | nil => cases h
  | cons b l ih =>
    simp only [carve] at h
    split at h
    · -- the head is too small: the split is in the tail
      obtain ⟨⟨a', l''⟩, hc, he⟩ := Option.map_eq_some_iff.mp h
      obtain ⟨rfl, rfl⟩ := Prod.mk.inj he
      obtain ⟨l₁, c, l₂, rfl, ha, hcase⟩ := ih hc
      refine ⟨b :: l₁, c, l₂, rfl, ha, ?_⟩
      rcases hcase with ⟨hs, hl⟩ | ⟨hs, hl⟩
      · exact Or.inl ⟨hs, by rw [hl]; rfl⟩
      · exact Or.inr ⟨hs, by rw [hl]; rfl⟩
    · split at h
      · obtain ⟨rfl, rfl⟩ := Prod.mk.inj (Option.some.inj h)
        exact ⟨[], b, l, rfl, rfl, Or.inl ⟨‹_›, rfl⟩⟩
      · obtain ⟨rfl, rfl⟩ := Prod.mk.inj (Option.some.inj h)
        exact ⟨[], b, l, rfl, rfl, Or.inr ⟨by omega, rfl⟩⟩

/-- A property of blocks that survives cutting off the front survives first fit. -/
theorem forall_mem_carve {P : Block → Prop} {n a : ℕ} {l l' : List Block}
    (hcut : ∀ b, P b → n < b.size → P ⟨b.addr + n, b.size - n⟩)
    (hl : ∀ b ∈ l, P b) (h : carve n l = some (a, l')) : ∀ b ∈ l', P b := by
  obtain ⟨l₁, b, l₂, rfl, rfl, hcase⟩ := carve_eq_some h
  have hb : P b := hl b (by simp)
  intro c hc
  rcases hcase with ⟨-, rfl⟩ | ⟨hs, rfl⟩
  · exact hl c (by simp at hc ⊢; tauto)
  · rcases List.mem_append.mp hc with hc | hc
    · exact hl c (by simp [hc])
    · rcases List.mem_cons.mp hc with rfl | hc
      · exact hcut b hb hs
      · exact hl c (by simp [hc])

/-- The block first fit uses has room for the request. -/
theorem exists_mem_of_carve {n a : ℕ} {l l' : List Block} (h : carve n l = some (a, l')) :
    ∃ b ∈ l, b.addr = a ∧ n ≤ b.size := by
  obtain ⟨l₁, b, l₂, rfl, ha, hcase⟩ := carve_eq_some h
  refine ⟨b, by simp, ha, ?_⟩
  rcases hcase with ⟨hs, -⟩ | ⟨hs, -⟩ <;> omega

theorem total_carve {n a : ℕ} {l l' : List Block} (h : carve n l = some (a, l')) :
    total l = n + total l' := by
  obtain ⟨l₁, b, l₂, rfl, -, hcase⟩ := carve_eq_some h
  rcases hcase with ⟨hs, rfl⟩ | ⟨hs, rfl⟩ <;> simp [total] <;> omega

theorem separated_carve {n a : ℕ} {l l' : List Block} (hl : Separated l)
    (h : carve n l = some (a, l')) : Separated l' := by
  obtain ⟨l₁, b, l₂, rfl, rfl, hcase⟩ := carve_eq_some h
  obtain ⟨h₁, h₂, h₁₂⟩ := List.pairwise_append.mp hl
  obtain ⟨hb, h₂⟩ := List.pairwise_cons.mp h₂
  rcases hcase with ⟨-, rfl⟩ | ⟨hs, rfl⟩
  · exact List.pairwise_append.mpr ⟨h₁, h₂, fun c hc d hd => h₁₂ c hc d (by simp [hd])⟩
  · refine List.pairwise_append.mpr ⟨h₁, List.pairwise_cons.mpr ⟨?_, h₂⟩, ?_⟩
    · intro c hc
      have := hb c hc
      simp only [Block.top] at this ⊢
      omega
    · intro c hc d hd
      have hcb := h₁₂ c hc b (by simp)
      rcases List.mem_cons.mp hd with rfl | hd
      · simp only [Block.top] at hcb ⊢
        omega
      · exact h₁₂ c hc d (by simp [hd])

/-- The block carved out has no unit in common with what is left. -/
theorem apart_carve {n a : ℕ} {l l' : List Block} (hl : Separated l)
    (h : carve n l = some (a, l')) : Apart ⟨a, n⟩ l' := by
  obtain ⟨l₁, b, l₂, rfl, rfl, hcase⟩ := carve_eq_some h
  obtain ⟨h₁, h₂, h₁₂⟩ := List.pairwise_append.mp hl
  obtain ⟨hb, h₂⟩ := List.pairwise_cons.mp h₂
  have hsize : n ≤ b.size := by rcases hcase with ⟨hs, -⟩ | ⟨hs, -⟩ <;> omega
  have hfront : Apart ⟨b.addr, n⟩ l₁ := fun c hc =>
    Or.inr (Nat.le_of_lt (h₁₂ c hc b (by simp)))
  have hback : Apart ⟨b.addr, n⟩ l₂ := fun c hc => by
    have := hb c hc
    left
    simp only [Block.top] at this ⊢
    omega
  intro c hc
  rcases hcase with ⟨-, rfl⟩ | ⟨hs, rfl⟩
  · rcases List.mem_append.mp hc with hc | hc
    · exact hfront c hc
    · exact hback c hc
  · rcases List.mem_append.mp hc with hc | hc
    · exact hfront c hc
    · rcases List.mem_cons.mp hc with rfl | hc
      · exact Or.inl (Nat.le_refl _)
      · exact hback c hc

/-! ## Coalescing -/

/-- A property of blocks that survives merging two touching ones survives `join`. -/
theorem forall_mem_join {P : Block → Prop} {b : Block} {l : List Block}
    (hmerge : ∀ c d, P c → P d → c.top = d.addr → P ⟨c.addr, c.size + d.size⟩)
    (hb : P b) (hl : ∀ c ∈ l, P c) : ∀ c ∈ join b l, P c := by
  cases l with
  | nil => simpa [join] using hb
  | cons d l =>
    have hd : P d := hl d List.mem_cons_self
    have hl' : ∀ c ∈ l, P c := fun c hc => hl c (List.mem_cons_of_mem _ hc)
    by_cases ht : b.top = d.addr
    · rw [join, if_pos ht]
      intro c hc
      rcases List.mem_cons.mp hc with rfl | hc
      · exact hmerge b d hb hd ht
      · exact hl' c hc
    · rw [join, if_neg ht]
      simpa using ⟨hb, hd, hl'⟩

theorem forall_mem_insert {P : Block → Prop} {b : Block} {l : List Block}
    (hmerge : ∀ c d, P c → P d → c.top = d.addr → P ⟨c.addr, c.size + d.size⟩)
    (hb : P b) (hl : ∀ c ∈ l, P c) : ∀ c ∈ insert b l, P c := by
  induction l with
  | nil => simpa [insert] using hb
  | cons d l ih =>
    obtain ⟨hd, hl'⟩ := List.forall_mem_cons.mp hl
    rw [insert]
    split
    · exact forall_mem_join hmerge hb hl
    · exact forall_mem_join hmerge hd (ih hl')

/-- Every block of `insert b l` starts where `b` or a block of `l` starts. -/
theorem le_addr_of_mem_insert {x : ℕ} {b : Block} {l : List Block} (hb : x ≤ b.addr)
    (hl : ∀ c ∈ l, x ≤ c.addr) : ∀ c ∈ insert b l, x ≤ c.addr :=
  forall_mem_insert (P := fun c => x ≤ c.addr) (fun _ _ h _ _ => h) hb hl

theorem total_join (b : Block) (l : List Block) : total (join b l) = b.size + total l := by
  cases l with
  | nil => rfl
  | cons c l =>
    rw [join]
    split
    · simp only [total_cons]
      omega
    · simp only [total_cons]

theorem total_insert (b : Block) (l : List Block) : total (insert b l) = b.size + total l := by
  induction l with
  | nil => rfl
  | cons c l ih =>
    rw [insert]
    split
    · exact total_join b (c :: l)
    · rw [total_join, ih, total_cons]
      omega

theorem separated_join {b : Block} {l : List Block} (hl : Separated l)
    (hb : ∀ c ∈ l, b.top ≤ c.addr) : Separated (join b l) := by
  cases l with
  | nil => exact List.pairwise_singleton _ _
  | cons c l =>
    obtain ⟨hc, hl'⟩ := List.pairwise_cons.mp hl
    by_cases ht : b.top = c.addr
    · rw [join, if_pos ht]
      refine List.pairwise_cons.mpr ⟨fun d hd => ?_, hl'⟩
      have := hc d hd
      simp only [Block.top] at this ht ⊢
      omega
    · rw [join, if_neg ht]
      refine List.pairwise_cons.mpr ⟨fun d hd => ?_, hl⟩
      have hbc := hb c List.mem_cons_self
      rcases List.mem_cons.mp hd with rfl | hd
      · omega
      · have := hc d hd
        simp only [Block.top] at this hbc ht ⊢
        omega

/-- Putting back a block apart from a separated list leaves it separated. -/
theorem separated_insert {b : Block} {l : List Block} (hsize : 0 < b.size) (hl : Separated l)
    (hpos : ∀ c ∈ l, 0 < c.size) (hb : Apart b l) : Separated (insert b l) := by
  induction l with
  | nil => exact List.pairwise_singleton _ _
  | cons c l ih =>
    obtain ⟨hc, hl'⟩ := List.pairwise_cons.mp hl
    obtain ⟨hbc, hbl⟩ := apart_cons.mp hb
    obtain ⟨hcpos, hpos'⟩ := List.forall_mem_cons.mp hpos
    rw [insert]
    split
    · -- `b` goes in front: everything in the list lies behind it
      have hle : b.top ≤ c.addr := by
        rcases hbc with h | h
        · exact h
        · simp only [Block.top] at h; omega
      refine separated_join hl fun d hd => ?_
      rcases List.mem_cons.mp hd with rfl | hd
      · exact hle
      · have := hc d hd
        simp only [Block.top] at this hle ⊢
        omega
    · -- `b` goes behind `c`
      have hle : c.top ≤ b.addr := by
        rcases hbc with h | h
        · simp only [Block.top] at h; omega
        · exact h
      exact separated_join (ih hl' hpos' hbl)
        (le_addr_of_mem_insert hle fun d hd => Nat.le_of_lt (hc d hd))

/-- A nonempty block apart from `b` and from `l` is apart from `insert b l`. -/
theorem apart_insert {x b : Block} {l : List Block} (hx : 0 < x.size) (hb : x.Disjoint b)
    (hl : Apart x l) : Apart x (insert b l) := by
  refine forall_mem_insert (P := x.Disjoint) (fun c d hc hd ht => ?_) hb hl
  simp only [Block.Disjoint, Block.top] at hc hd ht ⊢
  omega

/-! ## Where `insert` puts a block -/

theorem join_of_gap {b : Block} {l : List Block} (h : ∀ c ∈ l, b.top < c.addr) :
    join b l = b :: l := by
  cases l with
  | nil => rfl
  | cons c l =>
    have := h c List.mem_cons_self
    rw [join, if_neg (by omega)]

/-- In front of every block: only the next neighbour can be merged. -/
theorem insert_front {b : Block} {l : List Block} (h : ∀ c ∈ l, b.addr < c.addr) :
    insert b l = join b l := by
  cases l with
  | nil => rfl
  | cons c l => rw [insert, if_pos (h c List.mem_cons_self)]

/-- Behind `c` and in front of `l₂`: the neighbours on both sides are merged. -/
theorem insert_between {b c : Block} {l₁ l₂ : List Block} (hl : Separated (l₁ ++ c :: l₂))
    (hc : c.top ≤ b.addr) (h₂ : ∀ d ∈ l₂, b.addr < d.addr) :
    insert b (l₁ ++ c :: l₂) = l₁ ++ join c (join b l₂) := by
  induction l₁ with
  | nil =>
    rw [List.nil_append, insert, if_neg (by simp only [Block.top] at hc; omega), insert_front h₂]
    rfl
  | cons d l₁ ih =>
    obtain ⟨hd, hl'⟩ := List.pairwise_cons.mp hl
    have hdc := hd c (by simp)
    have hdb : ¬ b.addr < d.addr := by simp only [Block.top] at hdc hc; omega
    rw [List.cons_append, insert, if_neg hdb, join_of_gap, ih hl', List.cons_append]
    refine fun e he => Nat.lt_of_succ_le ?_
    refine le_addr_of_mem_insert (x := d.top + 1) ?_ (fun f hf => hd f hf) e he
    simp only [Block.top] at hdc hc ⊢
    omega

/-- Two touching blocks can be merged before or after the next one joins them. -/
theorem join_join_of_touch {b c : Block} {l : List Block} (h : c.top = b.addr) :
    join c (join b l) = join ⟨c.addr, c.size + b.size⟩ l := by
  simp only [Block.top] at h
  cases l with
  | nil => simp [join, h]
  | cons d l =>
    by_cases ht : b.top = d.addr
    · have : c.addr + (c.size + b.size) = d.addr := by simp only [Block.top] at ht; omega
      simp [join, ht, h, this, Nat.add_assoc]
    · have : ¬ c.addr + (c.size + b.size) = d.addr := by simp only [Block.top] at ht; omega
      simp [join, ht, h, this]

/-- Across a gap nothing is merged. -/
theorem join_join_of_gap {b c : Block} {l : List Block} (h : c.top ≠ b.addr) :
    join c (join b l) = c :: join b l := by
  cases l with
  | nil => simp [join, h]
  | cons d l =>
    by_cases ht : b.top = d.addr
    · simp [join, ht, h]
    · simp [join, ht, h]

/-! ## Size against extent -/

/-- The blocks of a separated list between `lo` and `hi` fill it only if they
are one block. -/
theorem total_add_length_le {l : List Block} {lo hi : ℕ} (hl : Separated l)
    (hlo : ∀ b ∈ l, lo ≤ b.addr) (hhi : ∀ b ∈ l, b.top ≤ hi) (hle : lo ≤ hi) :
    total l + (l.length - 1) ≤ hi - lo := by
  induction l generalizing lo with
  | nil => simp
  | cons b l ih =>
    obtain ⟨hb, hl'⟩ := List.pairwise_cons.mp hl
    have hblo := hlo b List.mem_cons_self
    have hbhi := hhi b List.mem_cons_self
    rcases l with _ | ⟨c, l⟩
    · simp only [Block.top, total_cons, total_nil, List.length_singleton] at *
      omega
    · have hbc := hb c List.mem_cons_self
      have hchi := hhi c (by simp)
      have := @ih (b.top + 1) hl' (fun d hd => hb d hd)
        (fun d hd => hhi d (List.mem_cons_of_mem _ hd)) (by simp only [Block.top] at *; omega)
      simp only [Block.top, total_cons, List.length_cons] at *
      omega

/-- A separated list of the whole extent's size is the whole extent. -/
theorem eq_singleton_of_total {l : List Block} {lo n : ℕ} (hl : Separated l)
    (hlo : ∀ b ∈ l, lo ≤ b.addr) (hhi : ∀ b ∈ l, b.top ≤ lo + n) (hn : 0 < n)
    (ht : total l = n) : l = [⟨lo, n⟩] := by
  have hle := total_add_length_le hl hlo hhi (by omega)
  match l with
  | [] => simp at ht; omega
  | [⟨a, k⟩] =>
    have ha := hlo ⟨a, k⟩ (by simp)
    have hk := hhi ⟨a, k⟩ (by simp)
    simp only [Block.top, total_cons, total_nil] at *
    have : a = lo := by omega
    have : k = n := by omega
    subst_vars
    rfl
  | _ :: _ :: _ =>
    simp only [List.length_cons] at hle
    omega

end FreeList

end RSX280
