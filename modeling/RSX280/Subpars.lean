import RSX280.Runs
import RSX280.Spans
import RSX280.Tcb

/-!
# Subpartitions (`pars.mac`)

The memory of a main partition that is system-controlled is divided into subpartitions.
Their control blocks are in the list `P.SUB`, by ascending base. `MALLOC` puts one into
the first gap that is large enough, `MFREE` takes one out, and `MEXTND` changes the size
of one, in place or by moving it to another gap. The checkpoint files are divided the same
way, in blocks; `fndgap` and `ckpgap` are two uses of one loop, `gap1`.

`Main.Laid` says how the subpartitions lie, and `laid_of_reach` that they lie so after any
sequence of these operations. Bases and sizes are 16-bit words.
-/

namespace RSX280.Subpars

open Spans
open Sched (Ret)

universe u

variable {I : Type u}

/-! ## Words -/

/-- `ADDW`. -/
def add16 (a b : ℕ) : ℕ := (a + b) % 65536

/-- `SUBW`. -/
def sub16 (a b : ℕ) : ℕ := (a + (65536 - b % 65536)) % 65536

theorem add16_of_lt {a b : ℕ} (h : a + b < 65536) : add16 a b = a + b := Nat.mod_eq_of_lt h

theorem sub16_of_le {a b : ℕ} (h : b ≤ a) (ha : a < 65536) : sub16 a b = a - b := by
  unfold sub16
  omega

/-! ## Control blocks -/

/-- The control block of a subpartition. -/
structure Pcb where
  /-- `P.BASE`, or `P.REL` of a range of a checkpoint file -/
  base : ℕ
  /-- `P.SIZE` -/
  size : ℕ
  /-- `PS.BSY` -/
  bsy : Bool := false
  deriving DecidableEq, Repr

/-- A main partition and the control blocks of its subpartitions. -/
structure Main (I : Type u) where
  /-- `P.BASE` -/
  base : ℕ
  /-- `P.SIZE` -/
  size : ℕ
  /-- `PA.SYS`: system-controlled partition -/
  sys : Bool
  /-- the list `P.SUB`, linked through `P.LNK` -/
  sub : List I
  pcb : I → Pcb

/-- `fg1` of `FNDGAP` and `cg1` of `CKPGAP`, from the end `e` of the subpartitions passed
on: the first gap of at least `n`. `last` is the size of the gap behind the last
subpartition. -/
def gap1 (pcb : I → Pcb) (n : ℕ) (last : ℕ → ℕ) : ℕ → List I → Option (List I × ℕ × List I)
  | e, [] => if last e < n then none else some ([], e, [])
  | e, i :: l =>
    if n ≤ sub16 (pcb i).base e then some ([], e, i :: l)
    else (gap1 pcb n last (add16 (pcb i).base (pcb i).size) l).map fun g => (i :: g.1, g.2)

/-- On a packed list the loop is the first-fit search. -/
theorem gap1_eq {pcb : I → Pcb} {n hi e : ℕ} {last : ℕ → ℕ} {l : List I}
    (h : Packed (fun i => (pcb i).base) (fun i => (pcb i).size) e l hi) (hhi : hi < 65536)
    (hlast : ∀ e ≤ hi, last e = hi - e) :
    gap1 pcb n last e l = gap (fun i => (pcb i).base) (fun i => (pcb i).size) n hi e l := by
  induction l generalizing e with
  | nil =>
    rw [gap1, gap, hlast e h]
    by_cases hn : n ≤ hi - e
    · rw [if_neg (by omega), if_pos hn]
    · rw [if_pos (by omega), if_neg hn]
  | cons i l ih =>
    have hb : e ≤ (pcb i).base := h.1
    have hle : (pcb i).base + (pcb i).size ≤ hi := h.2.le
    rw [gap1, gap, sub16_of_le hb (by omega), add16_of_lt (by omega), ih h.2]

namespace Main

/-- `FNDGAP`: the subpartitions before the gap, its base, and those behind it. -/
def fndgap (m : Main I) (n : ℕ) : Option (List I × ℕ × List I) :=
  if !m.sys then none
  else if m.sub = [] then if m.size < n then none else some ([], m.base, [])
  else gap1 m.pcb n (fun e => sub16 (add16 m.base m.size) e) m.base m.sub

/-- `LNKPCB`: link `i` in between `l₁` and `l₂`. -/
def lnkpcb (m : Main I) (l₁ : List I) (i : I) (l₂ : List I) : Main I :=
  { m with sub := l₁ ++ i :: l₂ }

section Change

variable [DecidableEq I]

/-- `MALLOC`: allocate `n` pages to the subpartition `i`. -/
def malloc (m : Main I) (i : I) (n : ℕ) : Main I × Ret :=
  match m.fndgap n with
  | none => (m, .err .nomem)
  | some (l₁, a, l₂) =>
    ({ m with pcb := Function.update m.pcb i { m.pcb i with base := a, bsy := true } }.lnkpcb
      l₁ i l₂, .ok)

/-- `mf1` of `UNLPCB`. -/
def mf1 (i : I) : List I → Option (List I × List I)
  | [] => none
  | j :: l => if j = i then some ([], l) else (mf1 i l).map fun g => (j :: g.1, g.2)

/-- `UNLPCB`: the subpartitions before `i` and those behind it. -/
def unlpcb (m : Main I) (i : I) : Option (List I × List I) := mf1 i m.sub

/-- `MFREE`: free the memory of subpartition `i`. -/
def mfree (m : Main I) (i : I) : Main I × Ret :=
  let m := { m with pcb := Function.update m.pcb i { m.pcb i with bsy := false } }
  match m.unlpcb i with
  | none => (m, .carry)
  | some (l₁, l₂) => ({ m with sub := l₁ ++ l₂ }, .ok)

/-- The space from the base of `i` up to the next subpartition, which is at the head of `l`,
or to the end of the main partition. -/
def space (m : Main I) (i : I) : List I → ℕ
  | [] => sub16 (add16 m.base m.size) (m.pcb i).base
  | j :: _ => sub16 (m.pcb j).base (m.pcb i).base

/-- `MEXTND`: change the size of subpartition `i`, which is in the list, to `n` pages. -/
def mextnd (m : Main I) (i : I) (n : ℕ) : Main I × Ret :=
  if !m.sys then (m, .err .nomem)
  else
    match m.unlpcb i with
    | none => (m, .carry)
    | some (l₁, l₂) =>
      if n ≤ m.space i l₂ then
        ({ m with pcb := Function.update m.pcb i { m.pcb i with size := n } }, .ok)
      else
        match { m with sub := l₁ ++ l₂ }.fndgap n with
        | none => ({ m with sub := l₁ ++ l₂ }.lnkpcb l₁ i l₂, .err .nomem)
        | some (k₁, a, k₂) =>
          ({ m with
              sub := l₁ ++ l₂
              pcb := Function.update m.pcb i { m.pcb i with base := a, size := n } }.lnkpcb
            k₁ i k₂, .ok)

end Change

/-- `MAVAIL`: the pages not allocated. -/
def mavail (m : Main I) : ℕ :=
  if !m.sys then m.size else m.sub.foldl (fun n i => sub16 n (m.pcb i).size) m.size

/-! ## How the subpartitions lie -/

/-- The bases of the subpartitions. -/
abbrev bases (m : Main I) (i : I) : ℕ := (m.pcb i).base

/-- The sizes of the subpartitions. -/
abbrev sizes (m : Main I) (i : I) : ℕ := (m.pcb i).size

/-- The subpartitions are in the list once each, by ascending base, disjoint and inside the
main partition, the end of which is a 16-bit word. -/
structure Laid (m : Main I) : Prop where
  lt : m.base + m.size < 65536
  packed : Packed m.bases m.sizes m.base m.sub (m.base + m.size)
  nodup : m.sub.Nodup

variable {m : Main I} {i : I} {n a : ℕ} {l₁ l₂ : List I}

/-- `FNDGAP` is the first-fit search. -/
theorem Laid.fndgap_eq (h : m.Laid) (hs : m.sys = true) :
    m.fndgap n = gap m.bases m.sizes n (m.base + m.size) m.base m.sub := by
  have hlt := h.lt
  rw [fndgap, hs, Bool.not_true, if_neg Bool.false_ne_true]
  split
  · next hnil =>
    rw [hnil, gap, Nat.add_sub_cancel_left]
    by_cases hn : n ≤ m.size
    · rw [if_neg (by omega), if_pos hn]
    · rw [if_pos (by omega), if_neg hn]
  · refine gap1_eq h.packed hlt fun e he => ?_
    rw [add16_of_lt hlt, sub16_of_le he hlt]

theorem sys_of_fndgap {g : List I × ℕ × List I} (hg : m.fndgap n = some g) : m.sys = true := by
  by_contra hs
  rw [fndgap, Bool.eq_false_iff.mpr hs, Bool.not_false, if_pos rfl] at hg
  cases hg

variable [DecidableEq I]

theorem unlpcb_eq_some (hu : m.unlpcb i = some (l₁, l₂)) : m.sub = l₁ ++ i :: l₂ := by
  have key : ∀ l l₁, mf1 i l = some (l₁, l₂) → l = l₁ ++ i :: l₂ := by
    intro l
    induction l with
    | nil => exact fun _ hu => (nomatch hu)
    | cons j l ih =>
      intro l₁ hu
      rw [mf1] at hu
      split at hu
      · next hj =>
        obtain ⟨rfl, rfl⟩ : [] = l₁ ∧ l = l₂ := by simpa using hu
        rw [hj, List.nil_append]
      · obtain ⟨⟨k₁, k₂⟩, hk, he⟩ := Option.map_eq_some_iff.mp hu
        obtain ⟨rfl, rfl⟩ : j :: k₁ = l₁ ∧ k₂ = l₂ := by simpa using he
        rw [ih k₁ hk, List.cons_append]
  exact key m.sub l₁ hu

theorem unlpcb_eq_none (hu : m.unlpcb i = none) : i ∉ m.sub := by
  have key : ∀ l, mf1 i l = none → i ∉ l := by
    intro l
    induction l with
    | nil => exact fun _ => List.not_mem_nil
    | cons j l ih =>
      intro hu
      rw [mf1] at hu
      split at hu
      · cases hu
      · next hj =>
        exact List.not_mem_cons_of_ne_of_not_mem (Ne.symm hj)
          (ih (Option.map_eq_none_iff.mp hu))
  exact key m.sub hu

omit [DecidableEq I] in
/-- Taking a subpartition out of the list leaves the others where they are. -/
theorem Laid.remove (h : m.Laid) (hl : m.sub = l₁ ++ i :: l₂) :
    { m with sub := l₁ ++ l₂ }.Laid where
  lt := h.lt
  packed := (hl ▸ h.packed).remove
  nodup := (List.nodup_cons.mp (List.nodup_middle.mp (hl ▸ h.nodup))).2

/-- A subpartition of `n` pages put into the gap found. -/
theorem Laid.insert (h : m.Laid) (hi : i ∉ m.sub) (hg : m.fndgap n = some (l₁, a, l₂))
    {b : Pcb} (hb : b.base = a) (hs : b.size = n) :
    ({ m with pcb := Function.update m.pcb i b }.lnkpcb l₁ i l₂).Laid := by
  rw [h.fndgap_eq (sys_of_fndgap hg)] at hg
  obtain ⟨hl, -, -⟩ := gap_eq_some h.packed hg
  refine ⟨h.lt, h.packed.insert hg (fun j hj => ?_) ?_ ?_, ?_⟩
  · have hne : j ≠ i := fun he => hi (he ▸ hj)
    dsimp only [lnkpcb, bases, sizes]
    rw [Function.update_of_ne hne]
    exact ⟨rfl, rfl⟩
  · dsimp only [lnkpcb, bases]
    rw [Function.update_self, hb]
  · dsimp only [lnkpcb, sizes]
    rw [Function.update_self, hs]
  · have hnd := h.nodup
    rw [hl] at hnd hi
    exact List.nodup_middle.mpr (List.nodup_cons.mpr ⟨hi, hnd⟩)

/-- The control blocks of subpartitions that are not in the list do not matter. -/
theorem Laid.setPcb (h : m.Laid) (hi : i ∉ m.sub) (b : Pcb) :
    { m with pcb := Function.update m.pcb i b }.Laid := by
  refine ⟨h.lt, h.packed.congr fun j hj => ?_, h.nodup⟩
  have hne : j ≠ i := fun he => hi (he ▸ hj)
  dsimp only [bases, sizes]
  rw [Function.update_of_ne hne]
  exact ⟨rfl, rfl⟩

/-- Neither does `PS.BSY`. -/
theorem Laid.setBsy (h : m.Laid) (i : I) (bsy : Bool) :
    { m with pcb := Function.update m.pcb i { m.pcb i with bsy := bsy } }.Laid := by
  refine ⟨h.lt, h.packed.congr fun j _ => ?_, h.nodup⟩
  dsimp only [bases, sizes]
  rcases eq_or_ne j i with rfl | hne
  · rw [Function.update_self]
    exact ⟨rfl, rfl⟩
  · rw [Function.update_of_ne hne]
    exact ⟨rfl, rfl⟩

theorem Laid.malloc (h : m.Laid) (hi : i ∉ m.sub) (hn : (m.pcb i).size = n) :
    (m.malloc i n).1.Laid := by
  rw [Main.malloc]
  split
  · exact h
  · next hg => exact h.insert hi hg rfl hn

theorem Laid.mfree (h : m.Laid) (i : I) : (m.mfree i).1.Laid := by
  have hb := h.setBsy i false
  rw [Main.mfree]
  dsimp only
  split
  · exact hb
  · next hu => exact hb.remove (unlpcb_eq_some hu)

omit [DecidableEq I] in
/-- What is between a subpartition and the next one. -/
theorem Laid.space_eq (h : m.Laid) (hl : m.sub = l₁ ++ i :: l₂) :
    Packed m.bases m.sizes ((m.pcb i).base + m.space i l₂) l₂ (m.base + m.size) := by
  have hlt := h.lt
  obtain ⟨-, -, hp⟩ := packed_append.mp (hl ▸ h.packed)
  have hle : (m.pcb i).base + (m.pcb i).size ≤ m.base + m.size := hp.le
  cases l₂ with
  | nil =>
    rw [space, add16_of_lt hlt, sub16_of_le (by omega) hlt, packed_nil]
    omega
  | cons j l₂ =>
    have hj : (m.pcb i).base + (m.pcb i).size ≤ (m.pcb j).base := hp.1
    have hle' : (m.pcb j).base + (m.pcb j).size ≤ m.base + m.size := hp.2.le
    rw [space, sub16_of_le (by omega) (by omega)]
    exact ⟨(Nat.add_sub_cancel' (by omega)).le, hp.2⟩

theorem Laid.mextnd (h : m.Laid) (i : I) (n : ℕ) : (m.mextnd i n).1.Laid := by
  rw [Main.mextnd]
  split
  · exact h
  split
  · exact h
  next l₁ l₂ hu =>
  have hl := unlpcb_eq_some hu
  have hi : i ∉ l₁ ++ l₂ := (List.nodup_cons.mp (List.nodup_middle.mp (hl ▸ h.nodup))).1
  split
  · next hn =>
    -- it grows in place
    refine ⟨h.lt, ?_, h.nodup⟩
    dsimp only
    rw [hl]
    refine (hl ▸ h.packed).resize (fun j hj => ?_) ?_ ?_
    · have hne : j ≠ i := fun he => hi (he ▸ hj)
      dsimp only [bases, sizes]
      rw [Function.update_of_ne hne]
      exact ⟨rfl, rfl⟩
    · dsimp only [bases]
      rw [Function.update_self]
    · dsimp only [sizes]
      rw [Function.update_self]
      exact (h.space_eq hl).mono (Nat.add_le_add_left hn _) le_rfl
  · split
    · -- it goes back where it was
      rw [lnkpcb, ← hl]
      exact h
    · next hg => exact (h.remove hl).insert hi hg rfl rfl

omit [DecidableEq I] in
/-- `MAVAIL` returns what the subpartitions leave of the main partition. -/
theorem Laid.mavail_eq (h : m.Laid) (hs : m.sys = true) :
    m.mavail + (m.sub.map m.sizes).sum = m.size := by
  have key : ∀ (l : List I) n, n < 65536 → (l.map m.sizes).sum ≤ n →
      l.foldl (fun n i => sub16 n (m.pcb i).size) n + (l.map m.sizes).sum = n := by
    intro l
    induction l with
    | nil => exact fun n _ _ => rfl
    | cons i l ih =>
      intro n hn hle
      rw [List.map_cons, List.sum_cons] at hle ⊢
      have hi : m.sizes i ≤ n := by omega
      rw [List.foldl_cons, sub16_of_le hi hn]
      have hrest := ih (n - m.sizes i) (by omega) (by omega)
      omega
  have hlt := h.lt
  have hsum := h.packed.sum_le
  rw [mavail, hs, Bool.not_true, if_neg Bool.false_ne_true]
  exact key _ _ (by omega) (by omega)

/-! ## What the operations change -/

/-- Nothing has changed but the subpartition `i`. -/
structure Changed (m m' : Main I) (i : I) : Prop where
  base : m'.base = m.base
  size : m'.size = m.size
  sys : m'.sys = m.sys
  pcb : ∀ j, j ≠ i → m'.pcb j = m.pcb j
  mem : ∀ j, j ≠ i → (j ∈ m'.sub ↔ j ∈ m.sub)

omit [DecidableEq I] in
theorem changed_refl (m : Main I) (i : I) : m.Changed m i :=
  ⟨rfl, rfl, rfl, fun _ _ => rfl, fun _ _ => Iff.rfl⟩

theorem changed_setPcb (m : Main I) (i : I) (b : Pcb) :
    m.Changed { m with pcb := Function.update m.pcb i b } i :=
  ⟨rfl, rfl, rfl, fun _ hj => Function.update_of_ne hj .., fun _ _ => Iff.rfl⟩

/-- `MALLOC` puts the subpartition into the list. -/
theorem Laid.malloc_ok {m' : Main I} (h : m.Laid) (hm : m.malloc i n = (m', .ok)) :
    m.Changed m' i ∧ i ∈ m'.sub ∧ m'.sizes i = m.sizes i := by
  rw [Main.malloc] at hm
  split at hm
  · cases hm
  next l₁ a l₂ hg =>
  obtain rfl := congrArg Prod.fst hm
  rw [h.fndgap_eq (sys_of_fndgap hg)] at hg
  obtain ⟨hl, -, -⟩ := gap_eq_some h.packed hg
  refine ⟨⟨rfl, rfl, rfl, fun j hj => Function.update_of_ne hj .., fun j hj => ?_⟩, ?_, ?_⟩
  · dsimp only [lnkpcb]
    rw [hl]
    simp [hj]
  · dsimp only [lnkpcb]
    simp
  · dsimp only [lnkpcb, sizes]
    rw [Function.update_self]

/-- `MFREE` takes it out and leaves its base and size as they are. -/
theorem Laid.mfree_spec (h : m.Laid) (i : I) : m.Changed (m.mfree i).1 i ∧
    i ∉ (m.mfree i).1.sub ∧ (m.mfree i).1.sizes i = m.sizes i := by
  rw [Main.mfree]
  dsimp only
  split
  · next hu =>
    refine ⟨changed_setPcb m i _, unlpcb_eq_none hu, ?_⟩
    dsimp only [sizes]
    rw [Function.update_self]
  next l₁ l₂ hu =>
  have hl : m.sub = l₁ ++ i :: l₂ := unlpcb_eq_some hu
  have hi := (List.nodup_cons.mp (List.nodup_middle.mp (hl ▸ h.nodup))).1
  refine ⟨⟨rfl, rfl, rfl, fun j hj => Function.update_of_ne hj .., fun j hj => ?_⟩, hi, ?_⟩
  · dsimp only
    rw [hl]
    simp [hj]
  · dsimp only [sizes]
    rw [Function.update_self]

/-- `MEXTND` leaves it in the list, or out of it. -/
theorem Laid.mextnd_ok {m' : Main I} (h : m.Laid) (hm : m.mextnd i n = (m', .ok)) :
    m.Changed m' i ∧ i ∈ m'.sub ∧ i ∈ m.sub ∧ m'.sizes i = n := by
  rw [Main.mextnd] at hm
  split at hm
  · cases hm
  split at hm
  · cases hm
  next l₁ l₂ hu =>
  have hl := unlpcb_eq_some hu
  have hi : i ∈ m.sub := hl ▸ List.mem_append_right _ List.mem_cons_self
  split at hm
  · obtain rfl := congrArg Prod.fst hm
    refine ⟨changed_setPcb m i _, hi, hi, ?_⟩
    dsimp only [sizes]
    rw [Function.update_self]
  split at hm
  · cases hm
  next k₁ a k₂ hg =>
  obtain rfl := congrArg Prod.fst hm
  have hrem := h.remove hl
  rw [hrem.fndgap_eq (sys_of_fndgap hg)] at hg
  obtain ⟨hk, -, -⟩ := gap_eq_some hrem.packed hg
  refine ⟨⟨rfl, rfl, rfl, fun j hj => Function.update_of_ne hj .., fun j hj => ?_⟩, ?_, hi, ?_⟩
  · have hk : l₁ ++ l₂ = k₁ ++ k₂ := hk
    dsimp only [lnkpcb]
    rw [hl, List.mem_append, List.mem_cons, List.mem_append, List.mem_cons, or_iff_right hj]
    have hj' : j ∈ k₁ ++ k₂ ↔ j ∈ l₁ ++ l₂ := by rw [hk]
    simp only [List.mem_append] at hj'
    tauto
  · dsimp only [lnkpcb]
    simp
  · dsimp only [lnkpcb, sizes]
    rw [Function.update_self]

/-- The subpartition keeps its base and does not shrink if it is given `n` pages: it grows
where it is, or not at all. -/
def Stays (m : Main I) (i : I) (n : ℕ) : Prop :=
  m.sizes i ≤ n ∧ ∀ l₁ l₂, m.unlpcb i = some (l₁, l₂) → n ≤ m.space i l₂ ∨
    ∀ a, ¬Room m.bases m.sizes m.base (l₁ ++ l₂) (m.base + m.size) n a

theorem Laid.mextnd_stays {m' : Main I} (h : m.Laid) (hs : m.Stays i n)
    (hm : m.mextnd i n = (m', .ok)) : m'.bases i = m.bases i ∧ m.sizes i ≤ m'.sizes i := by
  rw [(h.mextnd_ok hm).2.2.2]
  refine ⟨?_, hs.1⟩
  rw [Main.mextnd] at hm
  split at hm
  · cases hm
  split at hm
  · cases hm
  next l₁ l₂ hu =>
  split at hm
  · obtain rfl := congrArg Prod.fst hm
    dsimp only [bases]
    rw [Function.update_self]
  next hn =>
  split at hm
  · cases hm
  next k₁ a k₂ hg =>
  -- there is a gap elsewhere, and the subpartition would move there
  have hrem := h.remove (unlpcb_eq_some hu)
  rw [hrem.fndgap_eq (sys_of_fndgap hg)] at hg
  exact ((hs.2 l₁ l₂ hu).resolve_left hn a (room_of_gap hrem.packed hg)).elim

/-! ## Operations that fail -/

theorem malloc_of_ne_ok (hf : (m.malloc i n).2 ≠ .ok) : (m.malloc i n).1 = m := by
  rw [malloc] at hf ⊢
  split at hf
  · rfl
  · exact absurd rfl hf

theorem mextnd_of_ne_ok (hf : (m.mextnd i n).2 ≠ .ok) : (m.mextnd i n).1 = m := by
  rw [mextnd] at hf ⊢
  split at hf
  · next hs => rw [if_pos hs]
  next hs =>
  rw [if_neg hs]
  split at hf
  · rfl
  next l₁ l₂ hu =>
  dsimp only
  split at hf
  · exact absurd rfl hf
  next hn =>
  rw [if_neg hn]
  split at hf
  · dsimp only
    rw [lnkpcb, ← unlpcb_eq_some hu]
  · exact absurd rfl hf

theorem mfree_of_ne_ok (hf : (m.mfree i).2 ≠ .ok) :
    (m.mfree i).1.sub = m.sub ∧ (m.mfree i).1.bases = m.bases ∧ (m.mfree i).1.sizes = m.sizes := by
  rw [mfree] at hf ⊢
  dsimp only at hf ⊢
  split at hf
  · refine ⟨rfl, funext fun j => ?_, funext fun j => ?_⟩
    all_goals
      dsimp only [bases, sizes]
      rcases eq_or_ne j i with rfl | hne
      · rw [Function.update_self]
      · rw [Function.update_of_ne hne]
  · exact absurd rfl hf

end Main

/-! ## Every sequence of operations -/

/-- An operation on the subpartitions of a main partition. -/
inductive Op (I : Type u) where
  /-- a control block that is not in the list is given the size `n`: by `NEWSUB`, or for a
  task that has been checkpointed -/
  | newsub (i : I) (n : ℕ)
  | malloc (i : I) (n : ℕ)
  | mfree (i : I)
  | mextnd (i : I) (n : ℕ)

/-- When an operation is performed. Memory is allocated to a subpartition that has none, as
many pages as its size, and the subpartition of a task in memory is extended. -/
def Op.Ready : Op I → Main I → Prop
  | .newsub i _, m => i ∉ m.sub
  | .malloc i n, m => i ∉ m.sub ∧ n = (m.pcb i).size
  | .mfree _, _ => True
  | .mextnd i _, m => i ∈ m.sub

variable [DecidableEq I]

/-- Perform an operation. -/
def Op.exec : Op I → Main I → Main I × Ret
  | .newsub i n, m => 
    ({ m with pcb := Function.update m.pcb i { m.pcb i with size := n, bsy := false } }, .ok)
  | .malloc i n, m => m.malloc i n
  | .mfree i, m => m.mfree i
  | .mextnd i n, m => m.mextnd i n

/-- The memory of one main partition. -/
def machine : Machine (Op I) (Main I) := ⟨fun op m => (op.exec m).1, Op.Ready⟩

/-- What is to be expected of the memory of a system-controlled partition. -/
structure Main.Sound (m : Main I) : Prop where
  /-- the list is ordered by base and the subpartitions are disjoint -/
  order : m.sub.Pairwise fun i j => m.bases i + m.sizes i ≤ m.bases j
  within : ∀ i ∈ m.sub, m.base ≤ m.bases i ∧ m.bases i + m.sizes i ≤ m.base + m.size
  nodup : m.sub.Nodup
  /-- `FNDGAP` finds a gap if there is one -/
  found : ∀ n, (∃ a, Room m.bases m.sizes m.base m.sub (m.base + m.size) n a) →
    (m.fndgap n).isSome = true
  /-- what it finds is one, and between the subpartitions it says -/
  gap : ∀ n l₁ a l₂, m.fndgap n = some (l₁, a, l₂) → m.sub = l₁ ++ l₂ ∧
    Room m.bases m.sizes m.base m.sub (m.base + m.size) n a
  avail : m.mavail = m.size - (m.sub.map m.sizes).sum
  /-- an operation that fails changes nothing -/
  failed : ∀ op : Op I, op.Ready m → (op.exec m).2 ≠ .ok → (op.exec m).1.sub = m.sub ∧
    (op.exec m).1.bases = m.bases ∧ (op.exec m).1.sizes = m.sizes

theorem Main.Laid.sound {m : Main I} (h : m.Laid) (hs : m.sys = true) : m.Sound where
  order := h.packed.pairwise
  within _ hi := h.packed.within hi
  nodup := h.nodup
  found n hr := by
    rw [h.fndgap_eq hs]
    exact (isSome_gap_iff h.packed).mpr hr
  gap n l₁ a l₂ hg := by
    rw [h.fndgap_eq hs] at hg
    exact ⟨(gap_eq_some h.packed hg).1, room_of_gap h.packed hg⟩
  avail := Nat.eq_sub_of_add_eq (h.mavail_eq hs)
  failed op _ hf := by
    cases op with
    | newsub i n => exact absurd rfl hf
    | malloc i n =>
      have he : (m.malloc i n).1 = m := Main.malloc_of_ne_ok hf
      rw [Op.exec, he]
      exact ⟨rfl, rfl, rfl⟩
    | mfree i => exact Main.mfree_of_ne_ok hf
    | mextnd i n =>
      have he : (m.mextnd i n).1 = m := Main.mextnd_of_ne_ok hf
      rw [Op.exec, he]
      exact ⟨rfl, rfl, rfl⟩

/-- Each operation keeps the subpartitions laid out. -/
theorem Main.Laid.step {m m' : Main I} (h : m.Laid)
    (hstep : machine.Step (fun _ _ => True) m m') : m'.Laid := by
  obtain ⟨op, hr, -, rfl⟩ := hstep
  cases op with
  | newsub i n => exact h.setPcb hr _
  | malloc i n => exact h.malloc hr.1 hr.2.symm
  | mfree i => exact h.mfree i
  | mextnd i n => exact h.mextnd i n

/-- The kind of a partition does not change. -/
theorem sys_step {m m' : Main I} (hstep : machine.Step (fun _ _ => True) m m') :
    m'.sys = m.sys := by
  obtain ⟨op, -, -, rfl⟩ := hstep
  cases op with
  | newsub i n => rfl
  | malloc i n =>
    dsimp only [machine, Op.exec, Main.malloc]
    split <;> rfl
  | mfree i =>
    dsimp only [machine, Op.exec, Main.mfree]
    split <;> rfl
  | mextnd i n =>
    dsimp only [machine, Op.exec, Main.mextnd]
    repeat' split
    all_goals rfl

/-- After any sequence of operations on a system-controlled partition, empty at first, its
memory is as expected. -/
theorem spans_of_reach {m m' : Main I} (hs : m.sys = true) (hlt : m.base + m.size < 65536)
    (hsub : m.sub = []) (hr : Reach (machine.Step fun _ _ => True) m m') : m'.Sound := by
  have h₀ : m.Laid := ⟨hlt, by rw [hsub]; exact Nat.le_add_right .., by rw [hsub]; exact .nil⟩
  obtain ⟨h, hs'⟩ := hr.invariant (P := fun m => m.Laid ∧ m.sys = true) ⟨h₀, hs⟩
    fun _ _ h hstep => ⟨h.1.step hstep, (sys_step hstep).trans h.2⟩
  exact h.sound hs'

/-- Two subpartitions of a partition of eight pages; the first is freed and the second
moved down to grow. -/
theorem spans_of_reach_grow :
    (machine.runAll [.newsub 0 2, .newsub 1 3, .malloc 0 2, .malloc 1 3, .mfree 0,
      .mextnd 1 7] (⟨16, 8, true, [], fun _ => ⟨0, 0, false⟩⟩ : Main (Fin 2))).Sound := by
  refine spans_of_reach rfl (by decide) rfl (Machine.reach_runAll ?_)
  refine ⟨⟨List.not_mem_nil, trivial⟩, ⟨List.not_mem_nil, trivial⟩,
    ⟨⟨by decide, by decide⟩, trivial⟩, ⟨⟨by decide, by decide⟩, trivial⟩, ⟨trivial, trivial⟩,
    ⟨?_, trivial⟩, trivial⟩
  exact List.mem_singleton_self 1

end RSX280.Subpars
