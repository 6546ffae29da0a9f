import RSX280.Numbered
import RSX280.Subpars

/-!
# Subpartitions in the system image (`vmr/pars.mac`)

A task that is fixed in the system image gets a subpartition from `NEWSUB`. Its `FNDGAP` is the gap search
of the kernel on control blocks which are copied to `SUBBUF` one by one, and the new control block is then
built in `SUBBUF` as well, over the one copied last.

The gap behind the last subpartition is computed from `SUBBUF` too, where the kernel has the main partition,
so that it is always empty. `newsub_right_iff` says when the virtual MCR does what `MALLOC` does: when the
gap is in front of a subpartition the control block of which has nothing that could be inherited.
-/

namespace RSX280.Newsub

open Numbered (Linked)
open Subpars (Main add16 sub16 gap1)

/-! ### Control blocks -/

/-- A partition control block of the system image. -/
structure Pcb where
  LNK : ℕ
  MAIN : ℕ
  SUB : ℕ
  SIZE : ℕ
  BASE : ℕ
  ATTR : UInt8
  STAT : UInt8
  NAME : List UInt8
  WAIT : ℕ
  TCB : ℕ
  PROT : ℕ
  deriving DecidableEq, Repr

/-- The address in `PRVLNK`: that of `P.SUB` of a main partition, or that of `P.LNK` of a subpartition. -/
inductive Cell
  | sub (p : ℕ)
  | lnk (p : ℕ)
  deriving DecidableEq, Repr

/-- `STHLBC` at the address in `PRVLNK`. -/
def Cell.store (img : ℕ → Pcb) (x : ℕ) : Cell → ℕ → Pcb
  | .sub p => Function.update img p { img p with SUB := x }
  | .lnk p => Function.update img p { img p with LNK := x }

/-- The control blocks in the system image, and the variables of the virtual MCR. -/
structure Vmr where
  img : ℕ → Pcb
  PCBADR : ℕ
  PCBBUF : Pcb
  SUBADR : ℕ
  SUBBUF : Pcb
  PRVLNK : Cell
  NXTPCB : ℕ
  PBASE : ℕ

/-! ### The routines -/

/-- The loop `fg1`: whether a gap of `n` pages was found. -/
def fg1 : ℕ → Vmr → ℕ → ℕ → Vmr × Bool
  | 0, v, _, _ => (v, false)
  | fuel + 1, v, n, HL =>
    let v := { v with SUBBUF := v.img HL }
    if n ≤ sub16 v.SUBBUF.BASE v.PBASE then (v, true)
    else
      let v := { v with
        PRVLNK := .lnk HL
        PBASE := add16 v.SUBBUF.BASE v.SUBBUF.SIZE
        NXTPCB := v.SUBBUF.LNK }
      if v.NXTPCB = 0 then
        (v, decide (n ≤ sub16 (add16 v.SUBBUF.BASE v.SUBBUF.SIZE) v.PBASE))
      else fg1 fuel v n v.NXTPCB

def FNDGAP (v : Vmr) (n : ℕ) : Vmr × Bool :=
  if v.PCBBUF.ATTR &&& 2 = 0 then (v, false)
  else
    let v := { v with PRVLNK := .sub v.PCBADR, PBASE := v.PCBBUF.BASE, NXTPCB := v.PCBBUF.SUB }
    if v.NXTPCB = 0 then (v, decide (n ≤ v.PCBBUF.SIZE))
    else fg1 65536 v n v.NXTPCB

/-- The control block built in `SUBBUF`. -/
def built (v : Vmr) (n : ℕ) : Pcb :=
  { v.SUBBUF with
    NAME := List.replicate 6 32
    ATTR := v.SUBBUF.ATTR ||| 1
    STAT := v.SUBBUF.STAT ||| 8
    BASE := v.PBASE
    SIZE := n
    MAIN := v.PCBADR
    LNK := v.NXTPCB }

/-- `NEWSUB` for `n` pages. `kalloc` is what `KALLOC` returns for a control block. -/
def NEWSUB (v : Vmr) (n : ℕ) (kalloc : Option ℕ) : Vmr × Bool :=
  let (v, found) := FNDGAP v n
  if !found then (v, false)
  else
    match kalloc with
    | none => (v, false)
    | some HL =>
      let v := { v with SUBADR := HL, SUBBUF := built v n }
      ({ v with img := Function.update (v.PRVLNK.store v.img HL) HL v.SUBBUF }, true)

/-! ### What it should do -/

/-- What the kernel's `MALLOC` knows of a control block. -/
def control (p : Pcb) : Subpars.Pcb := ⟨p.BASE, p.SIZE, decide (p.STAT &&& 8 ≠ 0)⟩

/-- The main partition with the subpartitions `l`, as in the kernel. -/
def Vmr.main (v : Vmr) (l : List ℕ) : Main ℕ where
  base := v.PCBBUF.BASE
  size := v.PCBBUF.SIZE
  sys := decide (v.PCBBUF.ATTR &&& 2 ≠ 0)
  sub := l
  pcb j := control (v.img j)

/-- The main partition is system-controlled, and its subpartitions are `l`. -/
structure Ready (v : Vmr) (l : List ℕ) : Prop where
  sys : v.PCBBUF.ATTR &&& 2 ≠ 0
  loaded : v.img v.PCBADR = v.PCBBUF
  linked : Linked (fun p => (v.img p).LNK) v.PCBBUF.SUB l
  laid : (v.main l).Laid
  words : ∀ j ∈ l, j < 65536
  other : v.PCBADR ∉ l

/-- The address from the pool is not that of a control block. -/
def Fresh (v : Vmr) (l : List ℕ) (kalloc : Option ℕ) : Prop :=
  ∀ i, kalloc = some i → i ≠ 0 ∧ i ≠ v.PCBADR ∧ i ∉ l

/-- The control block of the new subpartition, with the link `next`. -/
def new (v : Vmr) (n a next : ℕ) : Pcb where
  LNK := next
  MAIN := v.PCBADR
  SUB := 0
  SIZE := n
  BASE := a
  ATTR := 1
  STAT := 8
  NAME := List.replicate 6 32
  WAIT := 0
  TCB := 0
  PROT := 0

/-- The subpartition `i` is where the kernel puts it, which makes `m` of the main partition. -/
structure Placed (v v' : Vmr) (l : List ℕ) (n i : ℕ) (m : Main ℕ) : Prop where
  same : v'.main m.sub = m
  pcb : ∃ next, v'.img i = new v n (m.pcb i).base next
  linked : Linked (fun p => (v'.img p).LNK) (v'.img v.PCBADR).SUB m.sub
  laid : m.Laid
  others : ∀ j, j ≠ i → j ≠ v.PCBADR → j ∉ l → v'.img j = v.img j
  subs : ∀ j ∈ l, { v'.img j with LNK := 0 } = { v.img j with LNK := 0 }
  head : { v'.img v.PCBADR with SUB := 0 } = { v.img v.PCBADR with SUB := 0 }

/-- `NEWSUB` does what `MALLOC` of the kernel does with a control block for `n` pages. -/
structure Right (v : Vmr) (l : List ℕ) (n : ℕ) (kalloc : Option ℕ) : Prop where
  fails : (v.main l).fndgap n = none ∨ kalloc = none →
    (NEWSUB v n kalloc).2 = false ∧ (NEWSUB v n kalloc).1.img = v.img
  succeeds : ∀ i m, kalloc = some i →
    { v.main l with pcb := Function.update (v.main l).pcb i ⟨0, n, false⟩ }.malloc i n = (m, .ok) →
    (NEWSUB v n kalloc).2 = true ∧ Placed v (NEWSUB v n kalloc).1 l n i m

/-- A control block that leaves nothing behind when another one is built over it. -/
structure Clean (p : Pcb) : Prop where
  SUB : p.SUB = 0
  WAIT : p.WAIT = 0
  TCB : p.TCB = 0
  PROT : p.PROT = 0
  ATTR : p.ATTR ||| 1 = 1
  STAT : p.STAT ||| 8 = 8

section

variable {v : Vmr} {img : ℕ → Pcb} {l l₁ l₂ : List ℕ} {n a i j p : ℕ} {kalloc : Option ℕ}

/-! ### The links -/

/-- The link behind the subpartitions `l`, from `c` on. -/
def prev (c : Cell) (l : List ℕ) : Cell := (l.getLast?.map Cell.lnk).getD c

theorem prev_cons (c : Cell) (j : ℕ) (l : List ℕ) : prev c (j :: l) = prev (.lnk j) l := by
  unfold prev
  rw [List.getLast?_cons]
  cases l.getLast? <;> rfl

theorem store_LNK (img : ℕ → Pcb) (p i y : ℕ) (l : List ℕ) :
    ((prev (.sub p) l).store img i y).LNK = if l.getLast? = some y then i else (img y).LNK := by
  unfold prev
  cases l.getLast? with
  | none =>
    change (Function.update img p _ y).LNK = _
    by_cases hy : y = p
    · rw [hy, Function.update_self, if_neg (by rintro ⟨⟩)]
    · rw [Function.update_of_ne hy, if_neg (by rintro ⟨⟩)]
  | some x =>
    change (Function.update img x _ y).LNK = _
    by_cases hy : y = x
    · rw [hy, Function.update_self, if_pos rfl]
    · rw [Function.update_of_ne hy, if_neg fun h => hy (Option.some.inj h).symm]

theorem store_SUB (img : ℕ → Pcb) (p i y : ℕ) (l : List ℕ) :
    ((prev (.sub p) l).store img i y).SUB = if l = [] ∧ y = p then i else (img y).SUB := by
  unfold prev
  cases hl : l.getLast? with
  | none =>
    have nil : l = [] := List.getLast?_eq_none_iff.mp hl
    change (Function.update img p _ y).SUB = _
    by_cases hy : y = p
    · rw [hy, Function.update_self, if_pos ⟨nil, rfl⟩]
    · rw [Function.update_of_ne hy, if_neg fun h => hy h.2]
  | some x =>
    have cons : l ≠ [] := by
      rintro rfl
      cases hl
    change (Function.update img x _ y).SUB = _
    rw [if_neg fun h => cons h.1]
    by_cases hy : y = x
    · rw [hy, Function.update_self]
    · rw [Function.update_of_ne hy]

/-- A control block without its links. -/
def unlinked (p : Pcb) : Pcb := { p with LNK := 0, SUB := 0 }

theorem eq_of_unlinked {p q : Pcb} (h : unlinked p = unlinked q) (link : p.LNK = q.LNK) (sub : p.SUB = q.SUB) :
    p = q := by
  cases p
  cases q
  simp_all [unlinked]

theorem control_of_unlinked {p q : Pcb} (h : unlinked p = unlinked q) : control p = control q := by
  have same : control (unlinked p) = control (unlinked q) := congrArg control h
  exact same

/-- Only the cell is changed. -/
theorem store_other (img : ℕ → Pcb) (p i y : ℕ) (l : List ℕ) :
    unlinked ((prev (.sub p) l).store img i y) = unlinked (img y) := by
  unfold prev
  cases l.getLast? with
  | none =>
    change unlinked (Function.update img p _ y) = _
    by_cases hy : y = p
    · rw [hy, Function.update_self]
      rfl
    · rw [Function.update_of_ne hy]
  | some x =>
    change unlinked (Function.update img x _ y) = _
    by_cases hy : y = x
    · rw [hy, Function.update_self]
      rfl
    · rw [Function.update_of_ne hy]

/-! ### The gap -/

theorem sub16_self (a b : ℕ) : sub16 (add16 a b) (add16 a b) = 0 := by
  have h : add16 a b < 65536 := Nat.mod_lt _ (by decide)
  rw [Subpars.sub16_of_le le_rfl h, Nat.sub_self]

/-- The loop finds the gaps of the kernel in front of a subpartition. -/
theorem fg1_found {last : ℕ → ℕ} {fuel : ℕ} (hl : Linked (fun p => (v.img p).LNK) v.NXTPCB l)
    (hf : l.length ≤ fuel)
    (hg : gap1 (fun j => control (v.img j)) n last v.PBASE l = some (l₁, a, j :: l₂)) :
    fg1 fuel v n v.NXTPCB =
      ({ v with SUBBUF := v.img j, PRVLNK := prev v.PRVLNK l₁, PBASE := a, NXTPCB := j }, true) := by
  induction l generalizing v fuel l₁ with
  | nil =>
    rw [gap1] at hg
    split at hg <;> cases hg
  | cons k l ih =>
    obtain ⟨hk, -, hl⟩ := hl
    cases fuel with
    | zero => exact absurd hf (Nat.not_succ_le_zero _)
    | succ fuel =>
      rw [gap1] at hg
      rw [fg1, hk]
      dsimp only
      split at hg
      · next fits =>
        refine (if_pos fits).trans ?_
        cases hg
        rfl
      · next small =>
        obtain ⟨⟨k₁, c, k₂⟩, hk₁, he⟩ := Option.map_eq_some_iff.mp hg
        cases he
        have more : (v.img k).LNK ≠ 0 := by
          intro zero
          rw [hl.zero_iff.mp zero, gap1] at hk₁
          split at hk₁ <;> cases hk₁
        rw [prev_cons]
        refine (if_neg small).trans ((if_neg more).trans ?_)
        exact ih (v := { v with
          SUBBUF := v.img k
          PRVLNK := .lnk k
          PBASE := add16 (v.img k).BASE (v.img k).SIZE
          NXTPCB := (v.img k).LNK }) hl (Nat.le_of_succ_le_succ hf) hk₁

/-- It does not find the gap behind the last one. -/
theorem fg1_last {last : ℕ → ℕ} {fuel : ℕ} (hl : Linked (fun p => (v.img p).LNK) v.NXTPCB l) (hne : l ≠ [])
    (hg : ∀ l₁ a j l₂, gap1 (fun j => control (v.img j)) n last v.PBASE l ≠ some (l₁, a, j :: l₂)) :
    (fg1 fuel v n v.NXTPCB).2 = false ∧ (fg1 fuel v n v.NXTPCB).1.img = v.img := by
  induction l generalizing v fuel with
  | nil => exact absurd rfl hne
  | cons k l ih =>
    obtain ⟨hk, -, hl⟩ := hl
    cases fuel with
    | zero => exact ⟨rfl, rfl⟩
    | succ fuel =>
      have small : ¬ n ≤ sub16 (v.img k).BASE v.PBASE := fun fits => by
        refine hg [] v.PBASE k l ?_
        rw [gap1]
        exact if_pos fits
      rw [fg1, hk]
      dsimp only
      rw [if_neg small]
      split
      · next zero =>
        refine ⟨?_, rfl⟩
        rw [sub16_self]
        exact decide_eq_false (by omega)
      · next more =>
        refine ih (v := { v with
          SUBBUF := v.img k
          PRVLNK := .lnk k
          PBASE := add16 (v.img k).BASE (v.img k).SIZE
          NXTPCB := (v.img k).LNK }) hl (fun nil => more (hl.zero_iff.mpr nil)) fun l₁ a j l₂ found => ?_
        refine hg (k :: l₁) a j l₂ ?_
        rw [gap1]
        refine (if_neg small).trans ?_
        exact congrArg (Option.map fun g : List ℕ × ℕ × List ℕ => (k :: g.1, g.2)) found

/-- What is in `SUBBUF` when the new control block is built: the control block behind the gap, or what was
there before. -/
def Vmr.behind (v : Vmr) : List ℕ → Pcb
  | [] => v.SUBBUF
  | j :: _ => v.img j

theorem Ready.length (h : Ready v l) : l.length ≤ 65536 := by
  have sub : l ⊆ List.range 65536 := fun j hj => List.mem_range.mpr (h.words j hj)
  have le := (List.subperm_of_subset h.linked.nodup sub).length_le
  rwa [List.length_range] at le

theorem Ready.fndgap_cons (h : Ready v l) (hne : l ≠ []) : ∃ last,
    (v.main l).fndgap n = gap1 (fun j => control (v.img j)) n last v.PCBBUF.BASE l := by
  have sys : (v.main l).sys = true := decide_eq_true h.sys
  refine ⟨fun e => sub16 (add16 (v.main l).base (v.main l).size) e, ?_⟩
  rw [Main.fndgap, sys]
  exact (if_neg Bool.false_ne_true).trans (if_neg hne)

theorem FNDGAP_found (h : Ready v l) (hg : (v.main l).fndgap n = some (l₁, a, l₂))
    (front : l = [] ∨ l₂ ≠ []) :
    FNDGAP v n = ({ v with
      SUBBUF := v.behind l₂
      PRVLNK := prev (.sub v.PCBADR) l₁
      PBASE := a
      NXTPCB := l₂.headD 0 }, true) := by
  have sys : (v.main l).sys = true := decide_eq_true h.sys
  rw [FNDGAP, if_neg h.sys]
  dsimp only
  by_cases hnil : l = []
  · subst hnil
    have zero : v.PCBBUF.SUB = 0 := h.linked
    rw [Main.fndgap, sys] at hg
    replace hg : (if v.PCBBUF.SIZE < n then none else some (([] : List ℕ), v.PCBBUF.BASE, ([] : List ℕ))) =
      some (l₁, a, l₂) := hg
    split at hg
    · cases hg
    · next fits =>
      cases hg
      rw [if_pos zero, zero, decide_eq_true (Nat.le_of_not_lt fits)]
      rfl
  · obtain ⟨last, eq⟩ := h.fndgap_cons (n := n) hnil
    obtain ⟨j, l₂, rfl⟩ := List.exists_cons_of_ne_nil (front.resolve_left hnil)
    rw [if_neg fun zero => hnil (h.linked.zero_iff.mp zero)]
    exact fg1_found (v := { v with
      PRVLNK := .sub v.PCBADR
      PBASE := v.PCBBUF.BASE
      NXTPCB := v.PCBBUF.SUB }) h.linked h.length (eq.symm.trans hg)

theorem FNDGAP_none (h : Ready v l)
    (hg : ∀ l₁ a l₂, (v.main l).fndgap n = some (l₁, a, l₂) → l ≠ [] ∧ l₂ = []) :
    (FNDGAP v n).2 = false ∧ (FNDGAP v n).1.img = v.img := by
  have sys : (v.main l).sys = true := decide_eq_true h.sys
  rw [FNDGAP, if_neg h.sys]
  dsimp only
  by_cases hnil : l = []
  · subst hnil
    have zero : v.PCBBUF.SUB = 0 := h.linked
    rw [if_pos zero]
    refine ⟨decide_eq_false fun fits => ?_, rfl⟩
    refine (hg [] v.PCBBUF.BASE [] ?_).1 rfl
    rw [Main.fndgap, sys]
    exact if_neg (Nat.not_lt_of_le fits)
  · obtain ⟨last, eq⟩ := h.fndgap_cons (n := n) hnil
    rw [if_neg fun zero => hnil (h.linked.zero_iff.mp zero)]
    have behind (l₁ : List ℕ) (a j : ℕ) (l₂ : List ℕ) :
        gap1 (fun j => control (v.img j)) n last v.PCBBUF.BASE l ≠ some (l₁, a, j :: l₂) := fun found =>
      List.cons_ne_nil j l₂ (hg l₁ a (j :: l₂) (eq.trans found)).2
    exact fg1_last (v := { v with
      PRVLNK := .sub v.PCBADR
      PBASE := v.PCBBUF.BASE
      NXTPCB := v.PCBBUF.SUB }) h.linked hnil behind

/-! ### The new control block -/

/-- The control block built for the gap at `a` in front of `l₂`. -/
def block (v : Vmr) (l₂ : List ℕ) (n a : ℕ) : Pcb :=
  built { v with SUBBUF := v.behind l₂, PBASE := a, NXTPCB := l₂.headD 0 } n

theorem NEWSUB_eq (h : Ready v l) (hg : (v.main l).fndgap n = some (l₁, a, l₂))
    (front : l = [] ∨ l₂ ≠ []) : NEWSUB v n (some i) =
      ({ v with
        SUBADR := i
        SUBBUF := block v l₂ n a
        PRVLNK := prev (.sub v.PCBADR) l₁
        PBASE := a
        NXTPCB := l₂.headD 0
        img := Function.update ((prev (.sub v.PCBADR) l₁).store v.img i) i (block v l₂ n a) }, true) := by
  rw [NEWSUB, FNDGAP_found h hg front]
  rfl

theorem NEWSUB_false (h : (FNDGAP v n).2 = false ∨ kalloc = none) :
    (NEWSUB v n kalloc).2 = false ∧ (NEWSUB v n kalloc).1.img = (FNDGAP v n).1.img := by
  rw [NEWSUB]
  cases hf : FNDGAP v n with
  | mk u found =>
    rw [hf] at h
    cases found with
    | false => exact ⟨rfl, rfl⟩
    | true =>
      obtain rfl := h.resolve_left Bool.noConfusion
      exact ⟨rfl, rfl⟩

theorem FNDGAP_img (h : Ready v l) : (FNDGAP v n).1.img = v.img := by
  by_cases hg : ∃ l₁ a l₂, (v.main l).fndgap n = some (l₁, a, l₂) ∧ (l = [] ∨ l₂ ≠ [])
  · obtain ⟨l₁, a, l₂, hg, front⟩ := hg
    rw [FNDGAP_found h hg front]
  · refine (FNDGAP_none h fun l₁ a l₂ found => ?_).2
    by_contra other
    exact hg ⟨l₁, a, l₂, found, by tauto⟩

theorem gap1_congr {pcb pcb' : ℕ → Subpars.Pcb} {last : ℕ → ℕ} {e : ℕ} (h : ∀ j ∈ l, pcb' j = pcb j) :
    gap1 pcb' n last e l = gap1 pcb n last e l := by
  induction l generalizing e with
  | nil => rfl
  | cons j l ih =>
    obtain ⟨hj, hl⟩ := List.forall_mem_cons.mp h
    rw [gap1, gap1, hj, ih hl]

/-- A control block that is not in the list does not matter. -/
theorem fndgap_update (b : Subpars.Pcb) (hi : i ∉ l) :
    { v.main l with pcb := Function.update (v.main l).pcb i b }.fndgap n = (v.main l).fndgap n := by
  have same : ∀ j ∈ l, Function.update (v.main l).pcb i b j = (v.main l).pcb j := fun j hj =>
    Function.update_of_ne (fun eq : j = i => hi (eq ▸ hj)) ..
  rw [Main.fndgap, Main.fndgap]
  dsimp only
  rw [gap1_congr (l := (v.main l).sub) same]

/-- The main partition after `MALLOC` of the kernel. -/
def allocated (v : Vmr) (l l₁ l₂ : List ℕ) (n i a : ℕ) : Main ℕ :=
  { v.main l with
    sub := l₁ ++ i :: l₂
    pcb := Function.update (v.main l).pcb i ⟨a, n, true⟩ }

theorem malloc_eq (hi : i ∉ l) (hg : (v.main l).fndgap n = some (l₁, a, l₂)) :
    { v.main l with pcb := Function.update (v.main l).pcb i ⟨0, n, false⟩ }.malloc i n =
      (allocated v l l₁ l₂ n i a, .ok) := by
  rw [Main.malloc, fndgap_update _ hi, hg]
  dsimp only [Main.lnkpcb, allocated]
  rw [Function.update_self, Function.update_idem]

theorem allocated_laid (h : Ready v l) (hi : i ∉ l) (hg : (v.main l).fndgap n = some (l₁, a, l₂)) :
    (allocated v l l₁ l₂ n i a).Laid :=
  h.laid.insert hi hg (b := ⟨a, n, true⟩) rfl rfl

/-- Nothing is inherited from a clean control block. -/
theorem block_clean (h : Clean (v.behind l₂)) : block v l₂ n a = new v n a (l₂.headD 0) := by
  rw [block, built]
  dsimp only
  rw [h.SUB, h.WAIT, h.TCB, h.PROT, h.ATTR, h.STAT]
  rfl

theorem clean_of_block {next : ℕ} (h : block v l₂ n a = new v n a next) : Clean (v.behind l₂) where
  SUB := congrArg Pcb.SUB h
  WAIT := congrArg Pcb.WAIT h
  TCB := congrArg Pcb.TCB h
  PROT := congrArg Pcb.PROT h
  ATTR := congrArg Pcb.ATTR h
  STAT := congrArg Pcb.STAT h

/-- A clean control block is where the kernel puts it. -/
theorem placed (h : Ready v l) (hi : i ≠ 0 ∧ i ≠ v.PCBADR ∧ i ∉ l)
    (hg : (v.main l).fndgap n = some (l₁, a, l₂)) (front : l = [] ∨ l₂ ≠ []) (clean : Clean (v.behind l₂)) :
    Placed v (NEWSUB v n (some i)).1 l n i (allocated v l l₁ l₂ n i a) := by
  obtain ⟨hi0, him, hil⟩ := hi
  have hl : l = l₁ ++ l₂ := by
    have gap := hg
    rw [h.laid.fndgap_eq (decide_eq_true h.sys)] at gap
    exact (Spans.gap_eq_some h.laid.packed gap).1
  rw [NEWSUB_eq h hg front, block_clean clean]
  have self : Function.update ((prev (.sub v.PCBADR) l₁).store v.img i) i (new v n a (l₂.headD 0)) i =
      new v n a (l₂.headD 0) := Function.update_self ..
  have apart (j : ℕ) (hj : j ≠ i) :
      Function.update ((prev (.sub v.PCBADR) l₁).store v.img i) i (new v n a (l₂.headD 0)) j =
        (prev (.sub v.PCBADR) l₁).store v.img i j := Function.update_of_ne hj ..
  generalize Function.update ((prev (.sub v.PCBADR) l₁).store v.img i) i (new v n a (l₂.headD 0)) = img at self apart
  have LNK (j : ℕ) (hj : j ≠ i) : (img j).LNK = if l₁.getLast? = some j then i else (v.img j).LNK := by
    rw [apart j hj, store_LNK]
  have SUB (j : ℕ) (hj : j ≠ i) : (img j).SUB = if l₁ = [] ∧ j = v.PCBADR then i else (v.img j).SUB := by
    rw [apart j hj, store_SUB]
  have rest (j : ℕ) (hj : j ≠ i) : unlinked (img j) = unlinked (v.img j) := by
    rw [apart j hj, store_other]
  refine ⟨?_, ⟨l₂.headD 0, ?_⟩, ?_, allocated_laid h hil hg, ?_, ?_, ?_⟩
  · refine congrArg (fun pcb => { v.main l with sub := l₁ ++ i :: l₂, pcb := pcb }) (funext fun j => ?_)
    change control (img j) = _
    rcases eq_or_ne j i with rfl | hj
    · rw [self, Function.update_self]
      have busy : decide ((8 : UInt8) &&& 8 ≠ 0) = true := by decide
      exact congrArg (Subpars.Pcb.mk a n) busy
    · rw [Function.update_of_ne hj]
      exact control_of_unlinked (rest j hj)
  · refine self.trans ?_
    dsimp only [allocated]
    rw [Function.update_self]
  · have head : (img v.PCBADR).SUB = (l₁ ++ [i]).headD 0 := by
      rw [SUB v.PCBADR him.symm]
      cases l₁ with
      | nil => exact if_pos ⟨rfl, rfl⟩
      | cons k l₁ =>
        rw [if_neg fun h => List.cons_ne_nil _ _ h.1, h.loaded, h.linked.head, hl]
        rfl
    change Linked (fun p => (img p).LNK) (img v.PCBADR).SUB (l₁ ++ i :: l₂)
    rw [head]
    have linked := h.linked
    rw [hl] at linked hil
    refine linked.insert hi0 (fun y hy hne => ?_) (fun y hy => ?_) (congrArg Pcb.LNK self) linked.nodup
    · exact (LNK y fun eq => hil (eq ▸ hy)).trans (if_neg hne)
    · have mem : y ∈ l₁ ++ l₂ := List.mem_append_left _ (List.mem_of_getLast? hy)
      exact (LNK y fun eq => hil (eq ▸ mem)).trans (if_pos hy)
  · intro j hj hp hn
    have last : l₁.getLast? ≠ some j := fun hy =>
      hn (hl ▸ List.mem_append_left _ (List.mem_of_getLast? hy))
    exact eq_of_unlinked (rest j hj) ((LNK j hj).trans (if_neg last)) ((SUB j hj).trans (if_neg fun h => hp h.2))
  · intro j hj
    have hji : j ≠ i := fun eq => hil (eq ▸ hj)
    have hjp : j ≠ v.PCBADR := fun eq => h.other (eq ▸ hj)
    refine eq_of_unlinked (rest j hji) rfl ?_
    exact (SUB j hji).trans (if_neg fun h => hjp h.2)
  · have last : l₁.getLast? ≠ some v.PCBADR := fun hy =>
      h.other (hl ▸ List.mem_append_left _ (List.mem_of_getLast? hy))
    exact eq_of_unlinked (rest v.PCBADR him.symm) ((LNK v.PCBADR him.symm).trans (if_neg last)) rfl

/-- The virtual MCR does what the kernel does if and only if there is no subpartition yet or the gap found is
in front of one, and the control block there leaves nothing behind. -/
theorem newsub_right_iff (h : Ready v l) (fresh : Fresh v l kalloc) : Right v l n kalloc ↔
    ∀ l₁ a l₂, (v.main l).fndgap n = some (l₁, a, l₂) → kalloc ≠ none →
      (l = [] ∨ l₂ ≠ []) ∧ Clean (v.behind l₂) := by
  constructor
  · intro right l₁ a l₂ hg some
    obtain ⟨i, rfl⟩ := Option.ne_none_iff_exists'.mp some
    obtain ⟨hi0, him, hil⟩ := fresh i rfl
    obtain ⟨ok, placed⟩ := right.succeeds i _ rfl (malloc_eq hil hg)
    have front : l = [] ∨ l₂ ≠ [] := by
      by_contra other
      push Not at other
      have none := FNDGAP_none h (n := n) fun k₁ b k₂ found => by
        cases hg.symm.trans found
        exact other
      rw [(NEWSUB_false (Or.inl none.1)).1] at ok
      cases ok
    obtain ⟨next, pcb⟩ := placed.pcb
    rw [NEWSUB_eq h hg front] at pcb
    dsimp only [allocated] at pcb
    rw [Function.update_self, Function.update_self] at pcb
    exact ⟨front, clean_of_block pcb⟩
  · intro cond
    refine ⟨fun fails => ?_, fun i m hi hm => ?_⟩
    · have none : (FNDGAP v n).2 = false ∨ kalloc = none :=
        fails.imp_left fun none => (FNDGAP_none h fun l₁ a l₂ found => by
          rw [none] at found
          cases found).1
      exact ⟨(NEWSUB_false none).1, (NEWSUB_false none).2.trans (FNDGAP_img h)⟩
    · obtain ⟨hi0, him, hil⟩ := fresh i hi
      subst hi
      cases hg : (v.main l).fndgap n with
      | none =>
        rw [Main.malloc, fndgap_update _ hil, hg] at hm
        cases hm
      | some g =>
        obtain ⟨l₁, a, l₂⟩ := g
        obtain ⟨front, clean⟩ := cond l₁ a l₂ hg (by rintro ⟨⟩)
        rw [malloc_eq hil hg] at hm
        cases hm
        refine ⟨?_, placed h ⟨hi0, him, hil⟩ hg front clean⟩
        rw [NEWSUB_eq h hg front]

end

/-! ### One task -/

/-- A control block of `SIZE` pages from `BASE` on, with the attributes `ATTR`. -/
def blank (SUB SIZE BASE : ℕ) (ATTR : UInt8) : Pcb where
  LNK := 0
  MAIN := 0
  SUB := SUB
  SIZE := SIZE
  BASE := BASE
  ATTR := ATTR
  STAT := 0
  NAME := List.replicate 6 32
  WAIT := 0
  TCB := 0
  PROT := 0

/-- A partition of 64 pages with the subpartitions in the list from `SUB` on, and in the list a
subpartition of 4 pages at its base, which belongs to the task at `TCB`. -/
def image (SUB TCB : ℕ) : Vmr where
  img p := if p = 512 then { blank 0 4 16 1 with MAIN := 256, STAT := 8, TCB := TCB } else blank SUB 64 16 2
  PCBADR := 256
  PCBBUF := blank SUB 64 16 2
  SUBADR := 0
  SUBBUF := blank 0 0 0 0
  PRVLNK := .sub 0
  NXTPCB := 0
  PBASE := 0

theorem image_ready : Ready (image 512 768) [512] where
  sys := by decide
  loaded := rfl
  linked := ⟨rfl, by decide, rfl⟩
  laid := by
    refine ⟨by decide, ?_, List.nodup_singleton 512⟩
    exact ⟨by decide, (by decide : (16 + 4 : ℕ) ≤ 16 + 64)⟩
  words := by decide
  other := by decide

/-- With one task fixed there is no memory for another one. -/
theorem second_task_fails : Ready (image 512 768) [512] ∧ Fresh (image 512 768) [512] (some 1024) ∧
    ¬Right (image 512 768) [512] 4 (some 1024) := by
  refine ⟨image_ready, ?_, fun right => ?_⟩
  · rintro i ⟨⟩
    decide
  · have gap : ((image 512 768).main [512]).fndgap 4 = some ([512], 20, []) := by decide
    have ok := (right.succeeds 1024 _ rfl (malloc_eq (by decide) gap)).1
    have no : (NEWSUB (image 512 768) 4 (some 1024)).2 = false := by decide
    rw [no] at ok
    cases ok

/-- The first one gets its memory. -/
theorem first_task_right : Right (image 0 0) [] 4 (some 1024) := by
  have ready : Ready (image 0 0) [] := by
    refine ⟨by decide, rfl, rfl, ⟨by decide, ?_, List.nodup_nil⟩, by decide, by decide⟩
    exact (by decide : (16 : ℕ) ≤ 16 + 64)
  refine (newsub_right_iff ready ?_).mpr fun l₁ a l₂ found _ => ⟨Or.inl rfl, ?_⟩
  · rintro i ⟨⟩
    decide
  · obtain rfl : [] = l₂ := by
      have gap : ((image 0 0).main []).fndgap 4 = some ([], 16, []) := by decide
      cases gap.symm.trans found
      rfl
    exact ⟨rfl, rfl, rfl, rfl, by decide, by decide⟩

end RSX280.Newsub
