import RSX280.Subpars

/-!
# Main partitions in the system image (`vmr/pars.mac`, `vmr/main.mac`)

`SET /PAR` puts a new main partition into the list `$PLIST`, at a base and with a size that are given or left
to the virtual MCR. `NEWPAR` is one loop for the four cases: with a wildcard base it looks for a gap from page
16 on, and with a wildcard size it takes what there is. `SET /NOPAR` takes a partition out of the list and
`SET /TOP` moves the end of one.

`Sound` says how the partitions lie, and `Wanted` where a new one should be. The gap behind the last partition
is not compared with the end of the memory, an explicit size of zero is not refused, and behind a partition
that ends below page 16 a wildcard base is below page 16, too; `Meets` leaves these requests out, and
`runs_right` has what the commands do otherwise.
-/

namespace RSX280.Newpar

open Spans
open Subpars (add16 sub16 add16_of_lt sub16_of_le)

/-! ### The partitions -/

/-- A main partition: its control block with the subpartitions in the list `P.SUB`. -/
structure Part where
  /-- `P.NAME` -/
  name : List UInt8
  /-- `P.BASE` -/
  base : ℕ
  /-- `P.SIZE` -/
  size : ℕ
  /-- `PA.SYS` -/
  sys : Bool
  /-- bases and sizes of the subpartitions -/
  sub : List (ℕ × ℕ)
  deriving DecidableEq, Repr

/-- The page behind a partition. -/
def Part.top (p : Part) : ℕ := p.base + p.size

/-- `FNDPAR`: the partitions before the one with this name, and those behind it. -/
def FNDPAR (name : List UInt8) : List Part → Option (List Part × Part × List Part)
  | [] => none
  | p :: l => if p.name = name then some ([], p, l) else (FNDPAR name l).map fun g => (p :: g.1, g.2)

/-! ### `NEWPAR` -/

/-- The loop `np3` with the wildcard mask `wb`, `ws`: the partitions before the new one, `BASE`, `SIZE` at `np10`,
and the partitions behind it. -/
def np3 (wb ws : Bool) (SIZE : ℕ) : ℕ → List Part → Option (List Part × ℕ × ℕ × List Part)
  | BASE, [] => some ([], BASE, SIZE, [])
  | BASE, p :: l =>
    let np5 :=
      if 0x1000 ≤ add16 p.base p.size then none
      else (np3 wb ws SIZE (add16 p.base p.size) l).map fun g => (p :: g.1, g.2)
    if wb then
      if BASE < p.base then
        if ws then some ([], BASE, p.base, p :: l)
        else if SIZE ≤ sub16 p.base BASE then some ([], BASE, SIZE, p :: l)
        else np5
      else np5
    else if BASE < p.base then
      if ws then some ([], BASE, p.base, p :: l)
      else if SIZE ≤ sub16 p.base BASE then some ([], BASE, SIZE, p :: l)
      else none
    else if add16 p.base p.size ≤ BASE then (np3 wb ws SIZE BASE l).map fun g => (p :: g.1, g.2)
    else none

/-- `NEWPAR` up to `np11`, with none for a wildcard: where the new partition is to be. -/
def place (base size : Option ℕ) (l : List Part) : Option (List Part × ℕ × ℕ × List Part) :=
  match np3 base.isNone size.isNone (size.getD 4096) (base.getD 16) l with
  | none => none
  | some (l₁, BASE, SIZE, l₂) =>
    if size.isNone then
      if sub16 SIZE BASE = 0 then none else some (l₁, BASE, sub16 SIZE BASE, l₂)
    else some (l₁, BASE, SIZE, l₂)

/-- `NEWPAR`. `kalloc` says whether the pool has room for the control block. -/
def NEWPAR (base size : Option ℕ) (name : List UInt8) (sys kalloc : Bool) (l : List Part) : Option (List Part) :=
  match place base size l with
  | none => none
  | some (l₁, BASE, SIZE, l₂) => if kalloc then some (l₁ ++ ⟨name, BASE, SIZE, sys, []⟩ :: l₂) else none

/-! ### The commands -/

/-- What `SET /TOP` asks for: a size, a change, or as much or as little as there can be. -/
inductive Top
  | size (n : ℕ)
  | up (n : ℕ)
  | down (n : ℕ)
  | max
  | min
  deriving DecidableEq, Repr

/-- A command, with what it finds in the system image: `kalloc` as above, and `busy` if `TSKPAR` finds a task in
the partition. -/
inductive Cmd
  | par (name : List UInt8) (base size : Option ℕ) (sys kalloc : Bool)
  | nopar (name : List UInt8) (busy : Bool)
  | top (name : List UInt8) (value : Top)
  deriving DecidableEq, Repr

/-- `SET /PAR`: none with an error message. -/
def stpar (name : List UInt8) (base size : Option ℕ) (sys kalloc : Bool) (l : List Part) : Option (List Part) :=
  if 4095 < base.getD 0 then none
  else if 4095 < size.getD 0 then none
  else if (FNDPAR name l).isSome then none
  else NEWPAR base size name sys kalloc l

/-- `SET /NOPAR`, with `REMPAR`. -/
def delpar (name : List UInt8) (busy : Bool) (l : List Part) : Option (List Part) :=
  match FNDPAR name l with
  | none => none
  | some (l₁, _, l₂) => if busy then none else some (l₁ ++ l₂)

/-- `mintop`: the end of the last subpartition, or the page behind the first one. -/
def mintop (p : Part) : ℕ :=
  match p.sub.getLast? with
  | none => add16 p.base 1
  | some s => add16 s.1 s.2

/-- `maxtop`: the base of the next partition, or the end of the memory. -/
def maxtop : List Part → ℕ
  | [] => 4096
  | q :: _ => q.base

/-- The new end, from `stt7` up to `stt10`. -/
def newtop (p : Part) (l₂ : List Part) : Top → Option ℕ
  | .size n => some (add16 n p.base)
  | .up n =>
    if 65536 ≤ add16 p.base p.size + n then none
    else if 4095 < add16 p.base p.size + n then none
    else some (add16 p.base p.size + n)
  | .down n => if add16 p.base p.size < n then none else some (add16 p.base p.size - n)
  | .max => some (maxtop l₂)
  | .min => some (mintop p)

/-- The number in the command. -/
def Top.number : Top → ℕ
  | .size n | .up n | .down n => n
  | .max | .min => 1

/-- `SET /TOP`. -/
def sttop (name : List UInt8) (value : Top) (l : List Part) : Option (List Part) :=
  if value.number = 0 then none
  else if 4095 < value.number then none
  else
    match FNDPAR name l with
    | none => none
    | some (l₁, p, l₂) =>
      match newtop p l₂ value with
      | none => none
      | some HL =>
        if HL < mintop p then none
        else if maxtop l₂ < HL then none
        else if sub16 HL p.base = 0 then none
        else some (l₁ ++ { p with size := sub16 HL p.base } :: l₂)

/-- A command; none if it is rejected. -/
def exec : Cmd → List Part → Option (List Part)
  | .par name base size sys kalloc => stpar name base size sys kalloc
  | .nopar name busy => delpar name busy
  | .top name value => sttop name value

/-- The list after a command. -/
def step (l : List Part) (c : Cmd) : List Part := (exec c l).getD l

def run (l : List Part) (cs : List Cmd) : List Part := cs.foldl step l

/-! ### What should hold -/

/-- The partitions are in the order of their bases, disjoint, not empty and below the end of the memory, and
contain their subpartitions. -/
structure Sound (l : List Part) : Prop where
  packed : Packed Part.base Part.size 0 l 4096
  pos : ∀ p ∈ l, 0 < p.size
  sub : ∀ p ∈ l, Packed Prod.fst Prod.snd p.base p.sub p.top

/-- No partition is in the `n` pages from `a` on. -/
def Clear (l : List Part) (n a : ℕ) : Prop := ∀ p ∈ l, a + n ≤ p.base ∨ p.top ≤ a

/-- There are `n` free pages from `a` on. -/
structure Free (l : List Part) (n a : ℕ) : Prop where
  memory : a + n ≤ 4096
  clear : Clear l n a

/-- The new partition should have `n` pages from `a` on. `B` and `S` are what the request has for its base and
its size. -/
structure Wanted (l : List Part) (B S : Option ℕ) (a n : ℕ) : Prop where
  pos : 0 < n
  free : Free l n a
  base : ∀ b, B = some b → a = b
  first : B = none → 16 ≤ a ∧ ∀ a', 16 ≤ a' → a' < a → ¬Free l (S.getD 1) a'
  size : ∀ s, S = some s → n = s
  rest : S = none → ¬Free l (n + 1) a

/-- The request is one that is taken: the numbers are valid, the name is new and there is a control block. -/
structure Valid (l : List Part) (name : List UInt8) (B S : Option ℕ) (kalloc : Bool) : Prop where
  base : B.getD 0 ≤ 4095
  size : S.getD 0 ≤ 4095
  name : FNDPAR name l = none
  kalloc : kalloc = true

/-- `SET /PAR` makes the partition that is wanted, or there is none and it is rejected. -/
def RightPar (l : List Part) (name : List UInt8) (B S : Option ℕ) (sys kalloc : Bool)
    (r : Option (List Part)) : Prop :=
  (∃ a n l₁ l₂, Valid l name B S kalloc ∧ Wanted l B S a n ∧ l = l₁ ++ l₂ ∧
    r = some (l₁ ++ ⟨name, a, n, sys, []⟩ :: l₂)) ∨
  ((Valid l name B S kalloc → ∀ a n, ¬Wanted l B S a n) ∧ r = none)

/-- A command does what it should. -/
def Right (l : List Part) : Cmd → Option (List Part) → Prop
  | .par name B S sys kalloc, r => RightPar l name B S sys kalloc r
  | .nopar name _, r => r = none ∨ ∃ l₁ p l₂, l = l₁ ++ p :: l₂ ∧ p.name = name ∧ r = some (l₁ ++ l₂)
  | .top name _, r =>
    r = none ∨ ∃ l₁ p l₂ n, l = l₁ ++ p :: l₂ ∧ p.name = name ∧ r = some (l₁ ++ { p with size := n } :: l₂)

/-- The pages that a gap must have. -/
def need (S : Option ℕ) : ℕ := max 1 (S.getD 1)

/-- The requests that `NEWPAR` can be given.

A size of zero is one for which there is not even one page. For a wildcard base no partition may end below page
16, unless what is behind it is too small. And where the new partition comes behind all others, it must end
below the end of the memory. -/
structure Meets (l : List Part) (B S : Option ℕ) : Prop where
  zero : S = some 0 → ∀ a, (∀ b, B = some b → a = b) → (B = none → 16 ≤ a) → ¬Free l 1 a
  low : B = none → ∀ l₁ p l₂, l = l₁ ++ p :: l₂ → p.top < 16 → ∃ q t, l₂ = q :: t ∧ q.base < p.top + need S
  fixed : ∀ b n, B = some b → S = some n → (∀ p ∈ l, p.top ≤ b) → b + n ≤ 4096
  wild : ∀ n, B = none → S = some n → (∀ p ∈ l, ∀ a, 16 ≤ a → a + need S ≤ p.base → ¬Clear l (need S) a) →
    top Part.base Part.size 16 l + n ≤ 4096 ∨ top Part.base Part.size 16 l = 4096

section

variable {l l₁ l₂ : List Part} {p q : Part} {B S : Option ℕ} {a b n m lo SIZE : ℕ} {ws : Bool}

/-! ### The loop -/

/-- Where the loop leaves: a gap of `m` pages in front of a partition, or the end of the list. -/
structure Found (l : List Part) (ws : Bool) (SIZE m : ℕ) (l₁ : List Part) (a n : ℕ) (l₂ : List Part) : Prop where
  split : l = l₁ ++ l₂
  before : ∀ p ∈ l₁, p.top ≤ a
  behind : (l₂ = [] ∧ n = SIZE) ∨ ∃ q t, l₂ = q :: t ∧ a + m ≤ q.base ∧ n = if ws then q.base else SIZE

/-- The gap that is large enough for the loop. -/
theorem fits_iff (hm : m = if ws then 1 else max 1 SIZE) (hq : q.base < 65536) :
    (b < q.base ∧ (ws = false → SIZE ≤ sub16 q.base b)) ↔ b + m ≤ q.base := by
  cases ws with
  | true =>
    rw [hm, if_pos rfl]
    exact ⟨fun h => h.1, fun h => ⟨h, fun no => Bool.noConfusion no⟩⟩
  | false =>
    rw [hm, if_neg Bool.false_ne_true]
    constructor
    · rintro ⟨lt, le⟩
      have le := le rfl
      rw [sub16_of_le lt.le hq] at le
      omega
    · intro le
      have lt : b < q.base := by omega
      rw [sub16_of_le lt.le hq]
      exact ⟨lt, fun _ => by omega⟩

theorem np3_wild_cons (hm : m = if ws then 1 else max 1 SIZE) (hq : q.top < 65536) :
    np3 true ws SIZE b (q :: l) =
      if b + m ≤ q.base then some ([], b, if ws then q.base else SIZE, q :: l)
      else if 4096 ≤ q.top then none
      else (np3 true ws SIZE q.top l).map fun g => (q :: g.1, g.2) := by
  have base : q.base < 65536 := Nat.lt_of_le_of_lt (Nat.le_add_right ..) hq
  have end_eq : add16 q.base q.size = q.top := add16_of_lt hq
  have fits := fits_iff (b := b) hm base
  rw [np3, end_eq, if_pos rfl]
  by_cases lt : b < q.base
  · rw [if_pos lt]
    cases ws with
    | true => rw [if_pos rfl, if_pos (fits.mp ⟨lt, fun no => Bool.noConfusion no⟩), if_pos rfl]
    | false =>
      rw [if_neg Bool.false_ne_true]
      by_cases le : SIZE ≤ sub16 q.base b
      · rw [if_pos le, if_pos (fits.mp ⟨lt, fun _ => le⟩), if_neg Bool.false_ne_true]
      · rw [if_neg le, if_neg fun fit => le ((fits.mpr fit).2 rfl)]
  · rw [if_neg lt, if_neg fun fit => lt (fits.mpr fit).1]

theorem np3_fixed_cons (hm : m = if ws then 1 else max 1 SIZE) (hq : q.top < 65536) :
    np3 false ws SIZE b (q :: l) =
      if b + m ≤ q.base then some ([], b, if ws then q.base else SIZE, q :: l)
      else if q.top ≤ b then (np3 false ws SIZE b l).map fun g => (q :: g.1, g.2)
      else none := by
  have base : q.base < 65536 := Nat.lt_of_le_of_lt (Nat.le_add_right ..) hq
  have end_eq : add16 q.base q.size = q.top := add16_of_lt hq
  have fits := fits_iff (b := b) hm base
  rw [np3, end_eq, if_neg Bool.false_ne_true]
  by_cases lt : b < q.base
  · have beyond : ¬q.top ≤ b := Nat.not_le_of_lt (lt.trans_le (Nat.le_add_right ..))
    rw [if_pos lt, if_neg beyond]
    cases ws with
    | true => rw [if_pos rfl, if_pos (fits.mp ⟨lt, fun no => Bool.noConfusion no⟩), if_pos rfl]
    | false =>
      rw [if_neg Bool.false_ne_true]
      by_cases le : SIZE ≤ sub16 q.base b
      · rw [if_pos le, if_pos (fits.mp ⟨lt, fun _ => le⟩), if_neg Bool.false_ne_true]
      · rw [if_neg le, if_neg fun fit => le ((fits.mpr fit).2 rfl)]
  · rw [if_neg lt, if_neg fun fit => lt (fits.mpr fit).1]

/-- The gap at a base that is given. -/
theorem np3_fixed_some (hm : m = if ws then 1 else max 1 SIZE) (hp : Packed Part.base Part.size lo l 4096)
    (h : np3 false ws SIZE b l = some (l₁, a, n, l₂)) : a = b ∧ Found l ws SIZE m l₁ a n l₂ := by
  induction l generalizing lo l₁ with
  | nil =>
    cases h
    exact ⟨rfl, rfl, List.forall_mem_nil _, Or.inl ⟨rfl, rfl⟩⟩
  | cons q l ih =>
    have hq : q.top < 65536 := Nat.lt_of_le_of_lt hp.2.le (by decide)
    rw [np3_fixed_cons hm hq] at h
    split at h
    · next fits =>
      cases h
      exact ⟨rfl, rfl, List.forall_mem_nil _, Or.inr ⟨q, l, rfl, fits, rfl⟩⟩
    · split at h
      · next le =>
        obtain ⟨⟨k₁, g⟩, hk, he⟩ := Option.map_eq_some_iff.mp h
        cases he
        obtain ⟨rfl, found⟩ := ih hp.2 hk
        exact ⟨rfl, congrArg (q :: ·) found.split, List.forall_mem_cons.mpr ⟨le, found.before⟩, found.behind⟩
      · cases h

theorem np3_fixed_none (hm : m = if ws then 1 else max 1 SIZE) (hp : Packed Part.base Part.size lo l 4096)
    (h : np3 false ws SIZE b l = none) : ¬Clear l m b := by
  induction l generalizing lo with
  | nil => cases h
  | cons q l ih =>
    have hq : q.top < 65536 := Nat.lt_of_le_of_lt hp.2.le (by decide)
    rw [np3_fixed_cons hm hq] at h
    intro clear
    obtain ⟨first, rest⟩ := List.forall_mem_cons.mp clear
    split at h
    · cases h
    · next small =>
      split at h
      · exact ih hp.2 (Option.map_eq_none_iff.mp h) rest
      · next beyond => exact first.elim small beyond

/-- What `low` of a request says, in the rest of the list, with the loop at `b`. -/
structure At (l : List Part) (m b : ℕ) : Prop where
  place : 16 ≤ b ∨ ∃ q t, l = q :: t ∧ q.base < b + m
  low : ∀ l₁ p l₂, l = l₁ ++ p :: l₂ → p.top < 16 → ∃ q t, l₂ = q :: t ∧ q.base < p.top + m

theorem At.next (h : At (q :: l) m b) : At l m q.top where
  place := by
    rcases Nat.lt_or_ge q.top 16 with small | large
    · exact Or.inr (h.low [] q l rfl small)
    · exact Or.inl large
  low l₁ p l₂ eq := h.low (q :: l₁) p l₂ (congrArg (q :: ·) eq)

/-- The first gap from page 16 on. -/
theorem np3_wild_some (hm : m = if ws then 1 else max 1 SIZE) (hp : Packed Part.base Part.size lo l 4096)
    (hlo : lo ≤ b) (hat : At l m b) (small : b < 4096) (h : np3 true ws SIZE b l = some (l₁, a, n, l₂)) :
    (lo ≤ a ∧ 16 ≤ a ∧ a < 4096) ∧ (∀ a', 16 ≤ a' → b ≤ a' → a' < a → ¬Clear l m a') ∧
      (l₂ = [] → a = Spans.top Part.base Part.size b l) ∧ Found l ws SIZE m l₁ a n l₂ := by
  induction l generalizing lo b l₁ with
  | nil =>
    cases h
    have least : 16 ≤ a := by
      rcases hat.place with least | ⟨q, t, no, -⟩
      · exact least
      · cases no
    exact ⟨⟨hlo, least, small⟩, fun a' _ le lt => absurd le (Nat.not_le_of_lt lt), fun _ => rfl, rfl,
      List.forall_mem_nil _, Or.inl ⟨rfl, rfl⟩⟩
  | cons q l ih =>
    have hq : q.top < 65536 := Nat.lt_of_le_of_lt hp.2.le (by decide)
    rw [np3_wild_cons hm hq] at h
    split at h
    · next fits =>
      cases h
      have least : 16 ≤ a := by
        rcases hat.place with least | ⟨q', t, eq, no⟩
        · exact least
        · cases eq
          exact absurd fits (Nat.not_le_of_lt no)
      exact ⟨⟨hlo, least, small⟩, fun a' _ le lt => absurd le (Nat.not_le_of_lt lt), fun no => absurd no (List.cons_ne_nil q l),
        rfl, List.forall_mem_nil _, Or.inr ⟨q, l, rfl, fits, rfl⟩⟩
    · next close =>
      split at h
      · cases h
      · next inside =>
        obtain ⟨⟨k₁, g⟩, hk, he⟩ := Option.map_eq_some_iff.mp h
        cases he
        obtain ⟨⟨le, bounds⟩, none, last, found⟩ := ih hp.2 le_rfl hat.next (Nat.lt_of_not_le inside) hk
        have ordered : lo ≤ q.top := hp.1.trans (Nat.le_add_right ..)
        refine ⟨⟨ordered.trans le, bounds⟩, fun a' h16 hb ha clear => ?_, last, congrArg (q :: ·) found.split,
          List.forall_mem_cons.mpr ⟨le, found.before⟩, found.behind⟩
        obtain ⟨first, rest⟩ := List.forall_mem_cons.mp clear
        rcases first with front | past
        · omega
        · exact none a' h16 past ha rest

theorem np3_wild_none (hm : m = if ws then 1 else max 1 SIZE) (hp : Packed Part.base Part.size lo l 4096)
    (h : np3 true ws SIZE b l = none) (hb : b ≤ a) (fits : a + m ≤ 4096) : ¬Clear l m a := by
  have pos : 1 ≤ m := by
    rw [hm]
    split <;> omega
  induction l generalizing lo b with
  | nil => cases h
  | cons q l ih =>
    have hq : q.top < 65536 := Nat.lt_of_le_of_lt hp.2.le (by decide)
    rw [np3_wild_cons hm hq] at h
    intro clear
    obtain ⟨first, rest⟩ := List.forall_mem_cons.mp clear
    split at h
    · cases h
    · next close =>
      have past : q.top ≤ a := by
        rcases first with front | past
        · omega
        · exact past
      split at h
      · next full => omega
      · exact ih hp.2 (Option.map_eq_none_iff.mp h) past rest

/-! ### `NEWPAR` -/

theorem Found.clear (h : Found l ws SIZE m l₁ a n l₂) (hp : Packed Part.base Part.size 0 l 4096) : Clear l m a := by
  intro p hmem
  rw [h.split] at hmem hp
  rcases List.mem_append.mp hmem with front | back
  · exact Or.inr (h.before p front)
  · rcases h.behind with ⟨rfl, -⟩ | ⟨q, t, rfl, fits, -⟩
    · cases back
    · obtain ⟨-, -, behind⟩ := packed_append.mp hp
      rcases List.mem_cons.mp back with rfl | later
      · exact Or.inl fits
      · exact Or.inl (fits.trans ((Nat.le_add_right ..).trans (behind.within later).1))

theorem Clear.mono (h : Clear l n a) (hn : m ≤ n) : Clear l m a := fun p hmem =>
  (h p hmem).imp_left (Nat.add_le_add_left hn a).trans

theorem need_eq : need S = if S.isNone then 1 else max 1 (S.getD 4096) := by
  cases S with
  | none => rfl
  | some s => rfl

theorem need_pos : 1 ≤ need S := Nat.le_max_left ..

/-- What the loop finds for a request. -/
structure Place (l : List Part) (B S : Option ℕ) (l₁ : List Part) (a n : ℕ) (l₂ : List Part) : Prop where
  found : Found l S.isNone (S.getD 4096) (need S) l₁ a n l₂
  small : a < 4096
  base : ∀ b, B = some b → a = b
  first : B = none → 16 ≤ a ∧ ∀ a', 16 ≤ a' → a' < a → ¬Clear l (need S) a'
  last : B = none → l₂ = [] → a = Spans.top Part.base Part.size 16 l

theorem np3_some (hl : Sound l) (hB : B.getD 0 ≤ 4095) (meets : Meets l B S)
    (h : np3 B.isNone S.isNone (S.getD 4096) (B.getD 16) l = some (l₁, a, n, l₂)) : Place l B S l₁ a n l₂ := by
  cases B with
  | some b =>
    obtain ⟨rfl, found⟩ := np3_fixed_some need_eq hl.packed h
    exact ⟨found, Nat.lt_succ_of_le hB, fun _ eq => Option.some.inj eq, fun no => absurd no (Option.some_ne_none a),
      fun no => absurd no (Option.some_ne_none a)⟩
  | none =>
    have hat : At l (need S) 16 := ⟨Or.inl le_rfl, meets.low rfl⟩
    obtain ⟨⟨-, least, small⟩, first, last, found⟩ :=
      np3_wild_some need_eq hl.packed (Nat.zero_le _) hat (by decide) h
    exact ⟨found, small, fun b no => absurd no.symm (Option.some_ne_none b),
      fun _ => ⟨least, fun a' h16 lt => first a' h16 h16 lt⟩, fun _ => last⟩

theorem np3_none (hl : Sound l) (h : np3 B.isNone S.isNone (S.getD 4096) (B.getD 16) l = none) :
    ¬Wanted l B S a n := by
  intro wanted
  have enough : need S ≤ n := by
    cases S with
    | none => exact wanted.pos
    | some s =>
      obtain rfl := wanted.size s rfl
      exact max_le wanted.pos le_rfl
  have clear : Clear l (need S) a := wanted.free.clear.mono enough
  have fits : a + need S ≤ 4096 := (Nat.add_le_add_left enough a).trans wanted.free.memory
  cases B with
  | some b =>
    obtain rfl := wanted.base b rfl
    exact np3_fixed_none need_eq hl.packed h clear
  | none => exact np3_wild_none need_eq hl.packed h (wanted.first rfl).1 fits clear

/-- A size of zero that `Meets` allows finds no gap. -/
theorem Place.size_ne (h : Place l B S l₁ a n l₂) (hl : Sound l) (meets : Meets l B S) : S ≠ some 0 := by
  rintro rfl
  have clear : Clear l 1 a := h.found.clear hl.packed
  exact meets.zero rfl a h.base (fun none => (h.first none).1) ⟨h.small, clear⟩

/-- The gap of a wildcard size. -/
theorem Place.rest (h : Place l B none l₁ a n l₂) (hl : Sound l) :
    a < n ∧ n ≤ 4096 ∧ Clear l (n - a) a ∧ ¬Free l (n - a + 1) a := by
  rcases h.found.behind with ⟨rfl, rfl⟩ | ⟨q, t, rfl, fits, size⟩
  · have alone : Clear l (4096 - a) a := by
      intro p hmem
      rw [h.found.split, List.append_nil] at hmem
      exact Or.inr (h.found.before p hmem)
    refine ⟨h.small, le_rfl, alone, fun free => ?_⟩
    have small := h.small
    have memory := free.memory
    change a + (4096 - a + 1) ≤ 4096 at memory
    omega
  · obtain rfl : n = q.base := size
    have fits : a + 1 ≤ q.base := fits
    have hq : q ∈ l := by
      rw [h.found.split]
      exact List.mem_append_right _ List.mem_cons_self
    have inside : q.base + q.size ≤ 4096 := (hl.packed.within hq).2
    have whole : Found l true 4096 (q.base - a) l₁ a q.base (q :: t) :=
      ⟨h.found.split, h.found.before, Or.inr ⟨q, t, rfl, by omega, rfl⟩⟩
    refine ⟨fits, by omega, whole.clear hl.packed, fun free => ?_⟩
    have top_eq : q.top = q.base + q.size := rfl
    rcases free.clear q hq with front | past
    · omega
    · omega

/-- The gap of a size that is given. -/
theorem Place.free {s : ℕ} (h : Place l B (some s) l₁ a n l₂) (hl : Sound l) (meets : Meets l B (some s)) :
    n = s ∧ Free l s a := by
  have clear : Clear l s a := (h.found.clear hl.packed).mono (Nat.le_max_right ..)
  rcases h.found.behind with ⟨rfl, size⟩ | ⟨q, t, rfl, fits, size⟩
  · refine ⟨size, ?_, clear⟩
    have split : l = l₁ := h.found.split.trans (List.append_nil l₁)
    cases B with
    | some b =>
      obtain rfl := h.base b rfl
      exact meets.fixed a s rfl rfl (split ▸ h.found.before)
    | none =>
      have last := h.last rfl rfl
      have closed : ∀ p ∈ l, ∀ a', 16 ≤ a' → a' + need (some s) ≤ p.base → ¬Clear l (need (some s)) a' := by
        intro p hmem a' h16 room
        have before : p.base + p.size ≤ a := h.found.before p (split ▸ hmem)
        have pos : 1 ≤ need (some s) := need_pos
        exact (h.first rfl).2 a' h16 (by omega)
      have small := h.small
      rcases meets.wild s rfl rfl closed with fits | full
      · rwa [← last] at fits
      · omega
  · have hq : q ∈ l := by
      rw [h.found.split]
      exact List.mem_append_right _ List.mem_cons_self
    have inside : q.base + q.size ≤ 4096 := (hl.packed.within hq).2
    have large : s ≤ need (some s) := Nat.le_max_right ..
    exact ⟨size, by omega, clear⟩

/-! ### What `SET /PAR` does -/

/-- The place is the one that is wanted. -/
theorem place_some (hl : Sound l) (hB : B.getD 0 ≤ 4095) (meets : Meets l B S)
    (h : place B S l = some (l₁, a, n, l₂)) :
    Wanted l B S a n ∧ l = l₁ ++ l₂ ∧ (∀ p ∈ l₁, p.top ≤ a) ∧ ∀ p ∈ l₂.head?, a < p.base := by
  rw [place] at h
  cases hk : np3 B.isNone S.isNone (S.getD 4096) (B.getD 16) l with
  | none =>
    rw [hk] at h
    cases h
  | some g =>
    obtain ⟨k₁, BASE, SIZE, k₂⟩ := g
    rw [hk] at h
    have at_gap := np3_some hl hB meets hk
    have behind : ∀ p ∈ k₂.head?, BASE < p.base := by
      rcases at_gap.found.behind with ⟨rfl, -⟩ | ⟨q, t, rfl, fits, -⟩
      · intro p no
        cases no
      · intro p eq
        obtain rfl := Option.some.inj eq
        exact (Nat.lt_add_of_pos_right need_pos).trans_le fits
    cases S with
    | none =>
      obtain ⟨lt, le, clear, most⟩ := at_gap.rest hl
      have size_eq : sub16 SIZE BASE = SIZE - BASE := sub16_of_le lt.le (by omega)
      simp only [Option.isNone_none, if_true, size_eq] at h
      rw [if_neg (Nat.sub_ne_zero_of_lt lt)] at h
      cases h
      refine ⟨⟨Nat.sub_pos_of_lt lt, ⟨by omega, clear⟩, at_gap.base, fun none => ?_, fun s no => ?_, fun _ => most⟩,
        at_gap.found.split, at_gap.found.before, behind⟩
      · obtain ⟨least, first⟩ := at_gap.first none
        exact ⟨least, fun a' h16 lt free => first a' h16 lt free.clear⟩
      · exact absurd no.symm (Option.some_ne_none s)
    | some s =>
      obtain ⟨size_eq, free⟩ := at_gap.free hl meets
      cases h
      have pos : 0 < s := Nat.pos_of_ne_zero fun zero => at_gap.size_ne hl meets (congrArg some zero)
      have need_eq : need (some s) = s := max_eq_right pos
      refine ⟨⟨size_eq ▸ pos, size_eq ▸ free, at_gap.base, fun none => ?_, fun s' eq => ?_, fun no => ?_⟩,
        at_gap.found.split, at_gap.found.before, behind⟩
      · obtain ⟨least, first⟩ := at_gap.first none
        rw [need_eq] at first
        exact ⟨least, fun a' h16 lt free => first a' h16 lt free.clear⟩
      · exact size_eq.trans (Option.some.inj eq)
      · exact absurd no (Option.some_ne_none s)

/-- If there is no place, none is wanted. -/
theorem place_none (hl : Sound l) (hB : B.getD 0 ≤ 4095) (meets : Meets l B S) (h : place B S l = none) :
    ¬Wanted l B S a n := by
  rw [place] at h
  cases hk : np3 B.isNone S.isNone (S.getD 4096) (B.getD 16) l with
  | none => exact np3_none hl hk
  | some g =>
    obtain ⟨k₁, BASE, SIZE, k₂⟩ := g
    rw [hk] at h
    have at_gap := np3_some hl hB meets hk
    cases S with
    | none =>
      obtain ⟨lt, le, -, -⟩ := at_gap.rest hl
      have size_eq : sub16 SIZE BASE = SIZE - BASE := sub16_of_le lt.le (by omega)
      simp only [Option.isNone_none, if_true, size_eq] at h
      rw [if_neg (Nat.sub_ne_zero_of_lt lt)] at h
      cases h
    | some s => cases h

theorem stpar_right (hl : Sound l) {name : List UInt8} {sys kalloc : Bool} (meets : Meets l B S) :
    RightPar l name B S sys kalloc (stpar name B S sys kalloc l) := by
  rw [stpar]
  split
  · next no => exact Or.inr ⟨fun valid => absurd valid.base (Nat.not_le_of_lt no), rfl⟩
  · next hB =>
    split
    · next no => exact Or.inr ⟨fun valid => absurd valid.size (Nat.not_le_of_lt no), rfl⟩
    · next hS =>
      split
      · next no =>
        refine Or.inr ⟨fun valid => ?_, rfl⟩
        rw [valid.name] at no
        cases no
      · next new =>
        have new : FNDPAR name l = none := Option.not_isSome_iff_eq_none.mp new
        have hB : B.getD 0 ≤ 4095 := Nat.le_of_not_lt hB
        rw [NEWPAR]
        cases hk : place B S l with
        | none => exact Or.inr ⟨fun _ a n => place_none hl hB meets hk, rfl⟩
        | some g =>
          obtain ⟨l₁, a, n, l₂⟩ := g
          obtain ⟨wanted, split, -, -⟩ := place_some hl hB meets hk
          cases kalloc with
          | true => exact Or.inl ⟨a, n, l₁, l₂, ⟨hB, Nat.le_of_not_lt hS, new, rfl⟩, wanted, split, rfl⟩
          | false => exact Or.inr ⟨fun valid => Bool.noConfusion valid.kalloc, rfl⟩

/-! ### The lists -/

theorem FNDPAR_some {name : List UInt8} (h : FNDPAR name l = some (l₁, p, l₂)) :
    l = l₁ ++ p :: l₂ ∧ p.name = name := by
  induction l generalizing l₁ with
  | nil => cases h
  | cons q l ih =>
    rw [FNDPAR] at h
    split at h
    · next same =>
      cases h
      exact ⟨rfl, same⟩
    · obtain ⟨⟨k₁, g⟩, hk, he⟩ := Option.map_eq_some_iff.mp h
      cases he
      obtain ⟨split, same⟩ := ih hk
      exact ⟨congrArg (q :: ·) split, same⟩

theorem Sound.insert (hl : Sound l) (wanted : Wanted l B S a n) (split : l = l₁ ++ l₂) (before : ∀ p ∈ l₁, p.top ≤ a)
    (behind : ∀ p ∈ l₂.head?, a < p.base) (name : List UInt8) (sys : Bool) :
    Sound (l₁ ++ ⟨name, a, n, sys, []⟩ :: l₂) := by
  subst split
  obtain ⟨packed₁, packed₂⟩ := packed_append.mp hl.packed
  have fits : Packed Part.base Part.size (a + n) l₂ 4096 := by
    cases l₂ with
    | nil => exact wanted.free.memory
    | cons q t =>
      have lt : a < q.base := behind q rfl
      rcases wanted.free.clear q (List.mem_append_right _ List.mem_cons_self) with front | past
      · exact ⟨front, packed₂.2⟩
      · exact absurd past (Nat.not_le_of_lt (lt.trans_le (Nat.le_add_right ..)))
  refine ⟨packed_append.mpr ⟨packed₁, top_le (Nat.zero_le _) before, fits⟩, fun p hp => ?_, fun p hp => ?_⟩
  · rcases List.mem_append.mp hp with hp | hp
    · exact hl.pos p (List.mem_append_left _ hp)
    · rcases List.mem_cons.mp hp with rfl | hp
      · exact wanted.pos
      · exact hl.pos p (List.mem_append_right _ hp)
  · rcases List.mem_append.mp hp with hp | hp
    · exact hl.sub p (List.mem_append_left _ hp)
    · rcases List.mem_cons.mp hp with rfl | hp
      · exact Nat.le_add_right ..
      · exact hl.sub p (List.mem_append_right _ hp)

theorem Sound.remove (hl : Sound (l₁ ++ p :: l₂)) : Sound (l₁ ++ l₂) := by
  have sub : ∀ q ∈ l₁ ++ l₂, q ∈ l₁ ++ p :: l₂ := fun q hq =>
    List.mem_append.mpr ((List.mem_append.mp hq).imp_right (List.mem_cons_of_mem p))
  exact ⟨hl.packed.remove, fun q hq => hl.pos q (sub q hq), fun q hq => hl.sub q (sub q hq)⟩

/-- A partition may end where its last subpartition does, and where the next partition begins. -/
theorem Sound.resize (hl : Sound (l₁ ++ p :: l₂)) (pos : 0 < n)
    (sub : Packed Prod.fst Prod.snd p.base p.sub (p.base + n)) (fits : p.base + n ≤ maxtop l₂) :
    Sound (l₁ ++ { p with size := n } :: l₂) := by
  obtain ⟨packed₁, ordered, packed₂⟩ := packed_append.mp hl.packed
  have behind : Packed Part.base Part.size (p.base + n) l₂ 4096 := by
    cases l₂ with
    | nil => exact fits
    | cons q t => exact ⟨fits, packed₂.2⟩
  refine ⟨packed_append.mpr ⟨packed₁, ordered, behind⟩, fun q hq => ?_, fun q hq => ?_⟩
  · rcases List.mem_append.mp hq with hq | hq
    · exact hl.pos q (List.mem_append_left _ hq)
    · rcases List.mem_cons.mp hq with rfl | hq
      · exact pos
      · exact hl.pos q (List.mem_append_right _ (List.mem_cons_of_mem p hq))
  · rcases List.mem_append.mp hq with hq | hq
    · exact hl.sub q (List.mem_append_left _ hq)
    · rcases List.mem_cons.mp hq with rfl | hq
      · exact sub
      · exact hl.sub q (List.mem_append_right _ (List.mem_cons_of_mem p hq))

theorem stpar_sound (hl : Sound l) {name : List UInt8} {sys kalloc : Bool} (meets : Meets l B S) :
    Sound ((stpar name B S sys kalloc l).getD l) := by
  rw [stpar]
  split
  · exact hl
  · next hB =>
    split
    · exact hl
    · split
      · exact hl
      · rw [NEWPAR]
        cases hk : place B S l with
        | none => exact hl
        | some g =>
          obtain ⟨l₁, a, n, l₂⟩ := g
          obtain ⟨wanted, split, before, behind⟩ := place_some hl (Nat.le_of_not_lt hB) meets hk
          cases kalloc with
          | true => exact hl.insert wanted split before behind name sys
          | false => exact hl

/-- Where the subpartitions end. -/
theorem mintop_spec (hl : Sound (l₁ ++ p :: l₂)) (h : mintop p ≤ a) :
    p.base ≤ a ∧ Packed Prod.fst Prod.snd p.base p.sub a := by
  have hp : p ∈ l₁ ++ p :: l₂ := List.mem_append_right _ List.mem_cons_self
  have inside : p.top ≤ 4096 := (hl.packed.within hp).2
  have sub := hl.sub p hp
  rw [mintop] at h
  split at h
  · next nil =>
    have small : p.base ≤ p.top := Nat.le_add_right ..
    rw [add16_of_lt (by omega)] at h
    have le : p.base ≤ a := (Nat.le_succ _).trans h
    rw [List.getLast?_eq_none_iff.mp nil]
    exact ⟨le, le⟩
  · next s last =>
    have hs := sub.within (List.mem_of_getLast? last)
    rw [add16_of_lt (by omega)] at h
    have fits := (sub.last last).mono le_rfl h
    exact ⟨fits.le, fits⟩

theorem maxtop_le (hl : Sound (l₁ ++ p :: l₂)) : maxtop l₂ ≤ 4096 := by
  cases l₂ with
  | nil => exact le_rfl
  | cons q t =>
    have hq : q ∈ l₁ ++ p :: q :: t := List.mem_append_right _ (List.mem_cons_of_mem p List.mem_cons_self)
    exact (Nat.le_add_right ..).trans (hl.packed.within hq).2

theorem sttop_some {name : List UInt8} {value : Top} {l' : List Part} (hl : Sound l)
    (h : sttop name value l = some l') :
    Sound l' ∧ ∃ l₁ p l₂ n, l = l₁ ++ p :: l₂ ∧ p.name = name ∧ l' = l₁ ++ { p with size := n } :: l₂ := by
  rw [sttop] at h
  split at h
  · cases h
  · split at h
    · cases h
    · split at h
      · cases h
      · next l₁ p l₂ found =>
        obtain ⟨rfl, same⟩ := FNDPAR_some found
        split at h
        · cases h
        · next HL new =>
          split at h
          · cases h
          · next low =>
            split at h
            · cases h
            · next high =>
              split at h
              · cases h
              · next pos =>
                cases h
                obtain ⟨le, sub⟩ := mintop_spec hl (Nat.le_of_not_lt low)
                have top_le : HL ≤ maxtop l₂ := Nat.le_of_not_lt high
                have size_eq : sub16 HL p.base = HL - p.base :=
                  sub16_of_le le (Nat.lt_of_le_of_lt (top_le.trans (maxtop_le hl)) (by decide))
                have end_eq : p.base + sub16 HL p.base = HL := by
                  rw [size_eq]
                  exact Nat.add_sub_cancel' le
                refine ⟨hl.resize (Nat.pos_of_ne_zero pos) ?_ ?_, l₁, p, l₂, _, rfl, same, rfl⟩
                · rw [end_eq]
                  exact sub
                · rw [end_eq]
                  exact top_le

theorem delpar_some {name : List UInt8} {busy : Bool} {l' : List Part} (h : delpar name busy l = some l') :
    ∃ l₁ p l₂, l = l₁ ++ p :: l₂ ∧ p.name = name ∧ l' = l₁ ++ l₂ := by
  rw [delpar] at h
  split at h
  · cases h
  · next l₁ p l₂ found =>
    obtain ⟨split, same⟩ := FNDPAR_some found
    split at h
    · cases h
    · cases h
      exact ⟨l₁, p, l₂, split, same, rfl⟩

/-! ### Runs -/

/-- What a command must meet. -/
def Allowed (l : List Part) : Cmd → Prop
  | .par _ B S _ _ => Meets l B S
  | _ => True

theorem step_right (hl : Sound l) {c : Cmd} (allowed : Allowed l c) : Right l c (exec c l) ∧ Sound (step l c) := by
  cases c with
  | par name B S sys kalloc => exact ⟨stpar_right hl allowed, stpar_sound hl allowed⟩
  | nopar name busy =>
    cases h : delpar name busy l with
    | none =>
      refine ⟨Or.inl h, ?_⟩
      change Sound ((delpar name busy l).getD l)
      rw [h]
      exact hl
    | some l' =>
      obtain ⟨l₁, p, l₂, split, same, rfl⟩ := delpar_some h
      refine ⟨Or.inr ⟨l₁, p, l₂, split, same, h⟩, ?_⟩
      change Sound ((delpar name busy l).getD l)
      rw [h]
      exact (split ▸ hl).remove
  | top name value =>
    cases h : sttop name value l with
    | none =>
      refine ⟨Or.inl h, ?_⟩
      change Sound ((sttop name value l).getD l)
      rw [h]
      exact hl
    | some l' =>
      obtain ⟨sound, l₁, p, l₂, n, split, same, rfl⟩ := sttop_some hl h
      refine ⟨Or.inr ⟨l₁, p, l₂, n, split, same, h⟩, ?_⟩
      change Sound ((sttop name value l).getD l)
      rw [h]
      exact sound

/-- If no request of a run is one that `NEWPAR` cannot be given, the partitions lie as they should, and each command
does what it should. -/
theorem runs_right (l : List Part) (cs : List Cmd) (hl : Sound l)
    (h : ∀ pre c post, cs = pre ++ c :: post → Allowed (run l pre) c) :
    Sound (run l cs) ∧
      ∀ pre c post, cs = pre ++ c :: post → Right (run l pre) c (exec c (run l pre)) ∧ Sound (run l pre) := by
  induction cs generalizing l with
  | nil =>
    have none : ∀ pre c post, ([] : List Cmd) ≠ pre ++ c :: post := fun pre c post no =>
      List.append_ne_nil_of_right_ne_nil pre (List.cons_ne_nil c post) no.symm
    exact ⟨hl, fun pre c post no => absurd no (none pre c post)⟩
  | cons d cs ih =>
    obtain ⟨right, sound⟩ := step_right hl (h [] d cs rfl)
    obtain ⟨last, rest⟩ := ih (step l d) sound fun pre c post eq => h (d :: pre) c post (congrArg (d :: ·) eq)
    refine ⟨last, fun pre c post eq => ?_⟩
    cases pre with
    | nil =>
      cases eq
      exact ⟨right, hl⟩
    | cons e pre =>
      cases eq
      exact rest pre c post rfl

end

/-- A partition at page 100, and one in the gap before it. -/
theorem runs_right_two :
    Sound (run [] [.par [65] (some 100) (some 50) true true, .par [66] none none false true]) ∧
      run [] [.par [65] (some 100) (some 50) true true, .par [66] none none false true] =
        [⟨[66], 16, 84, false, []⟩, ⟨[65], 100, 50, true, []⟩] := by
  have empty : Sound [] := ⟨Nat.zero_le _, List.forall_mem_nil _, List.forall_mem_nil _⟩
  have first : Meets [] (some 100) (some 50) :=
    ⟨fun no => absurd no (by decide), fun no => absurd no (by decide), fun b n hb hn _ => by cases hb; cases hn; decide,
      fun n no => absurd no (by decide)⟩
  have second : Meets [⟨[65], 100, 50, true, []⟩] none none := by
    refine ⟨fun no => absurd no (by decide), fun _ l₁ p l₂ split low => ?_, fun b n no => absurd no.symm (by simp),
      fun n _ no => absurd no.symm (by simp)⟩
    have mem : p ∈ [(⟨[65], 100, 50, true, []⟩ : Part)] := by
      rw [split]
      exact List.mem_append_right _ List.mem_cons_self
    obtain rfl := List.mem_singleton.mp mem
    exact absurd low (by decide)
  refine ⟨(runs_right [] _ empty fun pre c post eq => ?_).1, by decide⟩
  rcases pre with - | ⟨d, - | ⟨e, pre⟩⟩
  · cases eq
    exact first
  · cases eq
    exact second
  · cases pre <;> cases eq

/-- Behind the last partition a size is not compared with the end of the memory, a size of zero is taken, and behind
a partition that ends below page 16 a wildcard base is below it. -/
theorem requests_wrong :
    Sound [] ∧ ¬Sound (run [] [.par [65] (some 4000) (some 200) true true]) ∧
      ¬Sound (run [] [.par [65] (some 100) (some 0) true true]) ∧
      run [] [.par [65] (some 0) (some 10) true true, .par [66] none (some 5) true true] =
        [⟨[65], 0, 10, true, []⟩, ⟨[66], 10, 5, true, []⟩] := by
  refine ⟨⟨Nat.zero_le _, List.forall_mem_nil _, List.forall_mem_nil _⟩, fun sound => ?_, fun sound => ?_, by decide⟩
  · exact absurd (sound.packed.within (i := ⟨[65], 4000, 200, true, []⟩) (by decide)).2 (by decide)
  · exact absurd (sound.pos ⟨[65], 100, 0, true, []⟩ (by decide)) (by decide)

end RSX280.Newpar
