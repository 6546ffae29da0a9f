import Mathlib.Data.Fintype.Card
import Mathlib.Logic.Function.Basic
import Mathlib.Tactic.Common

/-!
# Single-linked lists

Null-terminated lists threaded through nodes of a type `α`, any number of them
side by side, their heads named by a type `H`. A *cell* is a place that holds a
link: a list head or the link field of a node, so that "the previous link" is a
cell whether or not there is a previous node.

`Chain lk c l` says that the links `lk` run from cell `c` through the nodes of
`l` to a null link. Such an `l` is unique (`Chain.unique`) and repeats no node
(`Chain.nodup`): a list that is a chain is acyclic. The two updates hand-written
list code makes are `unlink` and `relink`; `Chain.unlink` and `Chain.relink` say
what they do to the chain they touch and `Chain.congr` that they leave every
other one alone.
-/

namespace RSX280

universe u v

/-- A place that holds a link. -/
inductive Cell (H : Type u) (α : Type v) where
  /-- the head of list `h` -/
  | head (h : H)
  /-- the link field of node `a` -/
  | node (a : α)
  deriving DecidableEq, Repr

/-- The contents of all cells; `none` is the null link. -/
abbrev Links (H : Type u) (α : Type v) : Type (max u v) := Cell H α → Option α

namespace Links

variable {H : Type u} {α : Type v}

/-! ## Chains -/

/-- From cell `c` the links run through the nodes of `l`; nothing is said about
the link of the last one. -/
def Path (lk : Links H α) : Cell H α → List α → Prop
  | _, [] => True
  | c, a :: l => lk c = some a ∧ Path lk (.node a) l

/-- From cell `c` the links run through the nodes of `l` to a null link. -/
def Chain (lk : Links H α) : Cell H α → List α → Prop
  | c, [] => lk c = none
  | c, a :: l => lk c = some a ∧ Chain lk (.node a) l

/-- The last cell of a chain from `c` through `l`. -/
def last (c : Cell H α) : List α → Cell H α
  | [] => c
  | a :: l => last (.node a) l

@[simp] theorem last_nil (c : Cell H α) : last c [] = c := rfl

@[simp] theorem last_cons (c : Cell H α) (a : α) (l : List α) :
    last c (a :: l) = last (.node a) l := rfl

@[simp] theorem chain_nil {lk : Links H α} {c : Cell H α} : Chain lk c [] ↔ lk c = none := Iff.rfl

@[simp] theorem chain_cons {lk : Links H α} {c : Cell H α} {a : α} {l : List α} :
    Chain lk c (a :: l) ↔ lk c = some a ∧ Chain lk (.node a) l := Iff.rfl

/-- The last cell is the first one or the last node. -/
theorem last_eq (c : Cell H α) (l : List α) : last c l = c ∨ ∃ a ∈ l, last c l = .node a := by
  induction l generalizing c with
  | nil => exact Or.inl rfl
  | cons a l ih =>
    rcases ih (.node a) with h | ⟨b, hb, h⟩
    · exact Or.inr ⟨a, List.mem_cons_self, h⟩
    · exact Or.inr ⟨b, List.mem_cons_of_mem _ hb, h⟩

theorem chain_append {lk : Links H α} {c : Cell H α} {l₁ l₂ : List α} :
    Chain lk c (l₁ ++ l₂) ↔ Path lk c l₁ ∧ Chain lk (last c l₁) l₂ := by
  induction l₁ generalizing c with
  | nil => simp [Path]
  | cons a l₁ ih => simp [Path, ih, and_assoc]

/-- The node a cell links to is on the chain from that cell. -/
theorem Chain.mem_of_link {lk : Links H α} {c : Cell H α} {l : List α} {a : α}
    (h : Chain lk c l) (ha : lk c = some a) : a ∈ l := by
  cases l with
  | nil => exact absurd (ha.symm.trans h) nofun
  | cons b l =>
    rw [Option.some.inj (ha.symm.trans h.1)]
    exact List.mem_cons_self

/-- Links determine the chain. -/
theorem Chain.unique {lk : Links H α} {c : Cell H α} {l l' : List α} (h : Chain lk c l)
    (h' : Chain lk c l') : l = l' := by
  induction l generalizing c l' with
  | nil =>
    cases l' with
    | nil => rfl
    | cons b l' => exact absurd (h.symm.trans h'.1) nofun
  | cons a l ih =>
    cases l' with
    | nil => exact absurd (h'.symm.trans h.1) nofun
    | cons b l' =>
      obtain rfl : a = b := Option.some.inj (h.1.symm.trans h'.1)
      rw [ih h.2 h'.2]

/-- A null-terminated chain is acyclic. -/
theorem Chain.nodup {lk : Links H α} {c : Cell H α} {l : List α} (h : Chain lk c l) :
    l.Nodup := by
  induction l generalizing c with
  | nil => exact List.nodup_nil
  | cons a l ih =>
    refine List.nodup_cons.mpr ⟨fun ha => ?_, ih h.2⟩
    -- the chain from the second occurrence of `a` would be as long as the one from the first
    obtain ⟨l₁, l₂, rfl⟩ := List.append_of_mem ha
    have h₂ : Chain lk (.node a) l₂ := (chain_append.mp h.2).2.2
    have hlen := congrArg List.length (h.2.unique h₂)
    simp only [List.length_append, List.length_cons] at hlen
    omega

theorem Path.congr {lk lk' : Links H α} {c : Cell H α} {l : List α} (h : Path lk c l)
    (hnd : (c :: l.map .node).Nodup)
    (hc : ∀ d ∈ c :: l.map .node, d ≠ last c l → lk' d = lk d) : Path lk' c l := by
  induction l generalizing c with
  | nil => trivial
  | cons a l ih =>
    obtain ⟨hcl, hnd'⟩ := List.nodup_cons.mp hnd
    have hne : c ≠ last c (a :: l) := by
      intro he
      rcases last_eq (.node a) l with h' | ⟨b, hb, h'⟩
      · exact hcl (by rw [he, last_cons, h']; exact List.mem_cons_self)
      · exact hcl (by rw [he, last_cons, h']; simpa using Or.inr hb)
    refine ⟨(hc c List.mem_cons_self hne).trans h.1, ih h.2 hnd' fun d hd hdl => ?_⟩
    exact hc d (List.mem_cons_of_mem _ hd) hdl

/-- A chain sees only its own cells; its first link may be moved to another cell. -/
theorem Chain.congr {lk lk' : Links H α} {c c' : Cell H α} {l : List α} (h : Chain lk c l)
    (hc : lk' c' = lk c) (hl : ∀ a ∈ l, lk' (.node a) = lk (.node a)) : Chain lk' c' l := by
  induction l generalizing c c' with
  | nil => exact hc.trans h
  | cons a l ih =>
    obtain ⟨ha, hl'⟩ := List.forall_mem_cons.mp hl
    exact ⟨hc.trans h.1, ih h.2 ha hl'⟩

/-- The cells of a chain are distinct. -/
theorem Chain.nodup_cells {lk : Links H α} {c : Cell H α} {l : List α} (h : Chain lk c l)
    (hc : ∀ a ∈ l, c ≠ .node a) : (c :: l.map .node).Nodup := by
  refine List.nodup_cons.mpr ⟨?_, h.nodup.map fun a b hab => Cell.node.inj hab⟩
  intro hm
  obtain ⟨a, ha, he⟩ := List.mem_map.mp hm
  exact hc a ha he.symm

/-! ## Walking a chain -/

section Find

variable [DecidableEq α]

/-- The cell that links to node `x`, among the first `n` cells from `c` on. -/
def find (lk : Links H α) (x : α) : ℕ → Cell H α → Option (Cell H α)
  | 0, _ => none
  | n + 1, c =>
    match lk c with
    | none => none
    | some a => if a = x then some c else find lk x n (.node a)

theorem Chain.find_of_append {lk : Links H α} {c : Cell H α} {l₁ l₂ : List α} {x : α} {n : ℕ}
    (h : Chain lk c (l₁ ++ x :: l₂)) (hx : x ∉ l₁) (hn : l₁.length < n) :
    lk.find x n c = some (last c l₁) := by
  induction l₁ generalizing c n with
  | nil =>
    obtain ⟨n, rfl⟩ : ∃ m, n = m + 1 := ⟨n - 1, by simp only [List.length_nil] at hn; omega⟩
    simp [find, h.1]
  | cons a l₁ ih =>
    obtain ⟨n, rfl⟩ : ∃ m, n = m + 1 := ⟨n - 1, by simp only [List.length_cons] at hn; omega⟩
    obtain ⟨hxa, hx'⟩ := not_or.mp (List.mem_cons.not.mp hx)
    simp only [find, h.1, if_neg (Ne.symm hxa), last_cons]
    exact ih h.2 hx' (by simpa using hn)

theorem Chain.find_of_notMem {lk : Links H α} {c : Cell H α} {l : List α} {x : α} (n : ℕ)
    (h : Chain lk c l) (hx : x ∉ l) : lk.find x n c = none := by
  induction l generalizing c n with
  | nil =>
    cases n with
    | zero => rfl
    | succ n => simp only [find, chain_nil.mp h]
  | cons a l ih =>
    obtain ⟨hxa, hx'⟩ := not_or.mp (List.mem_cons.not.mp hx)
    cases n with
    | zero => rfl
    | succ n => simpa only [find, h.1, if_neg (Ne.symm hxa)] using ih n h.2 hx'

end Find

/-- The cell at which a walk from `c` ends: its link is null or leads to a node
that stops the walk. A walk passes at most `n` nodes. -/
def slot (lk : Links H α) (stop : α → Bool) : ℕ → Cell H α → Cell H α
  | 0, c => c
  | n + 1, c =>
    match lk c with
    | none => c
    | some a => if stop a then c else slot lk stop n (.node a)

theorem Chain.slot_eq {lk : Links H α} {c : Cell H α} {l : List α} {stop : α → Bool} {n : ℕ}
    (h : Chain lk c l) (hn : l.length ≤ n) :
    lk.slot stop n c = last c (l.takeWhile fun a => !stop a) := by
  induction l generalizing c n with
  | nil =>
    cases n with
    | zero => rfl
    | succ n => simp only [slot, chain_nil.mp h, List.takeWhile_nil, last_nil]
  | cons a l ih =>
    obtain ⟨n, rfl⟩ : ∃ m, n = m + 1 := ⟨n - 1, by simp only [List.length_cons] at hn; omega⟩
    cases hs : stop a with
    | true => simp [slot, h.1, hs]
    | false =>
      simp only [slot, h.1, hs, List.takeWhile_cons, Bool.not_false, if_true, last_cons]
      exact ih h.2 (by simpa using hn)


/-! ## Editing a chain -/

section Edit

variable [DecidableEq H] [DecidableEq α]

/-- Take node `x` out behind cell `p`: `p` takes over the link of `x`. -/
def unlink (lk : Links H α) (p : Cell H α) (x : α) : Links H α :=
  Function.update lk p (lk (.node x))

/-- Put node `x` in behind cell `p`: `x` takes over the link of `p`, which is read
before `p` is written and stored after. -/
def relink (lk : Links H α) (p : Cell H α) (x : α) : Links H α :=
  Function.update (Function.update lk p (some x)) (.node x) (lk p)

theorem unlink_of_ne (lk : Links H α) {p c : Cell H α} (x : α) (h : c ≠ p) :
    lk.unlink p x c = lk c :=
  Function.update_of_ne h ..

theorem relink_of_ne (lk : Links H α) {p c : Cell H α} {x : α} (h : c ≠ p) (hx : c ≠ .node x) :
    lk.relink p x c = lk c := by
  rw [relink, Function.update_of_ne hx, Function.update_of_ne h]

/-- Unlinking removes the node from its chain. -/
theorem Chain.unlink {lk : Links H α} {c : Cell H α} {l₁ l₂ : List α} {x : α}
    (h : Chain lk c (l₁ ++ x :: l₂)) (hc : ∀ a ∈ l₁ ++ x :: l₂, c ≠ .node a) :
    Chain (lk.unlink (last c l₁) x) c (l₁ ++ l₂) := by
  have hnd := h.nodup
  have hnd₁ := h.nodup_cells hc
  obtain ⟨h₁, -, h₂⟩ := chain_append.mp h
  -- the edited cell is none of the nodes behind it
  have hne : ∀ a ∈ l₂, Cell.node a ≠ last c l₁ := by
    intro a ha he
    rcases last_eq c l₁ with h' | ⟨b, hb, h'⟩
    · exact hc a (by simp [ha]) (h'.symm.trans he.symm)
    · cases he.trans h'
      exact (List.nodup_append.mp hnd).2.2 _ hb _ (List.mem_cons_of_mem _ ha) rfl
  refine chain_append.mpr ⟨h₁.congr ?_ fun d _ hd => unlink_of_ne _ _ hd, ?_⟩
  · rw [List.map_append, ← List.cons_append] at hnd₁
    exact (List.nodup_append.mp hnd₁).1
  · cases l₂ with
    | nil => exact (Function.update_self ..).trans h₂
    | cons a l₂ =>
      refine ⟨(Function.update_self ..).trans h₂.1, h₂.2.congr ?_ fun b hb => ?_⟩
      · exact unlink_of_ne _ _ (hne a List.mem_cons_self)
      · exact unlink_of_ne _ _ (hne b (List.mem_cons_of_mem _ hb))

/-- Relinking inserts a node that is not in the chain. -/
theorem Chain.relink {lk : Links H α} {c : Cell H α} {l₁ l₂ : List α} {x : α}
    (h : Chain lk c (l₁ ++ l₂)) (hc : ∀ a ∈ l₁ ++ l₂, c ≠ .node a) (hcx : c ≠ .node x)
    (hx : x ∉ l₁ ++ l₂) : Chain (lk.relink (last c l₁) x) c (l₁ ++ x :: l₂) := by
  have hnd := h.nodup
  have hnd₁ := h.nodup_cells hc
  obtain ⟨h₁, h₂⟩ := chain_append.mp h
  have hne : ∀ a ∈ l₂, Cell.node a ≠ last c l₁ := by
    intro a ha he
    rcases last_eq c l₁ with h' | ⟨b, hb, h'⟩
    · exact hc a (by simp [ha]) (h'.symm.trans he.symm)
    · cases he.trans h'
      exact (List.nodup_append.mp hnd).2.2 _ hb _ ha rfl
  have hxne : Cell.node x ≠ last c l₁ := by
    intro he
    rcases last_eq c l₁ with h' | ⟨b, hb, h'⟩
    · exact hcx (h'.symm.trans he.symm)
    · cases he.trans h'
      exact hx (List.mem_append_left _ hb)
  have hkeep : ∀ a ∈ l₂, lk.relink (last c l₁) x (.node a) = lk (.node a) := by
    intro a ha
    refine relink_of_ne _ (hne a ha) ?_
    rintro ⟨⟩
    exact hx (List.mem_append_right _ ha)
  refine chain_append.mpr ⟨h₁.congr ?_ ?_, ?_, h₂.congr (Function.update_self ..) hkeep⟩
  · rw [List.map_append, ← List.cons_append] at hnd₁
    exact (List.nodup_append.mp hnd₁).1
  · intro d hd hdl
    refine relink_of_ne _ hdl ?_
    rintro rfl
    rcases List.mem_cons.mp hd with hd | hd
    · exact hcx hd.symm
    · obtain ⟨a, ha, he⟩ := List.mem_map.mp hd
      cases he
      exact hx (List.mem_append_left _ ha)
  · exact (Function.update_of_ne hxne.symm ..).trans (Function.update_self ..)

/-- Editing behind a cell of one chain leaves a chain through other cells alone. -/
theorem Chain.unlink_other {lk : Links H α} {c p : Cell H α} {l : List α} (x : α)
    (h : Chain lk c l) (hp : p ≠ c) (hl : ∀ a ∈ l, p ≠ .node a) : Chain (lk.unlink p x) c l :=
  h.congr (unlink_of_ne _ _ hp.symm) fun a ha => unlink_of_ne _ _ (hl a ha).symm

theorem Chain.relink_other {lk : Links H α} {c p : Cell H α} {l : List α} {x : α}
    (h : Chain lk c l) (hp : p ≠ c) (hl : ∀ a ∈ l, p ≠ .node a) (hcx : c ≠ .node x) (hx : x ∉ l) :
    Chain (lk.relink p x) c l := by
  refine h.congr (relink_of_ne _ hp.symm hcx) fun a ha => relink_of_ne _ (hl a ha).symm ?_
  rintro ⟨⟩
  exact hx ha

end Edit

/-! ## Disjoint lists -/

/-- The lists `l`, one to each head, are chains without a common node. -/
structure Lists (lk : Links H α) (l : H → List α) : Prop where
  chain : ∀ h, Chain lk (.head h) (l h)
  disjoint : ∀ h h', h ≠ h' → ∀ a ∈ l h, a ∉ l h'

/-- The last cell of a list of one head is no cell of another list. -/
theorem last_ne_of_lists {lk : Links H α} {l : H → List α} (hl : Lists lk l) {h h' : H}
    (hne : h ≠ h') {l₁ l₂ : List α} (hs : l h = l₁ ++ l₂) :
    last (.head h) l₁ ≠ .head h' ∧ ∀ a ∈ l h', last (.head h) l₁ ≠ .node a := by
  rcases last_eq (.head h) l₁ with he | ⟨b, hb, he⟩ <;> rw [he]
  · exact ⟨fun hc => hne (Cell.head.inj hc), fun a _ => nofun⟩
  · refine ⟨nofun, fun a ha hc => ?_⟩
    cases hc
    exact hl.disjoint h h' hne b (hs ▸ List.mem_append_left _ hb) ha

section Lists

variable [DecidableEq α] {lk : Links H α} {l : H → List α}

/-- The walk for a node finds the cell before it, if there are enough steps. -/
theorem Lists.find_of_mem [Fintype α] (hl : Lists lk l) {h : H} {x : α} (hx : x ∈ l h) :
    ∃ l₁ l₂, l h = l₁ ++ x :: l₂ ∧
      lk.find x (Fintype.card α) (.head h) = some (last (.head h) l₁) := by
  have hnd := (hl.chain h).nodup
  obtain ⟨l₁, l₂, hs⟩ := List.append_of_mem hx
  refine ⟨l₁, l₂, hs, (hs ▸ hl.chain h).find_of_append ?_ ?_⟩
  · intro hm
    rw [hs] at hnd
    exact (List.nodup_append.mp hnd).2.2 x hm x List.mem_cons_self rfl
  · have := hnd.length_le_card
    simp only [hs, List.length_append, List.length_cons] at this
    omega

theorem Lists.find_of_notMem (hl : Lists lk l) {h : H} {x : α} (n : ℕ) (hx : x ∉ l h) :
    lk.find x n (.head h) = none :=
  (hl.chain h).find_of_notMem n hx

variable [DecidableEq H]

theorem Lists.unlink (hl : Lists lk l) {h : H} {l₁ l₂ : List α} {x : α}
    (hs : l h = l₁ ++ x :: l₂) :
    Lists (lk.unlink (last (.head h) l₁) x) (Function.update l h (l₁ ++ l₂)) := by
  have hsub : ∀ g, (Function.update l h (l₁ ++ l₂) g).Sublist (l g) := by
    intro g
    rcases eq_or_ne g h with rfl | hg
    · rw [Function.update_self, hs]
      exact (List.Sublist.refl _).append (List.sublist_cons_self ..)
    · rw [Function.update_of_ne hg]
  refine ⟨fun g => ?_, fun g g' hgg a ha ha' => ?_⟩
  · rcases eq_or_ne g h with rfl | hg
    · rw [Function.update_self]
      exact Chain.unlink (hs ▸ hl.chain g) nofun
    · rw [Function.update_of_ne hg]
      obtain ⟨h₁, h₂⟩ := last_ne_of_lists hl hg.symm hs
      exact (hl.chain g).unlink_other x h₁ h₂
  · exact hl.disjoint g g' hgg a ((hsub g).mem ha) ((hsub g').mem ha')

theorem Lists.relink (hl : Lists lk l) {h : H} {l₁ l₂ : List α} {x : α} (hs : l h = l₁ ++ l₂)
    (hx : ∀ g, x ∉ l g) :
    Lists (lk.relink (last (.head h) l₁) x) (Function.update l h (l₁ ++ x :: l₂)) := by
  have hmem : ∀ g a, a ∈ Function.update l h (l₁ ++ x :: l₂) g → a ∈ l g ∨ a = x ∧ g = h := by
    intro g a ha
    rcases eq_or_ne g h with rfl | hg
    · rw [Function.update_self] at ha
      rw [hs]
      simp only [List.mem_append, List.mem_cons] at ha ⊢
      tauto
    · rw [Function.update_of_ne hg] at ha
      exact Or.inl ha
  refine ⟨fun g => ?_, fun g g' hgg a ha ha' => ?_⟩
  · rcases eq_or_ne g h with rfl | hg
    · rw [Function.update_self]
      exact Chain.relink (hs ▸ hl.chain g) nofun nofun (hs ▸ hx g)
    · rw [Function.update_of_ne hg]
      obtain ⟨h₁, h₂⟩ := last_ne_of_lists hl hg.symm hs
      exact (hl.chain g).relink_other h₁ h₂ nofun (hx g)
  · rcases hmem g a ha with h₁ | ⟨rfl, rfl⟩ <;> rcases hmem g' a ha' with h₂ | ⟨h₂, h₃⟩
    · exact hl.disjoint g g' hgg a h₁ h₂
    · exact hx g (h₂ ▸ h₁)
    · exact hx g' h₂
    · exact hgg h₃.symm

end Lists

end Links

end RSX280
