import Mathlib.Data.List.Nodup

/-!
# Circular lists

Nodes that know the next one, and the last of which knows the first. The walks follow the links from
a node until they are back home, and give up after a number of nodes: where the links do not change
under way, a walk over more nodes than there are never ends. Reading a node can fail.
-/

namespace RSX280.Circular

variable {α β ε : Type}

/-- From `a` through `l`, and then to `e`. -/
def Path (next : α → Except ε α) : α → List α → α → Prop
  | a, [], e => next a = .ok e
  | a, b :: l, e => next a = .ok b ∧ Path next b l e

/-- A circular list, from `a` through `l`. -/
structure Circle (next : α → Except ε α) (a : α) (l : List α) : Prop where
  path : Path next a l a
  nodup : (a :: l).Nodup

/-! ### Walks -/

section walks

variable [DecidableEq α] (next : α → Except ε α) (endless : ε) (home : α)

/-- The node before `home`. -/
def last : ℕ → α → Except ε α
  | 0, _ => .error endless
  | n + 1, a => next a >>= fun b => if b = home then .ok a else last n b

/-- The first node that has the property. -/
def search (p : α → Except ε Bool) : ℕ → α → Except ε (Option α)
  | 0, _ => .error endless
  | n + 1, a => p a >>= fun found =>
    if found then .ok (some a)
    else next a >>= fun b => if b = home then .ok none else search p n b

/-- What the nodes give, one after the other. -/
def collect (f : α → Except ε (List β)) : ℕ → α → Except ε (List β)
  | 0, _ => .error endless
  | n + 1, a => f a >>= fun here =>
    next a >>= fun b => if b = home then .ok here else (here ++ ·) <$> collect f n b

end walks

section walk

variable [DecidableEq α] {next : α → Except ε α} {endless : ε} {home a : α} {l : List α} {n : ℕ}

theorem last_eq (h : Path next a l home) (hl : home ∉ l) (hn : l.length < n) :
    last next endless home n a = .ok (l.getLastD a) := by
  induction l generalizing a n with
  | nil =>
    obtain ⟨n, rfl⟩ := Nat.exists_eq_succ_of_ne_zero (Nat.ne_of_gt hn)
    rw [last, (h : next a = .ok home)]
    exact if_pos rfl
  | cons b l ih =>
    obtain ⟨first, rest⟩ := h
    obtain ⟨n, rfl⟩ := Nat.exists_eq_succ_of_ne_zero (Nat.ne_of_gt (Nat.zero_lt_of_lt hn))
    have away : b ≠ home := fun same => hl (same ▸ List.mem_cons_self)
    rw [last, first, List.getLastD_cons]
    exact (if_neg away).trans
      (ih rest (fun later => hl (List.mem_cons_of_mem _ later)) (Nat.lt_of_succ_lt_succ hn))

theorem search_eq {p : α → Except ε Bool} {q : α → Bool} (h : Path next a l home) (hl : home ∉ l)
    (hn : l.length < n) (hp : ∀ x ∈ a :: l, p x = .ok (q x)) :
    search next endless home p n a = .ok ((a :: l).find? q) := by
  induction l generalizing a n with
  | nil =>
    obtain ⟨n, rfl⟩ := Nat.exists_eq_succ_of_ne_zero (Nat.ne_of_gt hn)
    rw [search, hp a List.mem_cons_self, (h : next a = .ok home)]
    cases found : q a with
    | true => simp [bind, Except.bind, found]
    | false => simp [bind, Except.bind, found]
  | cons b l ih =>
    obtain ⟨first, rest⟩ := h
    obtain ⟨n, rfl⟩ := Nat.exists_eq_succ_of_ne_zero (Nat.ne_of_gt (Nat.zero_lt_of_lt hn))
    have away : b ≠ home := fun same => hl (same ▸ List.mem_cons_self)
    rw [search, hp a List.mem_cons_self, first]
    cases found : q a with
    | true => simp [bind, Except.bind, found]
    | false =>
      rw [List.find?_cons_of_neg (by simp [found])]
      exact (if_neg away).trans
        (ih rest (fun later => hl (List.mem_cons_of_mem _ later)) (Nat.lt_of_succ_lt_succ hn)
          fun x hx => hp x (List.mem_cons_of_mem _ hx))

theorem collect_eq {f : α → Except ε (List β)} {g : α → List β} (h : Path next a l home)
    (hl : home ∉ l) (hn : l.length < n) (hf : ∀ x ∈ a :: l, f x = .ok (g x)) :
    collect next endless home f n a = .ok ((a :: l).flatMap g) := by
  induction l generalizing a n with
  | nil =>
    obtain ⟨n, rfl⟩ := Nat.exists_eq_succ_of_ne_zero (Nat.ne_of_gt hn)
    rw [collect, hf a List.mem_cons_self, (h : next a = .ok home)]
    simp [bind, Except.bind]
  | cons b l ih =>
    obtain ⟨first, rest⟩ := h
    obtain ⟨n, rfl⟩ := Nat.exists_eq_succ_of_ne_zero (Nat.ne_of_gt (Nat.zero_lt_of_lt hn))
    have away : b ≠ home := fun same => hl (same ▸ List.mem_cons_self)
    have more := ih rest (fun later => hl (List.mem_cons_of_mem _ later))
      (Nat.lt_of_succ_lt_succ hn) fun x hx => hf x (List.mem_cons_of_mem _ hx)
    rw [collect, hf a List.mem_cons_self, first, List.flatMap_cons]
    simp only [bind, Except.bind, if_neg away, more]
    rfl

end walk

/-! ### Paths -/

section path

variable {next next' : α → Except ε α} {a b e x : α} {l l' : List α}

theorem Path.congr (h : Path next a l e) (same : ∀ x ∈ a :: l, next' x = next x) :
    Path next' a l e := by
  induction l generalizing a with
  | nil => exact (same a List.mem_cons_self).trans h
  | cons b l ih =>
    exact ⟨(same a List.mem_cons_self).trans h.1,
      ih h.2 fun x hx => same x (List.mem_cons_of_mem _ hx)⟩

theorem path_append : Path next a (l ++ x :: l') e ↔ Path next a l x ∧ Path next x l' e := by
  induction l generalizing a with
  | nil => exact Iff.rfl
  | cons b l ih => exact (and_congr_right fun _ => ih).trans and_assoc.symm

/-- A node is put in behind the last one. -/
theorem Path.snoc (h : Path next a l e) (hn : (a :: l).Nodup)
    (same : ∀ x ∈ a :: l, x ≠ l.getLastD a → next' x = next x)
    (hl : next' (l.getLastD a) = .ok b) (hb : next' b = .ok e) :
    Path next' a (l ++ [b]) e := by
  induction l generalizing a with
  | nil => exact ⟨hl, hb⟩
  | cons c l ih =>
    rw [List.getLastD_cons] at hl same
    have first : a ≠ l.getLastD c := fun eq =>
      (List.nodup_cons.mp hn).1 (eq ▸ List.getLastD_mem_cons)
    exact ⟨(same a List.mem_cons_self first).trans h.1,
      ih h.2 hn.of_cons (fun x hx => same x (List.mem_cons_of_mem _ hx)) hl⟩

/-- What follows a node. -/
theorem Path.next_eq (h : Path next a l e) (hx : x ∈ a :: l) : ∃ y, next x = .ok y ∧ y ∈ l ++ [e] := by
  induction l generalizing a with
  | nil =>
    obtain rfl := List.mem_singleton.mp hx
    exact ⟨e, h, List.mem_cons_self⟩
  | cons b l ih =>
    rcases List.mem_cons.mp hx with rfl | hx
    · exact ⟨b, h.1, List.mem_cons_self⟩
    · obtain ⟨y, eq, mem⟩ := ih h.2 hx
      exact ⟨y, eq, List.mem_cons_of_mem _ mem⟩

theorem Path.last_next (h : Path next a l e) : next (l.getLastD a) = .ok e := by
  induction l generalizing a with
  | nil => exact h
  | cons b l ih =>
    rw [List.getLastD_cons]
    exact ih h.2

/-- The same circle from another of its nodes. -/
theorem Circle.rotate (h : Circle next a (l ++ x :: l')) : Circle next x (l' ++ a :: l) := by
  obtain ⟨before, behind⟩ := path_append.mp h.path
  refine ⟨path_append.mpr ⟨behind, before⟩, ?_⟩
  have perm : List.Perm (a :: l ++ x :: l') (x :: l' ++ a :: l) := List.perm_append_comm
  exact perm.nodup_iff.mp h.nodup

theorem Circle.head_notMem (h : Circle next a l) : a ∉ l := (List.nodup_cons.mp h.nodup).1

end path

end RSX280.Circular
