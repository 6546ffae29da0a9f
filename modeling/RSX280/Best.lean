import Mathlib.Data.List.Induction
import Mathlib.Data.List.Nodup
import Mathlib.Order.Lattice
import Mathlib.Tactic.Common
import Mathlib.Tactic.TypeStar

/-!
# The best of each kind

Values come one after the other, and each has a key and a rank. A table keeps one value for each key that was
seen, in the order in which the keys came: `add` replaces it by a later value of the same key unless that has a
lower rank, so what stays has the highest rank (`table_best`).
-/

namespace RSX280.Best

universe u v w

variable {α : Type u} {κ : Type v} {ρ : Type w} [LinearOrder ρ] {key : α → κ} {rank : α → ρ}
  {x y : α} {l t t' : List α}

/-- Which of the two values of one key stays. -/
def better (rank : α → ρ) (x y : α) : α := if rank x < rank y then y else x

/-- One more value. -/
def add [DecidableEq κ] (key : α → κ) (rank : α → ρ) (x : α) : List α → List α
  | [] => [x]
  | y :: t => if key y = key x then better rank x y :: t else y :: add key rank x t

example : add id id 3 [] = [3] := by rw [add]

/-- The table of the values of `l`. -/
def table [DecidableEq κ] (key : α → κ) (rank : α → ρ) (l : List α) : List α := l.foldl (fun t x => add key rank x t) []

/-- One value of each key in `l`, and none of the key has a higher rank. -/
structure IsBest (key : α → κ) (rank : α → ρ) (l t : List α) : Prop where
  nodup : (t.map key).Nodup
  mem : ∀ y ∈ t, y ∈ l
  rank_le : ∀ y ∈ t, ∀ x ∈ l, key x = key y → rank x ≤ rank y
  all : ∀ x ∈ l, ∃ y ∈ t, key y = key x

theorem better_eq (rank : α → ρ) (x y : α) : better rank x y = x ∨ better rank x y = y := by
  rw [better]
  split
  · exact Or.inr rfl
  · exact Or.inl rfl

theorem key_better (h : key y = key x) : key (better rank x y) = key x := by
  rcases better_eq rank x y with e | e
  · rw [e]
  · rw [e, h]

theorem le_better (x y : α) : rank x ≤ rank (better rank x y) ∧ rank y ≤ rank (better rank x y) := by
  rw [better]
  split
  · next h => exact ⟨h.le, le_rfl⟩
  · next h => exact ⟨le_rfl, not_lt.mp h⟩

theorem eq_of_key (h : (t.map key).Nodup) (hx : x ∈ t) (hy : y ∈ t) (e : key x = key y) : x = y :=
  List.inj_on_of_nodup_map h hx hy e

/-- What depends on the key only can be asked of the values in the table. -/
theorem IsBest.filter (h : IsBest key rank l t) {p : α → Bool} (hp : ∀ x y, key x = key y → p x = p y) :
    IsBest key rank (l.filter p) (t.filter p) where
  nodup := h.nodup.sublist ((List.filter_sublist).map key)
  mem y hy := by
    obtain ⟨hy, hpy⟩ := List.mem_filter.mp hy
    exact List.mem_filter.mpr ⟨h.mem y hy, hpy⟩
  rank_le y hy x hx := h.rank_le y (List.mem_filter.mp hy).1 x (List.mem_filter.mp hx).1
  all x hx := by
    obtain ⟨hx, hpx⟩ := List.mem_filter.mp hx
    obtain ⟨y, hy, e⟩ := h.all x hx
    exact ⟨y, List.mem_filter.mpr ⟨hy, (hp y x e).trans hpx⟩, e⟩

variable [DecidableEq κ]

theorem length_add (key : α → κ) (rank : α → ρ) (x : α) (t : List α) :
    (add key rank x t).length ≤ t.length + 1 := by
  induction t with
  | nil => exact Nat.le_refl 1
  | cons y t ih =>
    rw [add]
    split
    · exact Nat.le_succ _
    · exact Nat.succ_le_succ ih

/-- The value has a new key. -/
theorem add_new (h : ∀ y ∈ t, key y ≠ key x) : add key rank x t = t ++ [x] := by
  induction t with
  | nil => rfl
  | cons y t ih =>
    rw [add, if_neg (h y List.mem_cons_self), ih fun z hz => h z (List.mem_cons_of_mem y hz)]
    rfl

/-- The key is not in the first part of the table. -/
theorem add_append (h : ∀ y ∈ t, key y ≠ key x) (t' : List α) :
    add key rank x (t ++ t') = t ++ add key rank x t' := by
  induction t with
  | nil => rfl
  | cons y t ih =>
    rw [List.cons_append, add, if_neg (h y List.mem_cons_self),
      ih fun z hz => h z (List.mem_cons_of_mem y hz)]
    rfl

/-- The first value of a key. -/
theorem exists_first {k : κ} (h : ∃ y ∈ t, key y = k) :
    ∃ s y s', t = s ++ y :: s' ∧ key y = k ∧ ∀ z ∈ s, key z ≠ k := by
  induction t with
  | nil =>
    obtain ⟨y, hy, -⟩ := h
    exact absurd hy List.not_mem_nil
  | cons x t ih =>
    by_cases hx : key x = k
    · exact ⟨[], x, t, rfl, hx, fun z hz => absurd hz List.not_mem_nil⟩
    · obtain ⟨y, hy, e⟩ := h
      have hy : y ∈ t := (List.mem_cons.mp hy).resolve_left fun e' => hx (e' ▸ e)
      obtain ⟨s, y, s', rfl, e, hs⟩ := ih ⟨y, hy, e⟩
      refine ⟨x :: s, y, s', rfl, e, fun z hz => ?_⟩
      rcases List.mem_cons.mp hz with rfl | hz
      · exact hx
      · exact hs z hz

/-- The value has the key of `y`. -/
theorem add_first {s s' : List α} (e : key y = key x) (h : ∀ z ∈ s, key z ≠ key x) :
    add key rank x (s ++ y :: s') = s ++ better rank x y :: s' := by
  rw [add_append h, add, if_pos e]

theorem mem_add {z : α} (h : z ∈ add key rank x t) : z = x ∨ z ∈ t := by
  induction t with
  | nil => exact Or.inl (List.mem_singleton.mp h)
  | cons y t ih =>
    rw [add] at h
    split at h
    · rcases List.mem_cons.mp h with h | h
      · rcases better_eq rank x y with e | e
        · exact Or.inl (h.trans e)
        · exact Or.inr (List.mem_cons.mpr (Or.inl (h.trans e)))
      · exact Or.inr (List.mem_cons_of_mem y h)
    · rcases List.mem_cons.mp h with rfl | h
      · exact Or.inr List.mem_cons_self
      · exact (ih h).imp_right (List.mem_cons_of_mem y)

/-- The value that the table has for the key. -/
theorem exists_mem_add (key : α → κ) (rank : α → ρ) (x : α) (t : List α) :
    ∃ z ∈ add key rank x t, key z = key x ∧ rank x ≤ rank z := by
  induction t with
  | nil => exact ⟨x, List.mem_singleton_self x, rfl, le_rfl⟩
  | cons y t ih =>
    rw [add]
    split
    · next h => exact ⟨_, List.mem_cons_self, key_better h, (le_better x y).1⟩
    · obtain ⟨z, hz, h⟩ := ih
      exact ⟨z, List.mem_cons_of_mem y hz, h⟩

/-- The values are not lost, but for better ones. -/
theorem exists_mem_of_mem (key : α → κ) (rank : α → ρ) (x : α) (h : y ∈ t) :
    ∃ z ∈ add key rank x t, key z = key y ∧ rank y ≤ rank z := by
  induction t with
  | nil => exact absurd h List.not_mem_nil
  | cons z t ih =>
    rw [add]
    split
    · next hk =>
      rcases List.mem_cons.mp h with rfl | h
      · exact ⟨_, List.mem_cons_self, (key_better hk).trans hk.symm, (le_better x y).2⟩
      · exact ⟨y, List.mem_cons_of_mem _ h, rfl, le_rfl⟩
    · rcases List.mem_cons.mp h with rfl | h
      · exact ⟨y, List.mem_cons_self, rfl, le_rfl⟩
      · obtain ⟨z', hz, h⟩ := ih h
        exact ⟨z', List.mem_cons_of_mem z hz, h⟩

theorem nodup_add (rank : α → ρ) (x : α) (h : (t.map key).Nodup) : ((add key rank x t).map key).Nodup := by
  induction t with
  | nil => exact List.nodup_singleton _
  | cons y t ih =>
    obtain ⟨hy, ht⟩ := List.nodup_cons.mp h
    rw [add]
    split
    · next hk => exact List.nodup_cons.mpr ⟨by rwa [key_better hk, ← hk], ht⟩
    · next hk =>
      refine List.nodup_cons.mpr ⟨fun hm => ?_, ih ht⟩
      obtain ⟨z, hz, e⟩ := List.mem_map.mp hm
      rcases mem_add hz with rfl | hz
      · exact hk e.symm
      · exact hy (e ▸ List.mem_map_of_mem hz)

theorem IsBest.add (h : IsBest key rank l t) (x : α) :
    IsBest key rank (l ++ [x]) (Best.add key rank x t) where
  nodup := nodup_add rank x h.nodup
  mem y hy := by
    rcases mem_add hy with rfl | hy
    · exact List.mem_append_right l (List.mem_singleton_self _)
    · exact List.mem_append_left _ (h.mem y hy)
  rank_le y hy z hz e := by
    have kept := nodup_add rank x h.nodup
    rcases List.mem_append.mp hz with hz | hz
    · obtain ⟨y', hy', e'⟩ := h.all z hz
      obtain ⟨z', hz', ek, le⟩ := exists_mem_of_mem key rank x hy'
      obtain rfl := eq_of_key kept hz' hy (ek.trans (e'.trans e))
      exact (h.rank_le y' hy' z hz e'.symm).trans le
    · obtain rfl := List.mem_singleton.mp hz
      obtain ⟨z', hz', ek, le⟩ := exists_mem_add key rank z t
      obtain rfl := eq_of_key kept hz' hy (ek.trans e)
      exact le
  all z hz := by
    rcases List.mem_append.mp hz with hz | hz
    · obtain ⟨y, hy, e⟩ := h.all z hz
      obtain ⟨z', hz', ek, -⟩ := exists_mem_of_mem key rank x hy
      exact ⟨z', hz', ek.trans e⟩
    · obtain rfl := List.mem_singleton.mp hz
      obtain ⟨z', hz', ek, -⟩ := exists_mem_add key rank z t
      exact ⟨z', hz', ek⟩

theorem table_concat (l : List α) (x : α) :
    table key rank (l ++ [x]) = add key rank x (table key rank l) := by
  rw [table, List.foldl_append]
  rfl

theorem length_table (key : α → κ) (rank : α → ρ) (l : List α) : (table key rank l).length ≤ l.length := by
  induction l using List.reverseRecOn with
  | nil => exact Nat.le_refl 0
  | append_singleton l x ih =>
    rw [table_concat, List.length_append]
    exact Nat.le_trans (length_add key rank x _) (Nat.succ_le_succ ih)

theorem table_best (key : α → κ) (rank : α → ρ) (l : List α) : IsBest key rank l (table key rank l) := by
  induction l using List.reverseRecOn with
  | nil =>
    exact ⟨List.nodup_nil, fun y hy => absurd hy List.not_mem_nil, fun y hy => absurd hy List.not_mem_nil,
      fun x hx => absurd hx List.not_mem_nil⟩
  | append_singleton l x ih =>
    rw [table_concat]
    exact ih.add x

end RSX280.Best
