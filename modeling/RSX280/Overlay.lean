import Mathlib.Data.List.Basic

/-!
# Writing into a list

Some values in a list are replaced by others, which may reach behind its end. What is where is said
index by index.
-/

namespace RSX280.Overlay

variable {α : Type} {l l' d d' : List α} {p i k : ℕ}

/-- The list with the values `d` from `p` on. -/
def overlay (l : List α) (p : ℕ) (d : List α) : List α := l.take p ++ d ++ l.drop (p + d.length)

theorem overlay_length (hp : p ≤ l.length) :
    (overlay l p d).length = max l.length (p + d.length) := by
  rw [overlay, List.length_append, List.length_append, List.length_take, List.length_drop]
  omega

theorem overlay_before (hp : p ≤ l.length) (h : i < p) : (overlay l p d)[i]? = l[i]? := by
  have short : (l.take p).length = p := List.length_take_of_le hp
  rw [overlay, List.append_assoc, List.getElem?_append_left (by omega), List.getElem?_take_of_lt h]

theorem overlay_in (hp : p ≤ l.length) (h : k < d.length) : (overlay l p d)[p + k]? = d[k]? := by
  have short : (l.take p).length = p := List.length_take_of_le hp
  rw [overlay, List.append_assoc, List.getElem?_append_right (by omega), short,
    Nat.add_sub_cancel_left, List.getElem?_append_left h]

theorem overlay_behind (hp : p ≤ l.length) (h : p + d.length ≤ i) :
    (overlay l p d)[i]? = l[i]? := by
  have short : (l.take p ++ d).length = p + d.length := by
    rw [List.length_append, List.length_take_of_le hp]
  rw [overlay, List.getElem?_append_right (by omega), short, List.getElem?_drop]
  congr 1
  omega

theorem overlay_out (hp : p ≤ l.length) (h : i < p ∨ p + d.length ≤ i) :
    (overlay l p d)[i]? = l[i]? :=
  h.elim (overlay_before hp) (overlay_behind hp)

/-- The list that has the values of `l` outside and those of `d` inside. -/
theorem overlay_unique (hp : p ≤ l.length) (hin : ∀ k, k < d.length → l'[p + k]? = d[k]?)
    (hout : ∀ i, i < p ∨ p + d.length ≤ i → l'[i]? = l[i]?) : overlay l p d = l' := by
  refine List.ext_getElem? fun i => ?_
  by_cases inside : p ≤ i ∧ i < p + d.length
  · obtain ⟨k, rfl⟩ := Nat.exists_eq_add_of_le inside.1
    have hk : k < d.length := by omega
    rw [overlay_in hp hk, hin k hk]
  · have outside : i < p ∨ p + d.length ≤ i := by omega
    rw [overlay_out hp outside, hout i outside]

theorem overlay_same (hp : p ≤ l.length) (h : ∀ k, k < d.length → l[p + k]? = d[k]?) :
    overlay l p d = l :=
  overlay_unique hp h fun _ _ => rfl

theorem overlay_nil (hp : p ≤ l.length) : overlay l p [] = l := overlay_same hp nofun

/-- Two pieces, one behind the other. -/
theorem overlay_append (hp : p ≤ l.length) :
    overlay (overlay l p d) (p + d.length) d' = overlay l p (d ++ d') := by
  have length := overlay_length (d := d) hp
  have hp' : p + d.length ≤ (overlay l p d).length := by omega
  refine (overlay_unique hp (fun k hk => ?_) fun i out => ?_).symm
  · rcases Nat.lt_or_ge k d.length with h | h
    · rw [overlay_before hp' (by omega), overlay_in hp h, List.getElem?_append_left h]
    · rw [List.length_append] at hk
      obtain ⟨j, rfl⟩ := Nat.exists_eq_add_of_le h
      rw [List.getElem?_append_right h, Nat.add_sub_cancel_left, ← Nat.add_assoc,
        overlay_in hp' (by omega)]
  · rw [List.length_append] at out
    rw [overlay_out hp' (by omega), overlay_out hp (by omega)]

theorem overlay_split (hp : p ≤ l.length) (hk : k ≤ d.length) :
    overlay (overlay l p (d.take k)) (p + k) (d.drop k) = overlay l p d := by
  have both : overlay (overlay l p (d.take k)) (p + (d.take k).length) (d.drop k) = _ :=
    overlay_append hp
  rw [List.length_take_of_le hk, List.take_append_drop] at both
  exact both

/-- A piece of a list. -/
theorem getElem?_slice {n : ℕ} (h : i < n) : ((l.drop p).take n)[i]? = l[p + i]? := by
  rw [List.getElem?_take_of_lt h, List.getElem?_drop]

end RSX280.Overlay
