import RSX280.Vol180Frees

/-!
# Steps of `file_extend`

Each step of `file_extend` takes the clusters that it needs (`Step`), or there is none left. How many that are
in all is known before (`Ends`): one for each entry that is zero, and one for each new allocation block that
does not fit into the cluster of the one before it.
-/

namespace RSX280.Vol180

open Bitmap (vb hp Blocks)

/-- `a` clusters are taken from the free ones. -/
structure Step (v : Vol) (n : ℕ) (s s' : St) (a : ℕ) : Prop where
  kept : Kept v n s'
  free : free_clusters v s = free_clusters v s' + a
  tail : v.nblocks ≤ n → Tail v s → Tail v s'

/-- `d` clusters are needed. With less it fails when there are no more. -/
structure Ends (v : Vol) (n : ℕ) (s : St) (d : ℕ) (r : Option (Bool × File × St)) : Prop where
  enough : d ≤ free_clusters v s → ∃ f' s', r = some (true, f', s')
  short : free_clusters v s < d → v.nblocks ≤ n → Tail v s →
    ∃ f' s', r = some (false, f', s') ∧ free_clusters v s' = 0

/-- The place in its cluster of an allocation block. When there is none, a new one does not fit either. -/
def last (v : Vol) (prev : ℕ) : ℕ := if prev = 0 then 2 ^ v.clfactor - 1 else prev % 2 ^ v.clfactor

section

variable {v : Vol} {f : File} {s s' s'' : St} {n a b c d i j m prev blkptr : ℕ} {h : List ℕ}
  {r : Option (Bool × File × St)}

/-! ### Steps -/

theorem Kept.free (kept : Kept v n s) (hc : c < v.clusters) (free : (s.bits v).used c = false) :
    c ≠ 0 ∧ Mine v n (c <<< v.clfactor) := by
  have cluster : c <<< v.clfactor >>> v.clfactor = c := Nat.shiftLeft_shiftRight c v.clfactor
  refine ⟨?_, ?_, ?_⟩
  · rintro rfl
    cases kept.boot.symm.trans free
  · rwa [cluster]
  · rw [cluster]
    intro i hi same
    have used := kept.map i hi (same ▸ hc)
    rw [← same, free] at used
    cases used

theorem Step.refl (kept : Kept v n s) (same : s'.data = s.data) : Step v n s s' 0 := by
  have bits : s'.bits v = s.bits v := by
    unfold St.bits
    rw [same]
  refine ⟨⟨?_, ?_⟩, (free_congr fun c _ => ?_).symm, fun _ tail i => ?_⟩
  · rw [bits]
    exact kept.boot
  · rw [bits]
    exact kept.map
  · rw [bits]
  · rw [bits]
    exact tail i

theorem Step.trans {a' : ℕ} (h : Step v n s s' a) (h' : Step v n s' s'' a') : Step v n s s'' (a + a') := by
  refine ⟨h'.kept, ?_, fun hn tail => h'.tail hn (h.tail hn tail)⟩
  have := h.free
  have := h'.free
  omega

theorem Step.write (kept : Kept v n s) (hn : v.clusters ≤ n) (mine : Mine v n b)
    (only : ∀ b' ≠ b, s'.data b' = s.data b') : Step v n s s' 0 := by
  have pos : 0 < v.clusters := Nat.lt_of_le_of_lt (Nat.zero_le _) mine.whole
  have same {i : ℕ} (hi : i < n) := mine.used only hi
  refine ⟨⟨?_, fun i hi inside => ?_⟩, (free_congr fun c hc => same (by omega)).symm, fun all tail i hi lt there => ?_⟩
  · rw [same (by omega)]
    exact kept.boot
  · rw [same (by omega)]
    exact kept.map i hi inside
  · rw [same (by omega)]
    exact tail i hi lt there

theorem Step.take (kept : Kept v n s) (hc : c < v.clusters) (free : (s.bits v).used c = false) :
    Step v n s (taken v s c) 1 := by
  have more {i : ℕ} (used : (s.bits v).used i = true) : ((taken v s c).bits v).used i = true := by
    rw [used_taken, used, Bool.or_true]
  exact ⟨⟨more kept.boot, fun i hi inside => more (kept.map i hi inside)⟩, free_taken hc free,
    fun _ tail i hi lt there => more (tail i hi lt there)⟩

theorem Step.ends (st : Step v n s s' a) (e : Ends v n s' d r) : Ends v n s (a + d) r := by
  have free := st.free
  exact ⟨fun le => e.enough (by omega), fun lt hn tail => e.short (by omega) hn (st.tail hn tail)⟩

theorem Ends.none (none : free_clusters v s = 0) (hd : 0 < d)
    (fails : v.nblocks ≤ n → Full v s → ∃ f' s', r = some (false, f', s') ∧ s'.data = s.data) : Ends v n s d r := by
  refine ⟨fun le => absurd le (by omega), fun _ hn tail => ?_⟩
  obtain ⟨f', s', eq, same⟩ := fails hn (tail.full none)
  refine ⟨f', s', eq, ?_⟩
  have bits : s'.bits v = s.bits v := by
    unfold St.bits
    rw [same]
  rw [← none]
  exact free_congr fun c _ => by rw [bits]

/-! ### Numbers of three bytes -/

theorem get24_put24_of_ne {x p q : ℕ} (apart : p + 2 < q ∨ q + 2 < p) : get24 (s.put24 b q x) b p = get24 s b p := by
  rw [get24, St.put24]
  dsimp only
  rw [Function.update_self]
  exact Fileio.Block.get_put_of_ne apart

theorem get24_put24 {x p : ℕ} (small : x < 16777216) : get24 (s.put24 b p x) b p = x := by
  rw [get24, St.put24]
  dsimp only
  rw [Function.update_self]
  exact Fileio.Block.get_put small

theorem put24_data {x p : ℕ} (hb : a ≠ b) : (s.put24 b p x).data a = s.data a := Function.update_of_ne hb _ _

theorem get24_congr {p : ℕ} (same : s'.data b = s.data b) : get24 s' b p = get24 s b p := by
  rw [get24, get24, same]

/-! ### Entries -/

/-- An entry without a cluster gets one. -/
theorem map_entry_some (kept : Kept v n s) (hn : v.clusters ≤ n) (mine : Mine v n f.curalloc)
    (room : s.held.dedup.length < NBUFFERS) (enough : get24 s f.curalloc blkptr = 0 → 0 < free_clusters v s) :
    ∃ f' s', map_entry v blkptr f s = (true, f', s') ∧ f'.curalloc = f.curalloc ∧ s'.held = s.held ∧
      Step v n s s' (if get24 s f.curalloc blkptr = 0 then 1 else 0) ∧
      ∀ p, p + 2 < blkptr ∨ blkptr + 2 < p → get24 s' f.curalloc p = get24 s f.curalloc p := by
  rw [map_entry]
  by_cases zero : get24 s f.curalloc blkptr = 0
  · obtain ⟨c, hc, free, alloc⟩ := alloc_cluster_free room (enough zero)
    obtain ⟨ne, -⟩ := kept.free hc free
    have here : c <<< v.clfactor ≠ 0 := fun zero => ne ((shift_eq_zero c _).mp zero)
    have same : (taken v s c).data f.curalloc = s.data f.curalloc := taken_data (mine.ne (by omega)).symm
    rw [if_pos zero, if_pos zero, alloc]
    dsimp only
    rw [if_neg here]
    refine ⟨_, _, rfl, rfl, rfl, ?_, fun p apart => ?_⟩
    · have took := Step.take kept hc free
      exact took.trans (Step.write took.kept hn mine fun b' hb => put24_data hb)
    · rw [get24_put24_of_ne apart, get24_congr same]
  · rw [if_neg zero, if_neg zero]
    exact ⟨_, _, rfl, rfl, rfl, Step.refl kept rfl, fun _ _ => rfl⟩

theorem map_entry_full (room : s.held.dedup.length < NBUFFERS) (full : Full v s)
    (zero : get24 s f.curalloc blkptr = 0) :
    ∃ s', map_entry v blkptr f s = (false, f, release_block s' f.curalloc) ∧ Still s s.held s' := by
  obtain ⟨s', alloc, still⟩ := alloc_cluster_full room full
  refine ⟨s', ?_, still⟩
  rw [map_entry, if_pos zero, alloc]
  exact if_pos rfl

/-! ### New allocation blocks -/

theorem last_lt (v : Vol) (prev : ℕ) : last v prev < 2 ^ v.clfactor := by
  have pos : 0 < 2 ^ v.clfactor := Nat.pow_pos (by decide)
  rw [last]
  split
  · omega
  · exact Nat.mod_lt _ pos

/-- It fits into the cluster when the last one is not at the end. -/
theorem last_full (v : Vol) (prev : ℕ) : (last v prev + 1) / 2 ^ v.clfactor =
    if prev ≠ 0 ∧ prev % 2 ^ v.clfactor ≠ 2 ^ v.clfactor - 1 then 0 else 1 := by
  have pos : 0 < 2 ^ v.clfactor := Nat.pow_pos (by decide)
  have lt := Nat.mod_lt prev pos
  rw [last]
  by_cases zero : prev = 0
  · rw [if_pos zero, if_neg fun both => both.1 zero, Nat.sub_add_cancel pos, Nat.div_self pos]
  · rw [if_neg zero]
    by_cases full : prev % 2 ^ v.clfactor = 2 ^ v.clfactor - 1
    · rw [if_neg fun both => both.2 full, full, Nat.sub_add_cancel pos, Nat.div_self pos]
    · rw [if_pos ⟨zero, full⟩]
      exact Nat.div_eq_of_lt (by omega)

theorem mod_succ (v : Vol) (hp : prev % 2 ^ v.clfactor ≠ 2 ^ v.clfactor - 1) :
    (prev + 1) % 2 ^ v.clfactor = prev % 2 ^ v.clfactor + 1 ∧
      (prev + 1) >>> v.clfactor = prev >>> v.clfactor := by
  have pos : 0 < 2 ^ v.clfactor := Nat.pow_pos (by decide)
  have lt := Nat.mod_lt prev pos
  have small : prev % 2 ^ v.clfactor + 1 < 2 ^ v.clfactor := by omega
  have split := Nat.div_add_mod prev (2 ^ v.clfactor)
  have next : prev + 1 = 2 ^ v.clfactor * (prev / 2 ^ v.clfactor) + (prev % 2 ^ v.clfactor + 1) := by omega
  rw [Nat.shiftRight_eq_div_pow, Nat.shiftRight_eq_div_pow]
  constructor
  · rw [next, Nat.mul_add_mod, Nat.mod_eq_of_lt small]
  · rw [next, Nat.mul_add_div pos, Nat.div_eq_of_lt small, Nat.add_zero]

theorem room_cons (b : ℕ) (room : h.dedup.length + 1 < NBUFFERS) : (b :: h).dedup.length < NBUFFERS := by
  by_cases mem : b ∈ h
  · rw [List.dedup_cons_of_mem mem]
    omega
  · rwa [List.dedup_cons_of_notMem mem]

/-- The block that is taken for it: the next one of the cluster, or the first one of another cluster. -/
theorem add_map_block (kept : Kept v n s) (mine : prev ≠ 0 → Mine v n prev) (room : s.held.dedup.length < NBUFFERS)
    (enough : (last v prev + 1) / 2 ^ v.clfactor ≤ free_clusters v s) : ∃ b s',
    (if prev ≠ 0 ∧ prev % 2 ^ v.clfactor ≠ 2 ^ v.clfactor - 1 then (prev + 1, s) else alloc_cluster v s) = (b, s') ∧
      b ≠ 0 ∧ Mine v n b ∧ s'.held = s.held ∧ Step v n s s' ((last v prev + 1) / 2 ^ v.clfactor) ∧
      b % 2 ^ v.clfactor = (last v prev + 1) % 2 ^ v.clfactor ∧
      ((last v prev + 1) / 2 ^ v.clfactor = 0 → b ≠ prev) := by
  have pos : 0 < 2 ^ v.clfactor := Nat.pow_pos (by decide)
  have lt := last_lt v prev
  rw [last_full] at enough ⊢
  by_cases fits : prev ≠ 0 ∧ prev % 2 ^ v.clfactor ≠ 2 ^ v.clfactor - 1
  · obtain ⟨place, cluster⟩ := mod_succ v fits.2
    obtain ⟨whole, apart⟩ := mine fits.1
    have small : (prev % 2 ^ v.clfactor + 1) % 2 ^ v.clfactor = prev % 2 ^ v.clfactor + 1 := by
      have lt := Nat.mod_lt prev pos
      exact Nat.mod_eq_of_lt (by omega)
    rw [if_pos fits, if_pos fits, last, if_neg fits.1, small]
    refine ⟨_, _, rfl, Nat.succ_ne_zero _, ⟨?_, ?_⟩, rfl, Step.refl kept rfl, place,
      fun _ => Nat.succ_ne_self prev⟩
    · rwa [cluster]
    · rwa [cluster]
  · rw [if_neg fits] at enough
    obtain ⟨c, hc, free, alloc⟩ := alloc_cluster_free room enough
    obtain ⟨ne, mine⟩ := kept.free hc free
    have whole : last v prev + 1 = 2 ^ v.clfactor := by
      have full := last_full v prev
      rw [if_neg fits] at full
      have le := Nat.div_mul_le_self (last v prev + 1) (2 ^ v.clfactor)
      rw [full, Nat.one_mul] at le
      omega
    rw [if_neg fits, if_neg fits, alloc, whole, Nat.mod_self]
    refine ⟨_, _, rfl, fun zero => ne ((shift_eq_zero c _).mp zero), mine, rfl, Step.take kept hc free, ?_,
      fun full => absurd full Nat.one_ne_zero⟩
    rw [Nat.shiftLeft_eq, Nat.mul_mod_left]

/-- An allocation block without entries, and without a next one. -/
structure Fresh (v : Vol) (n b : ℕ) (s : St) : Prop where
  nonzero : b ≠ 0
  mine : Mine v n b
  zero : ∀ p, 3 ≤ p → get24 s b p = 0

/-- An allocation block is added. -/
structure Added (v : Vol) (n prev : ℕ) (s : St) (h : List ℕ) (b : ℕ) (f' : File) (s' : St) : Prop where
  curalloc : f'.curalloc = b
  fresh : Fresh v n b s'
  held : s'.held = b :: h
  step : Step v n s s' ((last v prev + 1) / 2 ^ v.clfactor)
  place : b % 2 ^ v.clfactor = (last v prev + 1) % 2 ^ v.clfactor
  link : prev ≠ 0 → (last v prev + 1) / 2 ^ v.clfactor = 0 → get24 s' prev 3 = b

theorem add_map_some (kept : Kept v n s) (hn : v.clusters ≤ n) (mine : prev ≠ 0 → Mine v n prev)
    (held : s.held = if prev = 0 then h else prev :: h) (room : h.dedup.length + 1 < NBUFFERS)
    (enough : (last v prev + 1) / 2 ^ v.clfactor ≤ free_clusters v s) :
    ∃ b f' s', add_map v prev f s = some (some b, f', s') ∧ Added v n prev s h b f' s' := by
  have space : s.held.dedup.length < NBUFFERS := by
    rw [held]
    split
    · omega
    · exact room_cons prev room
  obtain ⟨b, s₁, block, nonzero, mineb, held₁, step, place, other⟩ := add_map_block kept mine space enough
  -- the link of the one before
  obtain ⟨s₂, linked, held₂, step₂, link₂⟩ : ∃ s₂, (if prev = 0 then s₁ else release_block (s₁.put24 prev 3 b) prev) = s₂ ∧
      s₂.held = h ∧ Step v n s₁ s₂ 0 ∧ (prev ≠ 0 → get24 s₂ prev 3 = b) := by
    by_cases zero : prev = 0
    · rw [if_pos zero] at held ⊢
      exact ⟨_, rfl, held₁.trans held, Step.refl step.kept rfl, fun nonzero => absurd zero nonzero⟩
    · rw [if_neg zero] at held ⊢
      refine ⟨_, rfl, ?_, Step.write step.kept hn (mine zero) fun b' hb => put24_data hb,
        fun _ => get24_put24 (mineb.lt.trans v.size)⟩
      rw [release_block]
      change s₁.held.erase prev = h
      rw [held₁, held, List.erase_cons_head]
  have there : ¬v.nblocks ≤ b := Nat.not_le_of_lt mineb.lt
  have new : new_block v s₂ b = some ⟨Function.update s₂.data b fun _ => 0, b :: h⟩ := by
    rw [new_block, if_neg there, if_pos (Or.inr (by rw [held₂]; omega)), held₂]
  rw [add_map]
  dsimp only
  rw [block]
  dsimp only
  rw [if_neg nonzero, linked, new]
  refine ⟨b, _, _, rfl, rfl, ⟨nonzero, mineb, fun p hp => ?_⟩, rfl, ?_, place, fun hp fits => ?_⟩
  · rw [get24_put24_of_ne (Or.inr (by omega)), get24]
    dsimp only
    rw [Function.update_self]
    rfl
  · have cleared : Step v n s₂ ⟨Function.update s₂.data b fun _ => 0, b :: h⟩ 0 :=
      Step.write step₂.kept hn mineb fun b' hb => Function.update_of_ne hb _ _
    have written : Step v n ⟨Function.update s₂.data b fun _ => 0, b :: h⟩
        (St.put24 ⟨Function.update s₂.data b fun _ => 0, b :: h⟩ b 0 prev) 0 :=
      Step.write cleared.kept hn mineb fun b' hb => put24_data hb
    exact ((step.trans step₂).trans cleared).trans written
  · have apart : prev ≠ b := (other fits).symm
    have same : (St.put24 ⟨Function.update s₂.data b fun _ => 0, b :: h⟩ b 0 prev).data prev = s₂.data prev :=
      (put24_data apart).trans (Function.update_of_ne apart _ _)
    rw [get24_congr same, link₂ hp]

theorem add_map_full (room : s.held.dedup.length < NBUFFERS) (full : Full v s)
    (needs : (last v prev + 1) / 2 ^ v.clfactor ≠ 0) : ∃ s', Still s s.held s' ∧
      add_map v prev f s = some (none, f, if prev = 0 then s' else release_block s' prev) := by
  obtain ⟨s', alloc, still⟩ := alloc_cluster_full room full
  have unfit : ¬(prev ≠ 0 ∧ prev % 2 ^ v.clfactor ≠ 2 ^ v.clfactor - 1) := by
    intro fits
    rw [last_full, if_pos fits] at needs
    exact needs rfl
  refine ⟨s', still, ?_⟩
  rw [add_map]
  dsimp only
  rw [if_neg unfit, alloc]
  exact if_pos rfl

end

end RSX280.Vol180
