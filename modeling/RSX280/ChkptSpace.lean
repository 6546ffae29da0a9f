import RSX280.Chkpt

/-!
# Checkpoint space

`Space` is what the checkpoint files and the control blocks of their ranges should be: the
ranges in each file are disjoint and inside the file, and of the control blocks that have
been allocated each is either freed, or held by one task and in the list of its file.
`ALLCS` and `FREECS` keep it (`Space.alloc`, `Space.free`).
-/

namespace RSX280.Chkpt

open Queue Spans Subpars

universe u v w

/-! ## One file -/

/-- The ranges of a checkpoint file are in its list once each, disjoint and inside the file,
the size of which is a 16-bit word. -/
structure Filed (m : Main ℕ) : Prop where
  lt : m.size < 65536
  packed : Packed m.bases m.sizes 0 m.sub m.size
  nodup : m.sub.Nodup

variable {m : Main ℕ} {i n a : ℕ} {l₁ l₂ : List ℕ}

/-- `CKPGAP` is the first-fit search. -/
theorem Filed.ckpgap_eq (h : Filed m) :
    ckpgap m n = gap m.bases m.sizes n m.size 0 m.sub := by
  rw [ckpgap]
  split
  · next hnil =>
    rw [hnil, gap, Nat.sub_zero]
    by_cases hn : n ≤ m.size
    · rw [if_neg (by omega), if_pos hn]
    · rw [if_pos (by omega), if_neg hn]
  · exact gap1_eq h.packed h.lt fun e he => sub16_of_le he h.lt

theorem Filed.insert (h : Filed m) (hi : i ∉ m.sub) (hg : ckpgap m n = some (l₁, a, l₂)) :
    Filed ({ m with pcb := Function.update m.pcb i ⟨a, n, false⟩ }.lnkpcb l₁ i l₂) := by
  rw [h.ckpgap_eq] at hg
  obtain ⟨hl, -, -⟩ := gap_eq_some h.packed hg
  refine ⟨h.lt, h.packed.insert hg (fun j hj => ?_) ?_ ?_, ?_⟩
  · have hne : j ≠ i := fun he => hi (he ▸ hj)
    dsimp only [Main.lnkpcb, Main.bases, Main.sizes]
    rw [Function.update_of_ne hne]
    exact ⟨rfl, rfl⟩
  · dsimp only [Main.lnkpcb, Main.bases]
    rw [Function.update_self]
  · dsimp only [Main.lnkpcb, Main.sizes]
    rw [Function.update_self]
  · have hnd := h.nodup
    rw [hl] at hnd hi
    exact List.nodup_middle.mpr (List.nodup_cons.mpr ⟨hi, hnd⟩)

theorem Filed.remove (h : Filed m) (hl : m.sub = l₁ ++ i :: l₂) :
    Filed { m with sub := l₁ ++ l₂ } where
  lt := h.lt
  packed := (hl ▸ h.packed).remove
  nodup := (List.nodup_cons.mp (List.nodup_middle.mp (hl ▸ h.nodup))).2

/-! ## All files -/

/-- The checkpoint files and the control blocks of their ranges. `cp` is what the tasks
hold. -/
structure Space {T : Type u} {F : Type w} (file : F → Main ℕ) (home : ℕ → Option F) (count : ℕ)
    (freed : List (Option ℕ)) (cp : T → Option ℕ) : Prop where
  filed : ∀ f, Filed (file f)
  /-- what is in a list is held -/
  mem : ∀ f i, i ∈ (file f).sub → home i = some f ∧ ∃ t, cp t = some i
  /-- what is held is in its list -/
  held : ∀ t i, cp t = some i → i < count ∧ some i ∉ freed ∧
    ∃ f, home i = some f ∧ i ∈ (file f).sub
  inj : ∀ t u i, cp t = some i → cp u = some i → t = u
  /-- what has been allocated is freed or held -/
  all : ∀ i < count, some i ∈ freed ∨ ∃ t, cp t = some i
  nodup : freed.Nodup
  null : none ∉ freed
  lt : ∀ i, some i ∈ freed → i < count

section Space

variable {T : Type u} {F : Type w} [DecidableEq T] [DecidableEq F] {file : F → Main ℕ}
  {home : ℕ → Option F} {count : ℕ} {freed : List (Option ℕ)} {cp cp' : T → Option ℕ} {f : F}
  {t : T}

/-- A control block is allocated for a task that has none. -/
theorem Space.alloc (h : Space file home count freed cp) (ht : cp t = none)
    (hg : ckpgap (file f) n = some (l₁, a, l₂)) :
    Space (Function.update file f
        ({ file f with pcb := Function.update (file f).pcb count ⟨a, n, false⟩ }.lnkpcb l₁ count
          l₂))
      (Function.update home count (some f)) (count + 1) freed
      (Function.update cp t (some count)) := by
  have hnew : ∀ g, count ∉ (file g).sub := by
    intro g hc
    obtain ⟨-, u, hu⟩ := h.mem g count hc
    exact absurd (h.held u count hu).1 (lt_irrefl _)
  have hold : ∀ u i, cp u = some i → i ≠ count := fun u i hu => (h.held u i hu).1.ne
  have hl : (file f).sub = l₁ ++ l₂ := by
    rw [(h.filed f).ckpgap_eq] at hg
    exact (gap_eq_some (h.filed f).packed hg).1
  have hcp : ∀ u i, Function.update cp t (some count) u = some i →
      u = t ∧ i = count ∨ u ≠ t ∧ cp u = some i := by
    intro u i hu
    rcases eq_or_ne u t with rfl | hne
    · rw [Function.update_self] at hu
      exact Or.inl ⟨rfl, (Option.some.inj hu).symm⟩
    · rw [Function.update_of_ne hne] at hu
      exact Or.inr ⟨hne, hu⟩
  have hsub : ∀ g i, i ∈ (Function.update file f
      ({ file f with pcb := Function.update (file f).pcb count ⟨a, n, false⟩ }.lnkpcb l₁ count
        l₂) g).sub ↔ i = count ∧ g = f ∨ i ∈ (file g).sub := by
    intro g i
    rcases eq_or_ne g f with rfl | hne
    · rw [Function.update_self]
      dsimp only [Main.lnkpcb]
      rw [hl]
      simp only [List.mem_append, List.mem_cons]
      tauto
    · rw [Function.update_of_ne hne]
      simp [hne]
  refine ⟨fun g => ?_, fun g i hi => ?_, fun u i hu => ?_, fun u w i hu hw => ?_,
    fun i hi => ?_, h.nodup, h.null, fun i hi => (h.lt i hi).trans (Nat.lt_succ_self _)⟩
  · rcases eq_or_ne g f with rfl | hne
    · rw [Function.update_self]
      exact (h.filed g).insert (hnew g) hg
    · rw [Function.update_of_ne hne]
      exact h.filed g
  · rcases (hsub g i).mp hi with ⟨rfl, rfl⟩ | hi
    · exact ⟨Function.update_self .., t, Function.update_self ..⟩
    · obtain ⟨hhome, u, hu⟩ := h.mem g i hi
      have hut : u ≠ t := by
        rintro rfl
        exact nomatch ht.symm.trans hu
      exact ⟨(Function.update_of_ne (hold u i hu) ..).trans hhome, u,
        (Function.update_of_ne hut ..).trans hu⟩
  · rcases hcp u i hu with ⟨-, rfl⟩ | ⟨-, hu⟩
    · exact ⟨Nat.lt_succ_self _, fun hc => absurd (h.lt _ hc) (lt_irrefl _), f,
        Function.update_self .., (hsub f _).mpr (Or.inl ⟨rfl, rfl⟩)⟩
    · obtain ⟨hlt, hfr, g, hhome, hmem⟩ := h.held u i hu
      exact ⟨hlt.trans (Nat.lt_succ_self _), hfr, g,
        (Function.update_of_ne (hold u i hu) ..).trans hhome, (hsub g i).mpr (Or.inr hmem)⟩
  · rcases hcp u i hu with ⟨hut, hi⟩ | ⟨-, hu'⟩ <;>
      rcases hcp w i hw with ⟨hwt, hi'⟩ | ⟨-, hw'⟩
    · exact hut.trans hwt.symm
    · exact absurd hi (hold w i hw')
    · exact absurd hi' (hold u i hu')
    · exact h.inj u w i hu' hw'
  · rcases Nat.lt_succ_iff_lt_or_eq.mp hi with hi | rfl
    · rcases h.all i hi with hfr | ⟨u, hu⟩
      · exact Or.inl hfr
      · have hut : u ≠ t := by
          rintro rfl
          exact nomatch ht.symm.trans hu
        exact Or.inr ⟨u, (Function.update_of_ne hut ..).trans hu⟩
    · exact Or.inr ⟨t, Function.update_self ..⟩

/-- The control block of a task is freed. -/
theorem Space.free (h : Space file home count freed cp) (ht : cp t = some i)
    (hf : home i = some f) (hl : (file f).sub = l₁ ++ i :: l₂) :
    Space (Function.update file f { file f with sub := l₁ ++ l₂ }) home count
      (freed ++ [some i]) (Function.update cp t none) := by
  have hcp : ∀ u j, Function.update cp t none u = some j → u ≠ t ∧ cp u = some j := by
    intro u j hu
    rcases eq_or_ne u t with rfl | hne
    · rw [Function.update_self] at hu
      cases hu
    · exact ⟨hne, by rwa [Function.update_of_ne hne] at hu⟩
  have hnd := List.nodup_cons.mp (List.nodup_middle.mp (hl ▸ (h.filed f).nodup))
  have hsub : ∀ g j, j ∈ (Function.update file f { file f with sub := l₁ ++ l₂ } g).sub ↔
      j ≠ i ∧ j ∈ (file g).sub := by
    intro g j
    rcases eq_or_ne g f with rfl | hne
    · rw [Function.update_self, hl]
      simp only [List.mem_append, List.mem_cons]
      constructor
      · intro hj
        have hji : j ≠ i := fun he => hnd.1 (he ▸ List.mem_append.mpr hj)
        exact ⟨hji, by tauto⟩
      · tauto
    · rw [Function.update_of_ne hne]
      refine ⟨fun hj => ⟨?_, hj⟩, And.right⟩
      rintro rfl
      exact hne (Option.some.inj ((h.mem g j hj).1.symm.trans hf))
  have hfr := (h.held t i ht).2.1
  refine ⟨fun g => ?_, fun g j hj => ?_, fun u j hu => ?_, fun u w j hu hw => ?_,
    fun j hj => ?_, ?_, ?_, fun j hj => ?_⟩
  · rcases eq_or_ne g f with rfl | hne
    · rw [Function.update_self]
      exact (h.filed g).remove hl
    · rw [Function.update_of_ne hne]
      exact h.filed g
  · obtain ⟨hji, hj⟩ := (hsub g j).mp hj
    obtain ⟨hhome, u, hu⟩ := h.mem g j hj
    have hut : u ≠ t := fun he => hji (Option.some.inj (hu.symm.trans (he ▸ ht)))
    exact ⟨hhome, u, (Function.update_of_ne hut ..).trans hu⟩
  · obtain ⟨hut, hu⟩ := hcp u j hu
    obtain ⟨hlt, hjf, g, hhome, hmem⟩ := h.held u j hu
    have hji : j ≠ i := fun he => hut (h.inj u t j hu (he ▸ ht))
    refine ⟨hlt, ?_, g, hhome, (hsub g j).mpr ⟨hji, hmem⟩⟩
    simpa [hji] using hjf
  · exact h.inj u w j (hcp u j hu).2 (hcp w j hw).2
  · rcases h.all j hj with hjf | ⟨u, hu⟩
    · exact Or.inl (List.mem_append_left _ hjf)
    · rcases eq_or_ne u t with rfl | hne
      · rw [Option.some.inj (hu.symm.trans ht)]
        exact Or.inl (List.mem_append_right _ (List.mem_singleton_self _))
      · exact Or.inr ⟨u, (Function.update_of_ne hne ..).trans hu⟩
  · exact List.nodup_append.mpr ⟨h.nodup, List.nodup_singleton _, by
      rintro a ha b hb rfl
      exact hfr (List.mem_singleton.mp hb ▸ ha)⟩
  · simpa using h.null
  · rcases List.mem_append.mp hj with hj | hj
    · exact h.lt j hj
    · rw [Option.some.inj (List.mem_singleton.mp hj)]
      exact (h.held t i ht).1

end Space

end RSX280.Chkpt
