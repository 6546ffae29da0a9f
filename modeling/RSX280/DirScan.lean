import Mathlib.Order.Fin.Basic
import RSX280.FileDirs

/-!
# What the searches of a directory say

A search that does not fail says which versions of a name there are, so an entry written after
it is a new one.
-/

namespace RSX280.FileDirs

universe u

variable {N : Type u}

/-! ## Well-formed directories -/

/-- Entry `i` is one of the directory and used. -/
def Dir.Used (d : Dir N) (i : ℕ) : Prop := i < d.size ∧ (d.entries i).indx ≠ 0

/-- No two entries with the same name and version, and all versions those of created files -/
structure Dir.Valid (d : Dir N) : Prop where
  unique : ∀ i j, d.Used i → d.Used j → (d.entries i).name = (d.entries j).name →
    (d.entries i).ver = (d.entries j).ver → i = j
  range : ∀ i, d.Used i → 0 < (d.entries i).ver ∧ (d.entries i).ver < 65535

/-- The entry has a name and version that no other entry than `i` has. -/
def Dir.Fresh (d : Dir N) (i : ℕ) (e : Entry N) : Prop :=
  e.indx ≠ 0 → (0 < e.ver ∧ e.ver < 65535) ∧
    ∀ j, d.Used j → j ≠ i → (d.entries j).name = e.name → (d.entries j).ver ≠ e.ver

theorem fresh_unused {d : Dir N} {i : ℕ} {e : Entry N} (h : e.indx = 0) : d.Fresh i e :=
  fun hused => absurd h hused

theorem Dir.Used.mono {d d' : Dir N} {i : ℕ} (h : d.Used i) (hsize : d.size ≤ d'.size)
    (he : d.entries i = d'.entries i) : d'.Used i :=
  ⟨h.1.trans_le hsize, he ▸ h.2⟩

/-- A prefix of a directory is as good as the directory. -/
theorem Dir.Valid.prefix {d d' : Dir N} (h : d'.Valid) (hsize : d.size ≤ d'.size)
    (he : ∀ i < d.size, d.entries i = d'.entries i) : d.Valid := by
  refine ⟨fun i j hi hj hname hver => ?_, fun i hi => ?_⟩
  · have h₁ := he i hi.1
    have h₂ := he j hj.1
    rw [h₁, h₂] at hname hver
    exact h.unique i j (hi.mono hsize h₁) (hj.mono hsize h₂) hname hver
  · rw [he i hi.1]
    exact h.range i (hi.mono hsize (he i hi.1))

/-- `Function.update` of an entry, with the end wherever all before it is old or the entry -/
theorem Dir.Valid.update {d : Dir N} {i size : ℕ} {e : Entry N} (h : d.Valid)
    (hsize : ∀ j < size, j ≠ i → j < d.size) (hfresh : d.Fresh i e) :
    (⟨Function.update d.entries i e, size⟩ : Dir N).Valid := by
  have old : ∀ j, (⟨Function.update d.entries i e, size⟩ : Dir N).Used j → j ≠ i →
      d.Used j ∧ Function.update d.entries i e j = d.entries j := by
    intro j hj hne
    have he : Function.update d.entries i e j = d.entries j := Function.update_of_ne hne _ _
    exact ⟨⟨hsize j hj.1 hne, he ▸ hj.2⟩, he⟩
  have new : (⟨Function.update d.entries i e, size⟩ : Dir N).Used i → e.indx ≠ 0 := by
    intro hi
    simpa using hi.2
  refine ⟨fun j k hj hk hname hver => ?_, fun j hj => ?_⟩
  · by_cases hji : j = i <;> by_cases hki : k = i
    · rw [hji, hki]
    · subst hji
      obtain ⟨hused, he⟩ := old k hk hki
      simp only [Function.update_self, he] at hname hver
      exact absurd hver.symm ((hfresh (new hj)).2 k hused hki hname.symm)
    · subst hki
      obtain ⟨hused, he⟩ := old j hj hji
      simp only [Function.update_self, he] at hname hver
      exact absurd hver ((hfresh (new hk)).2 j hused hji hname)
    · obtain ⟨hj, he⟩ := old j hj hji
      obtain ⟨hk, he'⟩ := old k hk hki
      simp only [he, he'] at hname hver
      exact h.unique j k hj hk hname hver
  · by_cases hji : j = i
    · subst hji
      simpa using (hfresh (new hj)).1
    · obtain ⟨hj, he⟩ := old j hj hji
      simpa only [he] using h.range j hj

theorem Dir.Valid.write {d : Dir N} {i : ℕ} {e : Entry N} (h : d.Valid) (hi : i ≤ d.size)
    (hfresh : d.Fresh i e) (o : Outcome) : (d.write i e o).Valid := by
  cases o with
  | fail => exact h
  | stay => exact h.update (fun j hj _ => hj) hfresh
  | grow =>
    refine h.update (fun j hj hne => ?_) hfresh
    have : j < max d.size (i + 1) := hj
    omega

/-! ## Versions -/

variable {d : Dir N} {f : Fin 65536}

theorem newVer_explicit {s : Spec N} (hs : s.vmode = true) : newVer s f = .ok s.ver := if_pos hs

theorem lt_succ {f : Fin 65536} (hf : f < 65535) : f < f + 1 := by
  simp only [Fin.lt_def, Fin.val_add] at hf ⊢
  omega

theorem vmode_ne {s : Spec N} (hs : s.vmode = true) : s.ver ≠ 0 := by
  intro h
  simp [Spec.vmode, h] at hs

theorem succ_lt {f : Fin 65536} (hf : f < 65535) (hne : f ≠ 65534) : f + 1 < 65535 := by
  have hv : (f : ℕ) ≠ 65534 := fun h => hne (Fin.ext h)
  simp only [Fin.lt_def, Fin.val_add] at hf ⊢
  omega

theorem pos_of_ne_zero {f : Fin 65536} (hf : f ≠ 0) : 0 < f := Fin.pos_of_ne_zero hf

theorem lt_of_ne {f : Fin 65536} (hf : f ≠ 65535) : f < 65535 :=
  lt_of_le_of_ne (Fin.le_last f) hf

theorem newVer_next {s : Spec N} {ver : Fin 65536} (hs : s.vmode = false) (hf : f < 65535)
    (h : newVer s f = .ok ver) : f < ver ∧ ver < 65535 := by
  rw [newVer, if_neg (by simp [hs])] at h
  split at h
  next => cases h
  next hlim =>
    cases h
    exact ⟨lt_succ hf, lt_of_ne hlim⟩

/-- A search for the next version stays below the limit. -/
theorem Dir.Valid.fvers_lt (h : d.Valid) (hf : f = 0 ∨ ∃ i < 0 + d.size, (d.entries i).indx ≠ 0 ∧
    (d.entries i).ver = f) : f < 65535 := by
  rcases hf with rfl | ⟨i, hi, hused, rfl⟩
  · decide
  · exact (h.range i ⟨by omega, hused⟩).2

/-! ## What a search says -/

variable [DecidableEq N] {n k : ℕ}

theorem fcbcmp_iff {s : Spec N} {m : Bool} {e : Entry N} :
    fcbcmp s m e = true ↔ s.name = e.name ∧ (m = true → s.ver = e.ver) := by
  cases m <;> simp [fcbcmp]

/-- One entry first, and then the others -/
theorem from_succ {P : ℕ → Prop} (h₀ : P k) (h : ∀ i, k + 1 ≤ i → i < k + 1 + n → P i) :
    ∀ i, k ≤ i → i < k + (n + 1) → P i := by
  intro i hk hi
  rcases Nat.eq_or_lt_of_le hk with rfl | hlt
  · exact h₀
  · exact h i hlt (by omega)

attribute [elab_as_elim] mkf2.induct_unfolding fren2.induct_unfolding

theorem mkf2_explicit {s : Spec N} {p : Option ℕ} {r : Fin 65536 × Option ℕ}
    (h : mkf2 d s n k f p = .ok r) (hs : s.vmode = true) :
    ∀ i, k ≤ i → i < k + n → (d.entries i).indx ≠ 0 → (d.entries i).name = s.name →
      (d.entries i).ver ≠ s.ver := by
  fun_induction mkf2 d s n k f p with
  | case1 => omega
  | case2 n k f p e hfree ih => exact from_succ (fun hused => absurd hfree hused) (ih h)
  | case3 => cases h
  | case4 n k f p e hused hcmp hnot => exact absurd hs hnot
  | case5 n k f p e hused hcmp ih =>
    refine from_succ (fun _ hname hver => hcmp ?_) (ih h)
    exact fcbcmp_iff.mpr ⟨hname.symm, fun _ => hver.symm⟩

theorem mkf2_newest {s : Spec N} {p : Option ℕ} {r : Fin 65536 × Option ℕ}
    (h : mkf2 d s n k f p = .ok r) (hs : s.vmode = false) :
    f ≤ r.1 ∧ ∀ i, k ≤ i → i < k + n → (d.entries i).indx ≠ 0 → (d.entries i).name = s.name →
      (d.entries i).ver ≤ r.1 := by
  fun_induction mkf2 d s n k f p with
  | case1 =>
    cases h
    exact ⟨le_rfl, by omega⟩
  | case2 n k f p e hfree ih =>
    obtain ⟨hle, hall⟩ := ih h
    exact ⟨hle, from_succ (fun hused => absurd hfree hused) hall⟩
  | case3 n k f p e hused hcmp hs' => simp [hs] at hs'
  | case4 n k f p e hused hcmp hnot ih =>
    obtain ⟨hle, hall⟩ := ih h
    split at hle
    next hlt => exact ⟨hlt.le.trans hle, from_succ (fun _ _ => hle) hall⟩
    next hlt => exact ⟨hle, from_succ (fun _ _ => (not_lt.mp hlt).trans hle) hall⟩
  | case5 n k f p e hused hcmp ih =>
    obtain ⟨hle, hall⟩ := ih h
    refine ⟨hle, from_succ (fun _ hname => absurd ?_ hcmp) hall⟩
    exact fcbcmp_iff.mpr ⟨hname.symm, by simp [hs]⟩

/-- The highest version is one of the directory, or what it was to begin with. -/
theorem mkf2_fvers {s : Spec N} {p : Option ℕ} {r : Fin 65536 × Option ℕ}
    (h : mkf2 d s n k f p = .ok r) :
    r.1 = f ∨ ∃ i < k + n, (d.entries i).indx ≠ 0 ∧ (d.entries i).name = s.name ∧
      (d.entries i).ver = r.1 := by
  fun_induction mkf2 d s n k f p with
  | case1 =>
    cases h
    exact Or.inl rfl
  | case2 n k f p e hfree ih | case5 n k f p e hused hcmp ih =>
    rcases ih h with heq | ⟨i, hi, hr⟩
    · exact Or.inl heq
    · exact Or.inr ⟨i, by omega, hr⟩
  | case3 => cases h
  | case4 n k f p e hused hcmp hnot ih =>
    rcases ih h with heq | ⟨i, hi, hr⟩
    · split at heq
      · exact Or.inr ⟨k, by omega, hused, (fcbcmp_iff.mp hcmp).1.symm, heq.symm⟩
      · exact Or.inl heq
    · exact Or.inr ⟨i, by omega, hr⟩

theorem mkf2_dirpos {s : Spec N} {p : Option ℕ} {r : Fin 65536 × Option ℕ}
    (h : mkf2 d s n k f p = .ok r) {q : ℕ} (hq : r.2 = some q) :
    p = some q ∨ q < k + n := by
  fun_induction mkf2 d s n k f p with
  | case1 =>
    cases h
    exact Or.inl hq
  | case2 n k f p e hfree ih =>
    rcases ih h with heq | hlt
    · cases p with
      | none =>
        cases heq
        exact Or.inr (by simp)
      | some => exact Or.inl heq
    · exact Or.inr (by omega)
  | case3 => cases h
  | case4 n k f p e hused hcmp hnot ih | case5 n k f p e hused hcmp ih =>
    rcases ih h with heq | hlt
    · exact Or.inl heq
    · exact Or.inr (by omega)

theorem fren2_explicit {old new : Spec N} {p : Option (ℕ × ℕ)} {r : Fin 65536 × Option (ℕ × ℕ)}
    (h : fren2 d old new n k f p = .ok r) (hs : new.vmode = true) :
    ∀ i, k ≤ i → i < k + n → (d.entries i).indx ≠ 0 → (d.entries i).name = new.name →
      (d.entries i).ver ≠ new.ver := by
  fun_induction fren2 d old new n k f p with
  | case1 => omega
  | case2 n k f p e hfree ih => exact from_succ (fun hused => absurd hfree hused) (ih h)
  | case3 => cases h
  | case4 n k f p e hused hcmp f' p' ih =>
    refine from_succ (fun _ hname hver => hcmp ?_) (ih h)
    have : fcbcmp new new.vmode e = true := fcbcmp_iff.mpr ⟨hname.symm, fun _ => hver.symm⟩
    rw [this, hs]
    rfl

theorem fren2_newest {old new : Spec N} {p : Option (ℕ × ℕ)} {r : Fin 65536 × Option (ℕ × ℕ)}
    (h : fren2 d old new n k f p = .ok r) (hs : new.vmode = false) :
    f ≤ r.1 ∧ ∀ i, k ≤ i → i < k + n → (d.entries i).indx ≠ 0 → (d.entries i).name = new.name →
      (d.entries i).ver ≤ r.1 := by
  fun_induction fren2 d old new n k f p with
  | case1 =>
    cases h
    exact ⟨le_rfl, by omega⟩
  | case2 n k f p e hfree ih =>
    obtain ⟨hle, hall⟩ := ih h
    exact ⟨hle, from_succ (fun hused => absurd hfree hused) hall⟩
  | case3 => cases h
  | case4 n k f p e hused hcmp f' p' ih =>
    obtain ⟨hle, hall⟩ := ih h
    have hf : f ≤ f' ∧ (e.name = new.name → e.ver ≤ f') := by
      have hcmp : e.name = new.name → fcbcmp new new.vmode e = true :=
        fun hname => fcbcmp_iff.mpr ⟨hname.symm, by simp [hs]⟩
      by_cases hlt : fcbcmp new new.vmode e = true ∧ f < e.ver
      · rw [show f' = e.ver from if_pos hlt]
        exact ⟨hlt.2.le, fun _ => le_rfl⟩
      · rw [show f' = f from if_neg hlt]
        exact ⟨le_rfl, fun hname => not_lt.mp fun h => hlt ⟨hcmp hname, h⟩⟩
    exact ⟨hf.1.trans hle, from_succ (fun _ hname => (hf.2 hname).trans hle) hall⟩

theorem fren2_fvers {old new : Spec N} {p : Option (ℕ × ℕ)} {r : Fin 65536 × Option (ℕ × ℕ)}
    (h : fren2 d old new n k f p = .ok r) :
    r.1 = f ∨ ∃ i < k + n, (d.entries i).indx ≠ 0 ∧ (d.entries i).name = new.name ∧
      (d.entries i).ver = r.1 := by
  fun_induction fren2 d old new n k f p with
  | case1 =>
    cases h
    exact Or.inl rfl
  | case2 n k f p e hfree ih =>
    rcases ih h with heq | ⟨i, hi, hr⟩
    · exact Or.inl heq
    · exact Or.inr ⟨i, by omega, hr⟩
  | case3 => cases h
  | case4 n k f p e hused hcmp f' p' ih =>
    rcases ih h with heq | ⟨i, hi, hr⟩
    · by_cases hlt : fcbcmp new new.vmode e = true ∧ f < e.ver
      · rw [show f' = e.ver from if_pos hlt] at heq
        exact Or.inr ⟨k, by omega, hused, (fcbcmp_iff.mp hlt.1).1.symm, heq.symm⟩
      · rw [show f' = f from if_neg hlt] at heq
        exact Or.inl heq
    · exact Or.inr ⟨i, by omega, hr⟩

/-- The old name is found where it is. -/
theorem fren2_found {old new : Spec N} {p : Option (ℕ × ℕ)} {r : Fin 65536 × Option (ℕ × ℕ)}
    (h : fren2 d old new n k f p = .ok r) {q ino : ℕ} (hq : r.2 = some (q, ino)) :
    p = some (q, ino) ∨ q < k + n ∧ (d.entries q).indx ≠ 0 ∧ (d.entries q).indx = ino ∧
      fcbcmp old true (d.entries q) = true := by
  fun_induction fren2 d old new n k f p with
  | case1 =>
    cases h
    exact Or.inl hq
  | case2 n k f p e hfree ih =>
    rcases ih h with heq | ⟨hi, hr⟩
    · exact Or.inl heq
    · exact Or.inr ⟨by omega, hr⟩
  | case3 => cases h
  | case4 n k f p e hused hcmp f' p' ih =>
    rcases ih h with heq | ⟨hi, hr⟩
    · by_cases hold : fcbcmp old true e = true
      · rw [show p' = some (k, e.indx) from if_pos hold] at heq
        cases heq
        exact Or.inr ⟨by omega, hused, rfl, hold⟩
      · rw [show p' = p from if_neg hold] at heq
        exact Or.inl heq
    · exact Or.inr ⟨by omega, hr⟩

theorem search_some {s : Spec N} {m : Bool} {q : ℕ} (h : search d s m n k = some q) :
    q < k + n ∧ (d.entries q).indx ≠ 0 ∧ fcbcmp s m (d.entries q) = true := by
  fun_induction search d s m n k with
  | case1 => cases h
  | case2 n k e hmatch =>
    cases h
    exact ⟨by omega, hmatch⟩
  | case3 n k e hmatch ih =>
    obtain ⟨hlt, hr⟩ := ih h
    exact ⟨by omega, hr⟩

theorem search_congr {d : Dir N} {s s' : Spec N} (hs : s.name = s'.name) {n k : ℕ} :
    search d s false n k = search d s' false n k := by
  induction n generalizing k with
  | zero => rfl
  | succ n ih => simp only [search, fcbcmp, hs, ih, Bool.not_false, Bool.true_or, Bool.and_true]

end RSX280.FileDirs
