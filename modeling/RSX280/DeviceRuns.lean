import RSX280.Device
import Mathlib.Data.List.Pairwise
import Mathlib.Order.Nat
import Mathlib.Tactic.Common

/-!
# Assignments as a map

`Names U` is what the table is for: a map from slots (local and login for each terminal, and
global) and names to devices. The table refines it: what `$ASGN`, `$DEASN` and `$CLASN` do to
the list is an update of the map, and `$FNDEV` looks a name up in it, except `TI0:`.
-/

namespace RSX280.Device

universe u

variable {U : Type u} [DecidableEq U]

/-! ## The map -/

/-- Where a name is assigned. -/
inductive Slot (U : Type u) where
  | lcl (ti : U)
  | lgn (ti : U)
  | gbl
  deriving DecidableEq

/-- The slot of a type, as terminal `ti` sees it. -/
def Kind.slot (ti : U) : Kind → Slot U
  | .lcl => .lcl ti
  | .lgn => .lgn ti
  | .gbl => .gbl

/-- The assignments there are. -/
abbrev Names (U : Type u) : Type u := Slot U → DevName → Option U

namespace Names

/-- Local before login before global before physical. -/
def lookup (phys : List (Dcb U)) (m : Names U) (ti : U) (n : DevName) : Option U :=
  m (.lcl ti) n <|> m (.lgn ti) n <|> m .gbl n <|> phydv n phys

/-- As `lookup`, with `TI0:` the terminal itself. -/
def resolve (phys : List (Dcb U)) (m : Names U) (ti : U) (n : DevName) : Option U :=
  if n = ti0 then some ti else m.lookup phys ti n

/-- Assign, or remove an assignment. -/
def put (m : Names U) (s : Slot U) (n : DevName) (v : Option U) : Names U :=
  Function.update m s (Function.update (m s) n v)

/-- What a call makes of the map. -/
def run (phys : List (Dcb U)) (m : Names U) : Op U → Names U
  | .asgn cur k ti n p pool =>
    match m.resolve phys cur p with
    | none => m
    | some ucb => if pool || (m (k.slot ti) n).isSome then m.put (k.slot ti) n (some ucb) else m
  | .deasn k ti n => m.put (k.slot ti) n none
  | .clasn k ti => Function.update m (k.slot ti) fun _ => none

end Names

/-! ## Order of names -/

/-- The name as a number. -/
def DevName.key (n : DevName) : ℕ := (n.e.toNat * 256 + n.d.toNat) * 256 + n.unit.toNat

theorem DevName.key_inj {a b : DevName} (h : a.key = b.key) : a = b := by
  have h₁ := a.d.toNat_lt
  have h₂ := b.d.toNat_lt
  have h₃ := a.unit.toNat_lt
  have h₄ := b.unit.toNat_lt
  simp only [key] at h
  cases a
  cases b
  simp only [DevName.mk.injEq, ← UInt8.toNat_inj]
  dsimp only at *
  omega

/-- `FNDLOG` compares the numbers. -/
theorem DevName.cp_spec (a b : DevName) :
    match a.cp b with
    | .lt => a.key < b.key
    | .gt => b.key < a.key
    | .eq => a = b := by
  have h₁ := a.d.toNat_lt
  have h₂ := b.d.toNat_lt
  have h₃ := a.unit.toNat_lt
  have h₄ := b.unit.toNat_lt
  by_cases heq : a = b
  · rw [heq]
    simp [cp]
  have hkey : a.key ≠ b.key := fun h => heq (key_inj h)
  simp only [cp, UInt8.lt_iff_toNat_lt, ne_eq, ← UInt8.toNat_inj]
  split_ifs with h₅ h₆ h₇ h₈ h₉ h₁₀ <;> simp only [key] at hkey ⊢ <;> omega

/-! ## The table in order -/

/-- The slot of a record. -/
def Rec.slot (r : Rec U) : Slot U := r.kind.slot r.ti

/-- By type, and by name among the records of one slot. -/
def Sorted (tab : List (Rec U)) : Prop :=
  tab.Pairwise fun a b => a.kind.code ≤ b.kind.code ∧ (a.slot = b.slot → a.name.key < b.name.key)

/-- The map that the table stands for. -/
def toNames (tab : List (Rec U)) : Names U := fun s n =>
  (tab.find? fun r => decide (r.slot = s ∧ r.name = n)).map Rec.ucb

theorem Kind.code_inj {k l : Kind} (h : k.code = l.code) : k = l := by
  cases k <;> cases l <;> first | rfl | cases h

omit [DecidableEq U] in
theorem Rec.slot_eq {r : Rec U} {k : Kind} {ti : U} :
    r.slot = k.slot ti ↔ r.kind = k ∧ (r.kind = .gbl ∨ r.ti = ti) := by
  obtain ⟨l, t, n, v⟩ := r
  cases k <;> cases l <;> simp [Rec.slot, Kind.slot]

omit [DecidableEq U] in
/-- Each slot and name has one record at most. -/
theorem Sorted.nodup {tab : List (Rec U)} (h : Sorted tab) :
    (tab.map fun r => (r.slot, r.name)).Nodup := by
  refine List.pairwise_map.mpr (h.imp fun {a b} hab heq => ?_)
  obtain ⟨hs, hn⟩ := Prod.mk.inj heq
  exact absurd (hab.2 hs) (by rw [hn]; exact lt_irrefl _)

theorem mem_of_toNames {tab : List (Rec U)} {s : Slot U} {n : DevName} {v : U}
    (h : toNames tab s n = some v) : ∃ r ∈ tab, r.slot = s ∧ r.name = n ∧ r.ucb = v := by
  obtain ⟨r, hr, rfl⟩ := Option.map_eq_some_iff.mp h
  have hp : r.slot = s ∧ r.name = n := by simpa using List.find?_some hr
  exact ⟨r, List.mem_of_find?_eq_some hr, hp.1, hp.2, rfl⟩

theorem toNames_eq_none {tab : List (Rec U)} {s : Slot U} {n : DevName} :
    toNames tab s n = none ↔ ∀ r ∈ tab, r.slot = s → r.name ≠ n := by
  simp [toNames]

theorem Sorted.toNames_eq {tab : List (Rec U)} (h : Sorted tab) {r : Rec U} (hr : r ∈ tab) :
    toNames tab r.slot r.name = some r.ucb := by
  cases hv : toNames tab r.slot r.name with
  | none => exact absurd rfl (toNames_eq_none.mp hv r hr rfl)
  | some v =>
    obtain ⟨q, hq, hs, hn, rfl⟩ := mem_of_toNames hv
    rw [List.inj_on_of_nodup_map h.nodup hq hr (Prod.ext hs hn)]

/-! ## What `FNDLOG` finds -/

theorem fndlog_split (b : Option Kind) (ti : U) (n : DevName) (tab : List (Rec U)) :
    tab = (fndlog b ti n tab).before ++ ((fndlog b ti n tab).hit.toList ++
      (fndlog b ti n tab).after) := by
  induction tab with
  | nil => rfl
  | cons r l ih =>
    rw [fndlog]
    split
    · exact congrArg (r :: ·) ih
    · rfl
    · rfl

/-- A record of the type looked for. -/
theorem look_some (k : Kind) (ti : U) (n : DevName) (r : Rec U) :
    match look (some k) ti n r with
    | .skip => r.kind.code ≤ k.code ∧ (r.slot = k.slot ti → r.name.key < n.key)
    | .nfnd => k.code < r.kind.code ∨ r.slot = k.slot ti ∧ n.key < r.name.key
    | .found => r.slot = k.slot ti ∧ r.name = n := by
  have hcp := r.name.cp_spec n
  rw [look, Rec.slot_eq]
  by_cases h₁ : r.kind.code < k.code
  · have hne : r.kind ≠ k := fun h => absurd h₁ (by rw [h]; exact lt_irrefl _)
    simp [h₁, hne, h₁.le]
  by_cases h₂ : r.kind = k
  · subst h₂
    by_cases h₃ : r.kind ≠ .gbl ∧ r.ti ≠ ti
    · simp [h₃]
    have h₄ : r.kind = .gbl ∨ r.ti = ti := by tauto
    simp only [Option.any_some, lt_irrefl, decide_false, Bool.false_eq_true, ↓reduceIte, ne_eq,
      not_true_eq_false, h₃, h₄, reduceCtorEq, false_and]
    split at hcp <;> simp_all
  · have h₅ : r.kind.code ≠ k.code := fun h => h₂ (Kind.code_inj h)
    simp only [Option.any_some, h₁, decide_false, Bool.false_eq_true, ↓reduceIte, ne_eq, h₂,
      not_false_eq_true, decide_true]
    exact Or.inl (by omega)

theorem fndlog_before (k : Kind) (ti : U) (n : DevName) (tab : List (Rec U)) :
    ∀ r ∈ (fndlog (some k) ti n tab).before,
      r.kind.code ≤ k.code ∧ (r.slot = k.slot ti → r.name.key < n.key) := by
  induction tab with
  | nil => exact fun r hr => nomatch hr
  | cons q l ih =>
    have hq := look_some k ti n q
    intro r hr
    rw [fndlog] at hr
    split at hr
    · next hlook =>
      rw [hlook] at hq
      rcases List.mem_cons.mp hr with rfl | hr
      · exact hq
      · exact ih r hr
    · cases hr
    · cases hr

theorem fndlog_hit {k : Kind} {ti : U} {n : DevName} {tab : List (Rec U)} {r : Rec U}
    (h : (fndlog (some k) ti n tab).hit = some r) : r.slot = k.slot ti ∧ r.name = n := by
  induction tab with
  | nil => cases h
  | cons q l ih =>
    have hq := look_some k ti n q
    rw [fndlog] at h
    split at h
    · exact ih h
    · cases h
    · next hlook =>
      rw [hlook] at hq
      obtain rfl := Option.some.inj h
      exact hq

/-- Where nothing is found, what follows comes after the name. -/
theorem fndlog_after {k : Kind} {ti : U} {n : DevName} {tab : List (Rec U)} (ht : Sorted tab)
    (h : (fndlog (some k) ti n tab).hit = none) :
    ∀ r ∈ (fndlog (some k) ti n tab).after,
      k.code ≤ r.kind.code ∧ (r.slot = k.slot ti → n.key < r.name.key) := by
  induction tab with
  | nil => exact fun r hr => nomatch hr
  | cons q l ih =>
    obtain ⟨hql, hl⟩ := List.pairwise_cons.mp ht
    have hq := look_some k ti n q
    rw [fndlog] at h ⊢
    split at h
    · exact ih hl h
    · next hlook =>
      rw [hlook] at hq
      have hkind : ∀ r : Rec U, r.slot = k.slot ti → r.kind = k := fun r hr => (Rec.slot_eq.mp hr).1
      intro r hr
      rcases hq with hcode | ⟨hslot, hkey⟩
      · have hle : k.code < r.kind.code := by
          rcases List.mem_cons.mp hr with rfl | hr
          · exact hcode
          · exact hcode.trans_le (hql r hr).1
        exact ⟨hle.le, fun hs => absurd hle (by rw [hkind r hs]; exact lt_irrefl _)⟩
      · rcases List.mem_cons.mp hr with rfl | hr
        · exact ⟨(congrArg Kind.code (hkind r hslot)).ge, fun _ => hkey⟩
        · refine ⟨?_, fun hs => hkey.trans ((hql r hr).2 (hslot.trans hs.symm))⟩
          have hle := (hql r hr).1
          rwa [hkind q hslot] at hle
    · cases h

/-- A terminal sees its own records and the global ones. -/
def Rec.Seen (ti : U) (r : Rec U) : Prop := r.kind = .gbl ∨ r.ti = ti

theorem look_none (ti : U) (n : DevName) (r : Rec U) :
    match look none ti n r with
    | .skip => r.Seen ti → r.name ≠ n
    | .nfnd => r.kind = .gbl ∧ n.key < r.name.key
    | .found => r.Seen ti ∧ r.name = n := by
  have hcp := r.name.cp_spec n
  have hne : r.name.key < n.key ∨ n.key < r.name.key → r.name ≠ n := by
    rintro h rfl
    exact h.elim (lt_irrefl _) (lt_irrefl _)
  rw [look]
  by_cases h₁ : r.kind ≠ .gbl ∧ r.ti ≠ ti
  · simp [h₁, Rec.Seen]
  have h₂ : r.Seen ti := by unfold Rec.Seen; tauto
  cases hc : r.name.cp n with
  | lt =>
    rw [hc] at hcp
    simpa [h₁] using fun _ => hne (Or.inl hcp)
  | gt =>
    rw [hc] at hcp
    by_cases h₃ : r.kind = .gbl
    · simpa [h₃] using hcp
    · simpa [h₁, h₃] using fun _ => hne (Or.inr hcp)
  | eq =>
    rw [hc] at hcp
    simpa [h₁] using And.intro h₂ hcp

/-- The search for a name of any type finds the first record that the terminal sees. -/
theorem fndlog_none (ti : U) (n : DevName) {tab : List (Rec U)} (ht : Sorted tab) :
    match (fndlog none ti n tab).hit with
    | some r => r.Seen ti ∧ r.name = n ∧
        ∀ q ∈ (fndlog none ti n tab).before, q.Seen ti → q.name ≠ n
    | none => ∀ q ∈ tab, q.Seen ti → q.name ≠ n := by
  induction tab with
  | nil => exact fun q hq => nomatch hq
  | cons q l ih =>
    obtain ⟨hql, hl⟩ := List.pairwise_cons.mp ht
    have hq := look_none ti n q
    have hl := ih hl
    rw [fndlog]
    cases hlook : look none ti n q with
    | skip =>
      rw [hlook] at hq
      dsimp only
      split at hl
      · refine ⟨hl.1, hl.2.1, fun r hr => ?_⟩
        rcases List.mem_cons.mp hr with rfl | hr
        · exact hq
        · exact hl.2.2 r hr
      · intro r hr
        rcases List.mem_cons.mp hr with rfl | hr
        · exact hq
        · exact hl r hr
    | nfnd =>
      -- a global record with a greater name: all that follow are global too
      rw [hlook] at hq
      obtain ⟨hgbl, hkey⟩ := hq
      intro r hr hseen hn
      subst hn
      rcases List.mem_cons.mp hr with rfl | hr
      · exact lt_irrefl _ hkey
      · obtain ⟨hcode, hlt⟩ := hql r hr
        have hr : r.kind = .gbl := by
          rw [hgbl] at hcode
          cases hk : r.kind <;> rw [hk] at hcode <;> first | rfl | exact absurd hcode (by decide)
        refine lt_irrefl _ (hkey.trans (hlt ?_))
        rw [Rec.slot, Rec.slot, hgbl, hr, Kind.slot, Kind.slot]
    | found =>
      rw [hlook] at hq
      exact ⟨hq.1, hq.2, fun r hr => nomatch hr⟩

/-! ## What the calls do to the map -/

theorem toNames_congr {l l' : List (Rec U)} (h' : Sorted l') {s : Slot U}
    {n : DevName} (hm : ∀ r : Rec U, r.slot = s → r.name = n → (r ∈ l' ↔ r ∈ l)) :
    toNames l' s n = toNames l s n := by
  cases hv : toNames l s n with
  | none => exact toNames_eq_none.mpr fun r hr hs hn =>
      toNames_eq_none.mp hv r ((hm r hs hn).mp hr) hs hn
  | some v =>
    obtain ⟨r, hr, rfl, rfl, rfl⟩ := mem_of_toNames hv
    exact h'.toNames_eq ((hm r rfl rfl).mpr hr)

/-- Only what is at one slot and name changes. -/
theorem toNames_put {l l' : List (Rec U)} (h' : Sorted l') {s : Slot U} {n : DevName}
    (hm : ∀ r : Rec U, ¬(r.slot = s ∧ r.name = n) → (r ∈ l' ↔ r ∈ l)) :
    toNames l' = (toNames l).put s n (toNames l' s n) := by
  funext t m
  rw [Names.put]
  rcases eq_or_ne t s with rfl | ht
  · rw [Function.update_self]
    rcases eq_or_ne m n with rfl | hn
    · rw [Function.update_self]
    · rw [Function.update_of_ne hn]
      exact toNames_congr h' fun r _ hr => hm r fun hr' => hn (hr.symm.trans hr'.2)
  · rw [Function.update_of_ne ht]
    exact toNames_congr h' fun r hr _ => hm r fun hr' => ht (hr.symm.trans hr'.1)

section Spot

variable {tab : List (Rec U)} {k : Kind} {ti : U} {n : DevName}

/-- The record found is replaced. -/
theorem Sorted.replace (h : Sorted tab) {r : Rec U} (hr : (fndlog (some k) ti n tab).hit = some r)
    (v : U) :
    let l := (fndlog (some k) ti n tab).before ++ { r with ucb := v } ::
      (fndlog (some k) ti n tab).after
    Sorted l ∧ toNames l = (toNames tab).put (k.slot ti) n (some v) := by
  obtain ⟨hs, hn⟩ := fndlog_hit hr
  have htab := fndlog_split (some k) ti n tab
  rw [hr, Option.toList_some, List.singleton_append] at htab
  generalize (fndlog (some k) ti n tab).before = l₁ at htab ⊢
  generalize (fndlog (some k) ti n tab).after = l₂ at htab ⊢
  have hl : Sorted (l₁ ++ { r with ucb := v } :: l₂) := by
    rw [htab] at h
    obtain ⟨h₁, h₂, h₁₂⟩ := List.pairwise_append.mp h
    obtain ⟨hr₂, h₂⟩ := List.pairwise_cons.mp h₂
    refine List.pairwise_append.mpr ⟨h₁, List.pairwise_cons.mpr ⟨hr₂, h₂⟩, fun a ha b hb => ?_⟩
    rcases List.mem_cons.mp hb with rfl | hb
    · exact h₁₂ a ha r List.mem_cons_self
    · exact h₁₂ a ha b (List.mem_cons_of_mem _ hb)
  have hv : toNames (l₁ ++ { r with ucb := v } :: l₂) (k.slot ti) n = some v := by
    have := hl.toNames_eq (r := { r with ucb := v }) (List.mem_append_right _ List.mem_cons_self)
    rwa [← hs, ← hn]
  refine ⟨hl, ?_⟩
  rw [← hv]
  refine toNames_put hl fun q hq => ?_
  have hqr : ∀ w, q ≠ { r with ucb := w } := by
    rintro w rfl
    exact hq ⟨hs, hn⟩
  have hqr' := hqr r.ucb
  simp only [htab, List.mem_append, List.mem_cons]
  exact or_congr_right (by simp only [hqr v, false_or]; exact (or_iff_right hqr').symm)

/-- A record is put where the search stopped. -/
theorem Sorted.insert (h : Sorted tab) (hr : (fndlog (some k) ti n tab).hit = none) (v : U) :
    let l := (fndlog (some k) ti n tab).before ++ ⟨k, ti, n, v⟩ :: (fndlog (some k) ti n tab).after
    Sorted l ∧ toNames l = (toNames tab).put (k.slot ti) n (some v) := by
  have htab := fndlog_split (some k) ti n tab
  rw [hr, Option.toList_none, List.nil_append] at htab
  have hbefore := fndlog_before k ti n tab
  have hafter := fndlog_after h hr
  generalize (fndlog (some k) ti n tab).before = l₁ at htab hbefore ⊢
  generalize (fndlog (some k) ti n tab).after = l₂ at htab hafter ⊢
  have hl : Sorted (l₁ ++ ⟨k, ti, n, v⟩ :: l₂) := by
    rw [htab] at h
    obtain ⟨h₁, h₂, h₁₂⟩ := List.pairwise_append.mp h
    refine List.pairwise_append.mpr ⟨h₁, List.pairwise_cons.mpr ⟨fun b hb => ?_, h₂⟩,
      fun a ha b hb => ?_⟩
    · exact ⟨(hafter b hb).1, fun hs => (hafter b hb).2 hs.symm⟩
    · rcases List.mem_cons.mp hb with rfl | hb
      · exact hbefore a ha
      · exact h₁₂ a ha b hb
  have hv := hl.toNames_eq (r := ⟨k, ti, n, v⟩) (List.mem_append_right _ List.mem_cons_self)
  refine ⟨hl, ?_⟩
  rw [← show toNames _ (k.slot ti) n = some v from hv]
  refine toNames_put hl fun q hq => ?_
  have hqr : q ≠ ⟨k, ti, n, v⟩ := by
    rintro rfl
    exact hq ⟨rfl, rfl⟩
  simp only [htab, List.mem_append, List.mem_cons, hqr, false_or]

/-- The record found is taken out. -/
theorem Sorted.erase (h : Sorted tab) {r : Rec U} (hr : (fndlog (some k) ti n tab).hit = some r) :
    let l := (fndlog (some k) ti n tab).before ++ (fndlog (some k) ti n tab).after
    Sorted l ∧ toNames l = (toNames tab).put (k.slot ti) n none := by
  obtain ⟨hs, hn⟩ := fndlog_hit hr
  have htab := fndlog_split (some k) ti n tab
  rw [hr, Option.toList_some, List.singleton_append] at htab
  generalize (fndlog (some k) ti n tab).before = l₁ at htab ⊢
  generalize (fndlog (some k) ti n tab).after = l₂ at htab ⊢
  have hnodup := h.nodup
  have hl : Sorted (l₁ ++ l₂) := by
    rw [htab] at h
    exact List.Pairwise.sublist (List.Sublist.append_left (List.sublist_cons_self r l₂) l₁) h
  have hv : toNames (l₁ ++ l₂) (k.slot ti) n = none := by
    refine toNames_eq_none.mpr fun q hq hqs hqn => ?_
    rw [htab, List.map_append, List.map_cons] at hnodup
    refine (List.nodup_middle.mp hnodup).notMem ?_
    rw [← List.map_append]
    exact List.mem_map.mpr ⟨q, hq, by rw [hqs, hqn, hs, hn]⟩
  refine ⟨hl, ?_⟩
  rw [← hv]
  refine toNames_put hl fun q hq => ?_
  have hqr : q ≠ r := by
    rintro rfl
    exact hq ⟨hs, hn⟩
  simp only [htab, List.mem_append, List.mem_cons, hqr, false_or]

/-- Nothing is found: the name is not assigned. -/
theorem Sorted.unassigned (h : Sorted tab) (hr : (fndlog (some k) ti n tab).hit = none) :
    toNames tab (k.slot ti) n = none := by
  have htab := fndlog_split (some k) ti n tab
  rw [hr, Option.toList_none, List.nil_append] at htab
  refine toNames_eq_none.mpr fun q hq hs hn => ?_
  rw [htab] at hq
  subst hn
  rcases List.mem_append.mp hq with hq | hq
  · exact lt_irrefl _ ((fndlog_before k ti _ tab q hq).2 hs)
  · exact lt_irrefl _ ((fndlog_after h hr q hq).2 hs)

theorem Sorted.assigned (h : Sorted tab) {r : Rec U}
    (hr : (fndlog (some k) ti n tab).hit = some r) :
    toNames tab (k.slot ti) n = some r.ucb := by
  obtain ⟨hs, hn⟩ := fndlog_hit hr
  have htab := fndlog_split (some k) ti n tab
  rw [← hs, ← hn]
  refine h.toNames_eq ?_
  rw [htab, hr, Option.toList_some]
  exact List.mem_append_right _ (List.mem_append_left _ List.mem_cons_self)

end Spot

/-- `$CLASN` removes the records of one slot. -/
theorem Sorted.mem_clasn {k : Kind} {ti : U} {tab : List (Rec U)} (h : Sorted tab) {r : Rec U} :
    r ∈ clasn k ti tab ↔ r ∈ tab ∧ r.slot ≠ k.slot ti := by
  induction tab with
  | nil => simp [clasn]
  | cons q l ih =>
    obtain ⟨hql, hl⟩ := List.pairwise_cons.mp h
    have ih := ih hl
    rw [clasn]
    split
    · next hlt =>
      have hq : q.slot ≠ k.slot ti := fun hs => by
        rw [(Rec.slot_eq.mp hs).1] at hlt
        exact lt_irrefl _ hlt
      rw [List.mem_cons, List.mem_cons, ih]
      constructor
      · rintro (rfl | hr)
        · exact ⟨Or.inl rfl, hq⟩
        · exact ⟨Or.inr hr.1, hr.2⟩
      · exact fun ⟨hr, hs⟩ => hr.imp_right fun hr => ⟨hr, hs⟩
    split
    · next hlt hne =>
      -- the type is past
      have hpast : k.code < q.kind.code :=
        lt_of_le_of_ne (not_lt.mp hlt) fun he => hne (Kind.code_inj he.symm)
      refine ⟨fun hr => ⟨hr, fun hs => ?_⟩, fun hr => hr.1⟩
      have hle : q.kind.code ≤ r.kind.code := by
        rcases List.mem_cons.mp hr with rfl | hr
        · exact le_rfl
        · exact (hql r hr).1
      rw [(Rec.slot_eq.mp hs).1] at hle
      exact absurd hpast (not_lt.mpr hle)
    split
    · next hne hti =>
      have hq : q.slot = k.slot ti := Rec.slot_eq.mpr ⟨not_not.mp hne, hti⟩
      rw [ih, List.mem_cons]
      refine and_congr_left fun hs => (or_iff_right ?_).symm
      rintro rfl
      exact hs hq
    · next hne hti =>
      have hq : q.slot ≠ k.slot ti := fun hs => hti (Rec.slot_eq.mp hs).2
      rw [List.mem_cons, List.mem_cons, ih]
      constructor
      · rintro (rfl | hr)
        · exact ⟨Or.inl rfl, hq⟩
        · exact ⟨Or.inr hr.1, hr.2⟩
      · exact fun ⟨hr, hs⟩ => hr.imp_right fun hr => ⟨hr, hs⟩

theorem clasn_sublist (k : Kind) (ti : U) (tab : List (Rec U)) : (clasn k ti tab).Sublist tab := by
  induction tab with
  | nil => exact List.Sublist.refl _
  | cons q l ih =>
    rw [clasn]
    split
    · exact ih.cons_cons q
    split
    · exact List.Sublist.refl _
    split
    · exact ih.cons q
    · exact ih.cons_cons q

theorem Sorted.clasn {tab : List (Rec U)} (h : Sorted tab) (k : Kind) (ti : U) :
    Sorted (clasn k ti tab) ∧
      toNames (Device.clasn k ti tab) = Function.update (toNames tab) (k.slot ti) fun _ => none := by
  have hs : Sorted (Device.clasn k ti tab) := List.Pairwise.sublist (clasn_sublist k ti tab) h
  refine ⟨hs, ?_⟩
  funext s n
  rcases eq_or_ne s (k.slot ti) with rfl | hne
  · rw [Function.update_self]
    exact toNames_eq_none.mpr fun r hr hrs => absurd hrs (h.mem_clasn.mp hr).2
  · rw [Function.update_of_ne hne]
    refine toNames_congr hs fun r hrs _ => ?_
    rw [h.mem_clasn]
    exact and_iff_left (hrs.trans_ne hne)

/-! ## Runs -/

/-- `$FNDEV` resolves as the map does. -/
theorem Sorted.fndev_eq {phys : List (Dcb U)} {tab : List (Rec U)} (h : Sorted tab) (ti : U)
    (n : DevName) : fndev phys tab ti n = (toNames tab).resolve phys ti n := by
  rw [fndev, Names.resolve]
  split
  · rfl
  have hspot := fndlog_none ti n h
  have htab := fndlog_split none ti n tab
  have hseen : ∀ {r : Rec U} (k : Kind), r.slot = k.slot ti → r.Seen ti :=
    fun k hr => (Rec.slot_eq.mp hr).2
  rw [Names.lookup]
  cases hhit : (fndlog none ti n tab).hit with
  | none =>
    rw [hhit] at hspot
    have hnone : ∀ k : Kind, toNames tab (k.slot ti) n = none := fun k =>
      toNames_eq_none.mpr fun r hr hs => hspot r hr (hseen k hs)
    rw [show toNames tab (.lcl ti) n = none from hnone .lcl,
      show toNames tab (.lgn ti) n = none from hnone .lgn,
      show toNames tab .gbl n = none from hnone .gbl]
    rfl
  | some r =>
    rw [hhit] at hspot htab
    obtain ⟨hvis, rfl, hbefore⟩ := hspot
    rw [Option.toList_some, List.singleton_append] at htab
    have hr : toNames tab (r.kind.slot ti) r.name = some r.ucb := by
      rw [← Rec.slot_eq.mpr ⟨rfl, hvis⟩]
      refine h.toNames_eq ?_
      rw [htab]
      exact List.mem_append_right _ List.mem_cons_self
    -- of an earlier type there is no record: it would have been found first
    have hnone : ∀ k : Kind, k.code < r.kind.code → toNames tab (k.slot ti) r.name = none := by
      intro k hk
      refine toNames_eq_none.mpr fun q hq hs hn => ?_
      rw [htab] at h hq
      rcases List.mem_append.mp hq with hq | hq
      · exact hbefore q hq (hseen k hs) hn
      · have hle : r.kind.code ≤ q.kind.code := by
          rcases List.mem_cons.mp hq with rfl | hq
          · exact le_rfl
          · exact ((List.pairwise_cons.mp (List.pairwise_append.mp h).2.1).1 q hq).1
        rw [(Rec.slot_eq.mp hs).1] at hle
        exact absurd hk (not_lt.mpr hle)
    cases hk : r.kind with
    | lcl =>
      rw [hk] at hr
      rw [show toNames tab (.lcl ti) r.name = _ from hr]
      rfl
    | lgn =>
      rw [hk] at hr hnone
      rw [show toNames tab (.lcl ti) r.name = none from hnone .lcl (by decide),
        show toNames tab (.lgn ti) r.name = _ from hr]
      rfl
    | gbl =>
      rw [hk] at hr hnone
      rw [show toNames tab (.lcl ti) r.name = none from hnone .lcl (by decide),
        show toNames tab (.lgn ti) r.name = none from hnone .lgn (by decide),
        show toNames tab .gbl r.name = _ from hr]
      rfl

theorem Names.put_self (m : Names U) (s : Slot U) (n : DevName) : m.put s n (m s n) = m := by
  rw [Names.put, Function.update_eq_self, Function.update_eq_self]

/-- One call. -/
theorem Sorted.run (phys : List (Dcb U)) {tab : List (Rec U)} (h : Sorted tab) (op : Op U) :
    Sorted (op.run phys tab) ∧ toNames (op.run phys tab) = (toNames tab).run phys op := by
  cases op with
  | asgn cur k ti n p pool =>
    rw [Op.run, asgn, Names.run, h.fndev_eq]
    cases (toNames tab).resolve phys cur p with
    | none => exact ⟨h, rfl⟩
    | some v =>
      dsimp only
      cases hhit : (fndlog (some k) ti n tab).hit with
      | some r =>
        rw [h.assigned hhit, Option.isSome_some, Bool.or_true, if_pos rfl]
        exact h.replace hhit v
      | none =>
        rw [h.unassigned hhit, Option.isSome_none, Bool.or_false]
        cases pool with
        | true => exact h.insert hhit v
        | false => exact ⟨h, rfl⟩
  | deasn k ti n =>
    rw [Op.run, deasn, Names.run]
    cases hhit : (fndlog (some k) ti n tab).hit with
    | some r => exact h.erase hhit
    | none =>
      have hself := Names.put_self (toNames tab) (k.slot ti) n
      rw [h.unassigned hhit] at hself
      exact ⟨h, hself.symm⟩
  | clasn k ti => exact h.clasn k ti

/-- The calls, one after another. -/
def runAll (phys : List (Dcb U)) (ops : List (Op U)) : List (Rec U) :=
  ops.foldl (fun tab op => op.run phys tab) []

/-- What they make of the map. -/
def Names.runAll (phys : List (Dcb U)) (ops : List (Op U)) : Names U :=
  ops.foldl (fun m op => m.run phys op) fun _ _ => none

theorem sorted_runAll (phys : List (Dcb U)) (ops : List (Op U)) :
    Sorted (runAll phys ops) ∧ toNames (runAll phys ops) = Names.runAll phys ops := by
  have hgen : ∀ (tab : List (Rec U)) (m : Names U), Sorted tab → toNames tab = m →
      Sorted (ops.foldl (fun tab op => op.run phys tab) tab) ∧
        toNames (ops.foldl (fun tab op => op.run phys tab) tab) =
          ops.foldl (fun m op => m.run phys op) m := by
    induction ops with
    | nil => exact fun tab m h hm => ⟨h, hm⟩
    | cons op ops ih =>
      intro tab m h hm
      obtain ⟨hs, hn⟩ := h.run phys op
      exact ih _ _ hs (hn.trans (by rw [hm]))
  exact hgen [] _ List.Pairwise.nil rfl

/-- **Logical devices are a map.** After any calls each slot and name has one record at most,
the table stands for the map that the calls make, and `$FNDEV` finds what is assigned locally,
else at login, else globally, else the physical device; but `TI0:` is always the terminal. -/
theorem resolves_of_run (phys : List (Dcb U)) (ops : List (Op U)) :
    ((runAll phys ops).map fun r => (r.slot, r.name)).Nodup ∧
      toNames (runAll phys ops) = Names.runAll phys ops ∧
      ∀ ti n, fndev phys (runAll phys ops) ti n =
        if n = ti0 then some ti else (Names.runAll phys ops).lookup phys ti n := by
  obtain ⟨h, hn⟩ := sorted_runAll phys ops
  refine ⟨h.nodup, hn, fun ti n => ?_⟩
  rw [h.fndev_eq, hn, Names.resolve]

/-- A null device, unit 0 of it at `9`. -/
def nl : List (Dcb ℕ) := [⟨78, 76, 1, [9]⟩]

/-- `TI0:` is assigned to the null device, but remains the terminal. -/
theorem ti0_not_resolved : ∃ (ops : List (Op ℕ)) (ti : ℕ),
    fndev nl (runAll nl ops) ti ti0 ≠ (Names.runAll nl ops).lookup nl ti ti0 :=
  ⟨[.asgn 1 .lcl 1 ti0 ⟨78, 76, 0⟩ true], 1, by decide⟩

end RSX280.Device
