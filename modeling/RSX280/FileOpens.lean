import Mathlib.Data.List.Basic
import RSX280.DirScan

/-!
# Opening a file (`FOPEN` of `fileio.mac`)

`FOPEN` reads a directory from its first entry on, to find the version that a filespec asks
for: the highest one, the lowest one, or the one it gives. What is done with the index file
entry of the version that is found is a parameter, an error other than `E.FNF` or none.
-/

namespace RSX280.FileDirs

universe u

variable {N : Type u} [DecidableEq N]

/-- `vmode` of `FOPEN`. -/
inductive Vmode
  /-- 0: track the highest version -/
  | highest
  /-- 1: match the exact version -/
  | exact
  /-- 2: track the lowest version -/
  | lowest
  deriving DecidableEq

/-- The version search mode that `FOPEN` sets. -/
def Spec.mode (s : Spec N) : Vmode :=
  if !s.fnver then .highest
  else if s.ver = 0 then .highest
  else if s.ver + 1 = 0 then .lowest
  else .exact

/-- What the search keeps: `fvers`, and the directory entry in `diren2`. -/
structure Found (N : Type u) where
  fvers : Fin 65536
  diren2 : Entry N

/-- `fopn1`, from where an entry has been read: what is kept after it, and whether the search
ends there. -/
def look (s : Spec N) (e : Entry N) (r : Found N) : Found N × Bool :=
  let fopn5 (de : Fin 65536) : Found N × Bool := (⟨de, e⟩, s.mode = .exact)
  if e.indx = 0 then (r, false)
  else if !fcbcmp s (s.mode = .exact) e then (r, false)
  else
    let de := e.ver
    let hl := r.fvers
    if hl = 0 then fopn5 de
    else
      -- the exchange that turns the comparison around is not undone before `fopn5`
      let (hl, de) := if s.mode = .lowest then (de, hl) else (hl, de)
      if de ≤ hl then (r, false) else fopn5 de

/-- `fopn1`, with the entry number in 16 bits; `none` is a search that has not ended. -/
def fopn1 (d : Dir N) (s : Spec N) : ℕ → ℕ → Found N → Option (Found N)
  | 0, _, _ => none
  | n + 1, dirno, r =>
    if d.size ≤ dirno then some r
    else if (look s (d.entries dirno) r).2 then some (look s (d.entries dirno) r).1
    else fopn1 d s n ((dirno + 1) % 65536) (look s (d.entries dirno) r).1

/-- `FOPEN` from where the directory is open: an error of the search, or the entry whose file is
opened with what comes of it. `late` is what the index file entry, its lock bit and protection,
and the memory for an FCB give; `old` is what `diren2` held. -/
def fopen (d : Dir N) (s : Spec N) (late : ℕ → Option { e : Err // e ≠ .fnf }) (old : Entry N)
    (n : ℕ) : Option (Except Err (Entry N × Option { e : Err // e ≠ .fnf })) :=
  (fopn1 d s n 0 ⟨0, old⟩).map fun r =>
    if r.fvers = 0 then .error .fnf else .ok (r.diren2, late r.diren2.indx)

/-! ## What is asked for -/

/-- The entries of a directory. -/
def Dir.list (d : Dir N) : List (Entry N) := (List.range d.size).map d.entries

/-- A used entry with the name. -/
def Spec.Names (s : Spec N) (e : Entry N) : Prop := e.indx ≠ 0 ∧ s.name = e.name

instance (s : Spec N) (e : Entry N) : Decidable (s.Names e) := by
  unfold Spec.Names; infer_instance

/-- An entry of the name with the version. -/
def Spec.Wants (s : Spec N) (l : List (Entry N)) (e : Entry N) : Prop :=
  e ∈ l ∧ s.Names e ∧
    match s.mode with
    | .highest => ∀ x ∈ l, s.Names x → x.ver ≤ e.ver
    | .exact => e.ver = s.ver
    | .lowest => ∀ x ∈ l, s.Names x → e.ver ≤ x.ver

/-- The file of a wanted entry is opened, or there is none and the error says so. -/
def Opens (d : Dir N) (s : Spec N) (late : ℕ → Option { e : Err // e ≠ .fnf })
    (r : Except Err (Entry N × Option { e : Err // e ≠ .fnf })) : Prop :=
  (∃ e, s.Wants d.list e ∧ r = .ok (e, late e.indx)) ∨
    (∀ e, ¬s.Wants d.list e) ∧ r = .error .fnf

/-! ## One entry -/

variable {d : Dir N} {s : Spec N} {e : Entry N} {r : Found N}

/-- An entry that is unused or has another name is passed over. -/
theorem look_other (h : ¬s.Names e) : look s e r = (r, false) := by
  rw [look]
  by_cases h0 : e.indx = 0
  · rw [if_pos h0]
  · rw [if_neg h0, if_pos]
    have hn : ¬s.name = e.name := fun hn => h ⟨h0, hn⟩
    simp [fcbcmp, hn]

theorem look_highest (hm : s.mode = .highest) (h : s.Names e) :
    look s e r = (if r.fvers = 0 ∨ r.fvers < e.ver then ⟨e.ver, e⟩ else r, false) := by
  rw [look, if_neg h.1, if_neg (by simp [fcbcmp, h.2, hm])]
  by_cases h0 : r.fvers = 0
  · simp [h0, hm]
  · by_cases hv : e.ver ≤ r.fvers
    · simp [h0, hm, hv]
    · simp [h0, hm, hv, not_le.mp hv]

/-- Looking for the lowest version, `fvers` stays what it was first. -/
theorem look_lowest (hm : s.mode = .lowest) (h : s.Names e) :
    look s e r = (if r.fvers = 0 then ⟨e.ver, e⟩
      else if e.ver < r.fvers then ⟨r.fvers, e⟩ else r, false) := by
  rw [look, if_neg h.1, if_neg (by simp [fcbcmp, h.2, hm])]
  by_cases h0 : r.fvers = 0
  · simp [h0, hm]
  · by_cases hv : r.fvers ≤ e.ver
    · simp [h0, hm, hv, not_lt.mpr hv]
    · simp [h0, hm, hv, not_le.mp hv]

theorem look_exact (hm : s.mode = .exact) (h : s.Names e) (hr : r.fvers = 0) :
    look s e r = if e.ver = s.ver then (⟨e.ver, e⟩, true) else (r, false) := by
  rw [look, if_neg h.1]
  by_cases hv : e.ver = s.ver
  · simp [fcbcmp, h.2, hm, hv, hr]
  · simp [fcbcmp, h.2, hm, hv, Ne.symm hv]

/-- A search for the highest or lowest version goes on. -/
theorem look_snd (hm : s.mode ≠ .exact) : (look s e r).2 = false := by
  by_cases h : s.Names e
  · cases hm' : s.mode with
    | highest => rw [look_highest hm' h]
    | exact => exact absurd hm' hm
    | lowest => rw [look_lowest hm' h]
  · rw [look_other h]

/-! ## All of them -/

/-- The search over a list of entries. -/
def scan (s : Spec N) : List (Entry N) → Found N → Found N
  | [], r => r
  | e :: l, r => if (look s e r).2 then (look s e r).1 else scan s l (look s e r).1

/-- The search ends if entry numbers do not run over. -/
theorem fopn1_eq (hd : d.size < 65536) {n k : ℕ} (hk : k ≤ d.size) (hn : d.size - k < n) :
    fopn1 d s n k r = some (scan s ((List.range' k (d.size - k)).map d.entries) r) := by
  obtain ⟨m, hm⟩ : ∃ m, m = d.size - k := ⟨_, rfl⟩
  induction m generalizing k n r with
  | zero =>
    obtain ⟨n, rfl⟩ : ∃ n', n = n' + 1 := ⟨n - 1, by omega⟩
    rw [fopn1, if_pos (by omega), ← hm]
    rfl
  | succ m ih =>
    obtain ⟨n, rfl⟩ : ∃ n', n = n' + 1 := ⟨n - 1, by omega⟩
    have hmod : (k + 1) % 65536 = k + 1 := Nat.mod_eq_of_lt (by omega)
    rw [fopn1, if_neg (by omega), ← hm, List.range'_succ, List.map_cons, scan, hmod]
    split
    · rfl
    · rw [ih (by omega) (by omega) (by omega), show m = d.size - (k + 1) by omega]

/-- If they do, a search that does not stop by itself never ends. -/
theorem fopn1_none (hd : 65536 ≤ d.size) (hs : ∀ k < 65536, ∀ r, r.fvers = 0 ∨ s.mode ≠ .exact →
      (look s (d.entries k) r).2 = false ∧
        ((look s (d.entries k) r).1.fvers = 0 ∨ s.mode ≠ .exact))
    {n k : ℕ} (hk : k < 65536) (hr : r.fvers = 0 ∨ s.mode ≠ .exact) :
    fopn1 d s n k r = none := by
  induction n generalizing k r with
  | zero => rfl
  | succ n ih =>
    obtain ⟨hstop, hnext⟩ := hs k hk r hr
    rw [fopn1, if_neg (by omega), hstop, if_neg Bool.false_ne_true]
    exact ih (Nat.mod_lt _ (by omega)) hnext

theorem scan_cons (l : List (Entry N)) (h : (look s e r).2 = false) :
    scan s (e :: l) r = scan s l (look s e r).1 := by
  rw [scan, h, if_neg Bool.false_ne_true]

theorem scan_other (l : List (Entry N)) (h : ¬s.Names e) : scan s (e :: l) r = scan s l r := by
  rw [scan_cons l (by rw [look_other h]), look_other h]

/-- Looking for the highest version, an entry with it is kept. -/
theorem scan_highest (hm : s.mode = .highest) (l : List (Entry N)) (r : Found N) :
    r.fvers ≤ (scan s l r).fvers ∧ (∀ x ∈ l, s.Names x → x.ver ≤ (scan s l r).fvers) ∧
      (scan s l r = r ∨ ∃ x ∈ l, s.Names x ∧ scan s l r = ⟨x.ver, x⟩) := by
  induction l generalizing r with
  | nil => exact ⟨le_rfl, by simp, .inl rfl⟩
  | cons e l ih =>
    by_cases h : s.Names e
    · rw [scan_cons l (look_snd (by simp [hm])), look_highest hm h]
      by_cases hv : r.fvers = 0 ∨ r.fvers < e.ver
      · rw [if_pos hv]
        obtain ⟨hle, hall, hr⟩ := ih ⟨e.ver, e⟩
        have hre : r.fvers ≤ e.ver := by
          rcases hv with hv | hv
          · rw [hv]
            exact Fin.zero_le _
          · exact hv.le
        refine ⟨hre.trans hle, List.forall_mem_cons.mpr ⟨fun _ => hle, hall⟩, .inr ?_⟩
        rcases hr with hr | ⟨x, hx, hxn, hr⟩
        · exact ⟨e, List.mem_cons_self, h, hr⟩
        · exact ⟨x, List.mem_cons_of_mem _ hx, hxn, hr⟩
      · rw [if_neg hv]
        obtain ⟨hle, hall, hr⟩ := ih r
        have her : e.ver ≤ r.fvers := not_lt.mp fun h => hv (.inr h)
        refine ⟨hle, List.forall_mem_cons.mpr ⟨fun _ => her.trans hle, hall⟩, ?_⟩
        rcases hr with hr | ⟨x, hx, hxn, hr⟩
        · exact .inl hr
        · exact .inr ⟨x, List.mem_cons_of_mem _ hx, hxn, hr⟩
    · rw [scan_other l h]
      obtain ⟨hle, hall, hr⟩ := ih r
      refine ⟨hle, List.forall_mem_cons.mpr ⟨fun hn => absurd hn h, hall⟩, ?_⟩
      rcases hr with hr | ⟨x, hx, hxn, hr⟩
      · exact .inl hr
      · exact .inr ⟨x, List.mem_cons_of_mem _ hx, hxn, hr⟩

/-- Looking for a version, the first entry with it ends the search. -/
theorem scan_exact (hm : s.mode = .exact) (l : List (Entry N)) (hr : r.fvers = 0) :
    ((∀ x ∈ l, s.Names x → x.ver ≠ s.ver) ∧ scan s l r = r) ∨
      ∃ x ∈ l, s.Names x ∧ x.ver = s.ver ∧ scan s l r = ⟨x.ver, x⟩ := by
  induction l with
  | nil => exact .inl ⟨by simp, rfl⟩
  | cons e l ih =>
    by_cases h : s.Names e
    · by_cases hv : e.ver = s.ver
      · refine .inr ⟨e, List.mem_cons_self, h, hv, ?_⟩
        rw [scan, look_exact hm h hr, if_pos hv, if_pos rfl]
      · rw [scan_cons l (by rw [look_exact hm h hr, if_neg hv]), look_exact hm h hr, if_neg hv]
        rcases ih with ⟨hall, hs⟩ | ⟨x, hx, hxn⟩
        · exact .inl ⟨List.forall_mem_cons.mpr ⟨fun _ => hv, hall⟩, hs⟩
        · exact .inr ⟨x, List.mem_cons_of_mem _ hx, hxn⟩
    · rw [scan_other l h]
      rcases ih with ⟨hall, hs⟩ | ⟨x, hx, hxn⟩
      · exact .inl ⟨List.forall_mem_cons.mpr ⟨fun hn => absurd hn h, hall⟩, hs⟩
      · exact .inr ⟨x, List.mem_cons_of_mem _ hx, hxn⟩

/-- Behind the first version, the last one below that is kept. -/
theorem scan_lowest_behind (hm : s.mode = .lowest) (l : List (Entry N)) (hr : r.fvers ≠ 0) :
    (scan s l r).fvers = r.fvers ∧
      (((scan s l r).diren2 = r.diren2 ∧ ∀ x ∈ l, s.Names x → r.fvers ≤ x.ver) ∨
        ∃ m₁ e m₂, l = m₁ ++ e :: m₂ ∧ s.Names e ∧ e.ver < r.fvers ∧ (scan s l r).diren2 = e ∧
          ∀ x ∈ m₂, s.Names x → r.fvers ≤ x.ver) := by
  induction l generalizing r with
  | nil => exact ⟨rfl, .inl ⟨rfl, by simp⟩⟩
  | cons e l ih =>
    -- what is kept from the rest is kept from all
    have more {q : Found N} (hq : q.fvers = r.fvers) (h : ∃ m₁ x m₂, l = m₁ ++ x :: m₂ ∧
        s.Names x ∧ x.ver < q.fvers ∧ (scan s l q).diren2 = x ∧
          ∀ y ∈ m₂, s.Names y → q.fvers ≤ y.ver) :
        ∃ m₁ x m₂, e :: l = m₁ ++ x :: m₂ ∧ s.Names x ∧ x.ver < r.fvers ∧
          (scan s l q).diren2 = x ∧ ∀ y ∈ m₂, s.Names y → r.fvers ≤ y.ver := by
      obtain ⟨m₁, x, m₂, hl, hx⟩ := h
      exact ⟨e :: m₁, x, m₂, by rw [hl]; rfl, hq ▸ hx⟩
    by_cases h : s.Names e
    · rw [scan_cons l (look_snd (by simp [hm])), look_lowest hm h, if_neg hr]
      by_cases hv : e.ver < r.fvers
      · rw [if_pos hv]
        obtain ⟨hf, hk | hk⟩ := ih (r := ⟨r.fvers, e⟩) hr
        · exact ⟨hf, .inr ⟨[], e, l, rfl, h, hv, hk⟩⟩
        · exact ⟨hf, .inr (more rfl hk)⟩
      · rw [if_neg hv]
        obtain ⟨hf, ⟨hk, hall⟩ | hk⟩ := ih hr
        · exact ⟨hf, .inl ⟨hk, List.forall_mem_cons.mpr ⟨fun _ => not_lt.mp hv, hall⟩⟩⟩
        · exact ⟨hf, .inr (more rfl hk)⟩
    · rw [scan_other l h]
      obtain ⟨hf, ⟨hk, hall⟩ | hk⟩ := ih hr
      · exact ⟨hf, .inl ⟨hk, List.forall_mem_cons.mpr ⟨fun hn => absurd hn h, hall⟩⟩⟩
      · exact ⟨hf, .inr (more rfl hk)⟩

/-- The first version that is not 0 is kept. -/
theorem scan_lowest (hm : s.mode = .lowest) (l : List (Entry N)) (hr : r.fvers = 0) :
    ((∀ x ∈ l, s.Names x → x.ver = 0) ∧ (scan s l r).fvers = 0) ∨
      ∃ l₁ f l₂, l = l₁ ++ f :: l₂ ∧ s.Names f ∧ f.ver ≠ 0 ∧
        (∀ x ∈ l₁, s.Names x → x.ver = 0) ∧ scan s l r = scan s l₂ ⟨f.ver, f⟩ := by
  induction l generalizing r with
  | nil => exact .inl ⟨by simp, hr⟩
  | cons e l ih =>
    by_cases h : s.Names e
    · rw [scan_cons l (look_snd (by simp [hm])), look_lowest hm h, if_pos hr]
      by_cases hv : e.ver = 0
      · rcases ih (r := ⟨e.ver, e⟩) hv with ⟨hall, hs⟩ | ⟨l₁, f, l₂, rfl, hf, h0, hall, hs⟩
        · exact .inl ⟨List.forall_mem_cons.mpr ⟨fun _ => hv, hall⟩, hs⟩
        · exact .inr ⟨e :: l₁, f, l₂, rfl, hf, h0, List.forall_mem_cons.mpr ⟨fun _ => hv, hall⟩, hs⟩
      · exact .inr ⟨[], e, l, rfl, h, hv, by simp, rfl⟩
    · rw [scan_other l h]
      rcases ih hr with ⟨hall, hs⟩ | ⟨l₁, f, l₂, rfl, hf, h0, hall, hs⟩
      · exact .inl ⟨List.forall_mem_cons.mpr ⟨fun hn => absurd hn h, hall⟩, hs⟩
      · exact .inr ⟨e :: l₁, f, l₂, rfl, hf, h0,
          List.forall_mem_cons.mpr ⟨fun hn => absurd hn h, hall⟩, hs⟩

/-- A search for a version ends at the first entry with it, if its number has 16 bits. -/
theorem fopn1_exact (hm : s.mode = .exact) {n k i : ℕ} (hki : k ≤ i) (hi : i < 65536)
    (hs : i < d.size) (hn : s.Names (d.entries i)) (hv : (d.entries i).ver = s.ver)
    (hf : i - k < n) (hr : r.fvers = 0) :
    ∃ x ∈ d.list, s.Names x ∧ x.ver = s.ver ∧ fopn1 d s n k r = some ⟨x.ver, x⟩ := by
  obtain ⟨m, h⟩ : ∃ m, m = i - k := ⟨_, rfl⟩
  induction m generalizing k n with
  | zero =>
    obtain ⟨n, rfl⟩ : ∃ n', n = n' + 1 := ⟨n - 1, by omega⟩
    obtain rfl : k = i := by omega
    refine ⟨d.entries k, List.mem_map_of_mem (List.mem_range.mpr hs), hn, hv, ?_⟩
    rw [fopn1, if_neg (by omega), look_exact hm hn hr, if_pos hv, if_pos rfl]
  | succ m ih =>
    obtain ⟨n, rfl⟩ : ∃ n', n = n' + 1 := ⟨n - 1, by omega⟩
    have hmod : (k + 1) % 65536 = k + 1 := Nat.mod_eq_of_lt (by omega)
    have next := ih (k := k + 1) (n := n) (by omega) (by omega) (by omega)
    rw [fopn1, if_neg (by omega), hmod]
    by_cases hk : s.Names (d.entries k)
    · rw [look_exact hm hk hr]
      by_cases hkv : (d.entries k).ver = s.ver
      · refine ⟨d.entries k, List.mem_map_of_mem (List.mem_range.mpr (by omega)), hk, hkv, ?_⟩
        rw [if_pos hkv, if_pos rfl]
      · rw [if_neg hkv, if_neg Bool.false_ne_true]
        exact next
    · rw [look_other hk, if_neg Bool.false_ne_true]
      exact next

/-! ## What is opened -/

/-- When a search finds what is asked for: entry numbers do not run over before it ends; a
version of the name is not 0; and for the lowest one, no entry behind it has a version below
that of the first entry (of those before which all have version 0). -/
def Finds (d : Dir N) (s : Spec N) : Prop :=
  match s.mode with
  | .highest => d.size < 65536 ∧
      ((∃ e ∈ d.list, s.Names e) → ∃ e ∈ d.list, s.Names e ∧ e.ver ≠ 0)
  | .exact => d.size < 65536 ∨ ∃ e ∈ d.list.take 65536, s.Names e ∧ e.ver = s.ver
  | .lowest => d.size < 65536 ∧ ((∃ e ∈ d.list, s.Names e) →
      ∃ l₁ f l₂, d.list = l₁ ++ f :: l₂ ∧ s.Names f ∧ f.ver ≠ 0 ∧
        (∀ x ∈ l₁, s.Names x → x.ver = 0) ∧
        ∃ m₁ e m₂, f :: l₂ = m₁ ++ e :: m₂ ∧ s.Names e ∧
          (∀ x ∈ d.list, s.Names x → e.ver ≤ x.ver) ∧ ∀ x ∈ m₂, s.Names x → f.ver ≤ x.ver)

/-- What comes of a search that ends. -/
def Found.outcome (late : ℕ → Option { e : Err // e ≠ .fnf }) (r : Found N) :
    Except Err (Entry N × Option { e : Err // e ≠ .fnf }) :=
  if r.fvers = 0 then .error .fnf else .ok (r.diren2, late r.diren2.indx)

variable {late : ℕ → Option { e : Err // e ≠ .fnf }} {old : Entry N}

theorem fopen_eq (hd : d.size < 65536) {n : ℕ} (hn : d.size < n) :
    fopen d s late old n = some ((scan s d.list ⟨0, old⟩).outcome late) := by
  rw [fopen, fopn1_eq hd (Nat.zero_le _) (by omega), Option.map_some, Nat.sub_zero,
    ← List.range_eq_range', Dir.list, Found.outcome]

omit [DecidableEq N] in
/-- An entry is opened exactly when it is wanted. -/
theorem opens_iff {r : Found N} :
    Opens d s late (r.outcome late) ↔
      if r.fvers = 0 then ∀ e, ¬s.Wants d.list e else s.Wants d.list r.diren2 := by
  rw [Opens, Found.outcome]
  split
  · simp
  · constructor
    · rintro (⟨e, he, h⟩ | ⟨-, h⟩)
      · simp only [Except.ok.injEq, Prod.mk.injEq] at h
        rw [h.1]
        exact he
      · cases h
    · exact fun h => .inl ⟨_, h, rfl⟩

omit [DecidableEq N] in
theorem wants_highest {l : List (Entry N)} (hm : s.mode = .highest) :
    s.Wants l e ↔ e ∈ l ∧ s.Names e ∧ ∀ x ∈ l, s.Names x → x.ver ≤ e.ver := by
  simp only [Spec.Wants, hm]

omit [DecidableEq N] in
theorem wants_exact {l : List (Entry N)} (hm : s.mode = .exact) :
    s.Wants l e ↔ e ∈ l ∧ s.Names e ∧ e.ver = s.ver := by
  simp only [Spec.Wants, hm]

omit [DecidableEq N] in
theorem wants_lowest {l : List (Entry N)} (hm : s.mode = .lowest) :
    s.Wants l e ↔ e ∈ l ∧ s.Names e ∧ ∀ x ∈ l, s.Names x → e.ver ≤ x.ver := by
  simp only [Spec.Wants, hm]

omit [DecidableEq N] in
theorem ver_ne_zero (hm : s.mode = .exact) : s.ver ≠ 0 := by
  intro h
  simp [Spec.mode, h] at hm

theorem opens_highest_iff (hm : s.mode = .highest) :
    Opens d s late ((scan s d.list ⟨0, old⟩).outcome late) ↔
      ((∃ e ∈ d.list, s.Names e) → ∃ e ∈ d.list, s.Names e ∧ e.ver ≠ 0) := by
  obtain ⟨-, hall, hr⟩ := scan_highest hm d.list ⟨0, old⟩
  rw [opens_iff]
  by_cases h0 : (scan s d.list ⟨0, old⟩).fvers = 0
  · rw [if_pos h0]
    have zero : ∀ x ∈ d.list, s.Names x → x.ver = 0 := fun x hx hn =>
      Fin.le_zero_iff.mp (h0 ▸ hall x hx hn)
    constructor
    · intro hw he
      obtain ⟨e, he, hn⟩ := he
      refine absurd ?_ (hw e)
      rw [wants_highest hm]
      exact ⟨he, hn, fun x hx hxn => by rw [zero x hx hxn, zero e he hn]⟩
    · intro hc e hw
      rw [wants_highest hm] at hw
      obtain ⟨x, hx, hxn, hxv⟩ := hc ⟨e, hw.1, hw.2.1⟩
      exact hxv (zero x hx hxn)
  · rw [if_neg h0]
    rcases hr with hr | ⟨x, hx, hxn, hr⟩
    · exact absurd (by rw [hr]) h0
    · rw [hr] at h0 hall ⊢
      refine iff_of_true ?_ fun _ => ⟨x, hx, hxn, h0⟩
      rw [wants_highest hm]
      exact ⟨hx, hxn, hall⟩

theorem opens_exact (hm : s.mode = .exact) :
    Opens d s late ((scan s d.list ⟨0, old⟩).outcome late) := by
  rw [opens_iff]
  rcases scan_exact hm d.list (r := ⟨0, old⟩) rfl with ⟨hall, hs⟩ | ⟨x, hx, hxn, hv, hs⟩
  · rw [hs, if_pos rfl]
    intro e he
    rw [wants_exact hm] at he
    exact hall e he.1 he.2.1 he.2.2
  · rw [hs, if_neg (by rw [hv]; exact ver_ne_zero hm), wants_exact hm]
    exact ⟨hx, hxn, hv⟩

/-- What is kept when looking for the lowest version: the first entry, or the last one below
it. -/
theorem scan_lowest_keeps (hm : s.mode = .lowest) (l₂ : List (Entry N)) {f : Entry N}
    (hf : s.Names f) (h0 : f.ver ≠ 0) :
    (scan s l₂ ⟨f.ver, f⟩).fvers = f.ver ∧ ∃ m₁ e m₂, f :: l₂ = m₁ ++ e :: m₂ ∧
      (scan s l₂ ⟨f.ver, f⟩).diren2 = e ∧ s.Names e ∧ (e = f ∧ m₁ = [] ∨ e.ver < f.ver) ∧
      ∀ x ∈ m₂, s.Names x → f.ver ≤ x.ver := by
  obtain ⟨hv, ⟨hd, hall⟩ | ⟨m₁, e, m₂, hl, hn, hlt, hd, hall⟩⟩ :=
    scan_lowest_behind hm l₂ (r := ⟨f.ver, f⟩) h0
  · exact ⟨hv, [], f, l₂, rfl, hd, hf, .inl ⟨rfl, rfl⟩, hall⟩
  · exact ⟨hv, f :: m₁, e, m₂, by rw [hl]; rfl, hd, hn, .inr hlt, hall⟩

omit [DecidableEq N] in
/-- There is one first entry of the name with another version than 0. -/
theorem first_unique {l₁ l₂ l₁' l₂' : List (Entry N)} {f f' : Entry N}
    (h : l₁ ++ f :: l₂ = l₁' ++ f' :: l₂') (hf : s.Names f) (h0 : f.ver ≠ 0)
    (hl : ∀ x ∈ l₁, s.Names x → x.ver = 0) (hf' : s.Names f') (h0' : f'.ver ≠ 0)
    (hl' : ∀ x ∈ l₁', s.Names x → x.ver = 0) : f :: l₂ = f' :: l₂' := by
  rcases List.append_eq_append_iff.mp h with ⟨a, ha, he⟩ | ⟨a, ha, he⟩
  · rcases a with _ | ⟨x, a⟩
    · exact he
    · obtain ⟨rfl, -⟩ := List.cons.inj he
      exact absurd (hl' f (by rw [ha]; simp) hf) h0
  · rcases a with _ | ⟨x, a⟩
    · exact he.symm
    · obtain ⟨rfl, -⟩ := List.cons.inj he
      exact absurd (hl f' (by rw [ha]; simp) hf') h0'

theorem opens_lowest_iff (hm : s.mode = .lowest) :
    Opens d s late ((scan s d.list ⟨0, old⟩).outcome late) ↔
      ((∃ e ∈ d.list, s.Names e) →
        ∃ l₁ f l₂, d.list = l₁ ++ f :: l₂ ∧ s.Names f ∧ f.ver ≠ 0 ∧
          (∀ x ∈ l₁, s.Names x → x.ver = 0) ∧
          ∃ m₁ e m₂, f :: l₂ = m₁ ++ e :: m₂ ∧ s.Names e ∧
            (∀ x ∈ d.list, s.Names x → e.ver ≤ x.ver) ∧ ∀ x ∈ m₂, s.Names x → f.ver ≤ x.ver) := by
  rw [opens_iff]
  rcases scan_lowest hm d.list (r := ⟨0, old⟩) rfl with
    ⟨zero, hs⟩ | ⟨l₁, f, l₂, hl, hf, h0, hl₁, hs⟩
  · rw [if_pos hs]
    constructor
    · intro hw he
      obtain ⟨e, he, hn⟩ := he
      refine absurd ?_ (hw e)
      rw [wants_lowest hm]
      exact ⟨he, hn, fun x hx hxn => by rw [zero x hx hxn, zero e he hn]⟩
    · intro hc e hw
      rw [wants_lowest hm] at hw
      obtain ⟨l₁, f, l₂, hl, hf, h0, -⟩ := hc ⟨e, hw.1, hw.2.1⟩
      exact h0 (zero f (by rw [hl]; simp) hf)
  · obtain ⟨hv, m₁, e, m₂, hm₁, hd, hn, hef, hm₂⟩ := scan_lowest_keeps hm l₂ hf h0
    rw [hs, if_neg (by rw [hv]; exact h0), hd, wants_lowest hm]
    have mem {x : Entry N} (hx : x ∈ f :: l₂) : x ∈ d.list := by
      rw [hl]
      exact List.mem_append_right _ hx
    constructor
    · intro hw _
      exact ⟨l₁, f, l₂, hl, hf, h0, hl₁, m₁, e, m₂, hm₁, hn, hw.2.2, hm₂⟩
    · intro hc
      obtain ⟨l₁', f', l₂', hl', hf', h0', hl₁', m₁', e', m₂', hm₁', hn', hmin, hm₂'⟩ :=
        hc ⟨f, mem List.mem_cons_self, hf⟩
      have hff : f :: l₂ = f' :: l₂' :=
        first_unique (hl.symm.trans hl') hf h0 hl₁ hf' h0' hl₁'
      obtain ⟨rfl, rfl⟩ := List.cons.inj hff
      refine ⟨mem (by rw [hm₁]; simp), hn, ?_⟩
      -- the entry that is kept lies before the lowest one, at it, or behind it
      rcases List.append_eq_append_iff.mp (hm₁.symm.trans hm₁') with ⟨a, ha, he⟩ | ⟨a, ha, he⟩
      · rcases a with _ | ⟨x, a⟩
        · obtain ⟨rfl, -⟩ := List.cons.inj he
          exact hmin
        · obtain ⟨rfl, rfl⟩ := List.cons.inj he
          have hle : f.ver ≤ e'.ver := hm₂ e' (by simp) hn'
          have hge : e'.ver ≤ e.ver := hmin e (mem (by rw [hm₁]; simp)) hn
          rcases hef with ⟨rfl, -⟩ | hlt
          · exact fun x hx hxn => hle.trans (hmin x hx hxn)
          · exact absurd (hle.trans hge) (not_le.mpr hlt)
      · rcases a with _ | ⟨x, a⟩
        · obtain ⟨rfl, -⟩ := List.cons.inj he
          exact hmin
        · obtain ⟨rfl, rfl⟩ := List.cons.inj he
          rcases hef with ⟨rfl, hnil⟩ | hlt
          · rw [hnil] at ha
            simp at ha
          · exact absurd (hm₂' e (by simp) hn) (not_le.mpr hlt)

/-- A search whose entry numbers run over before it stops never ends. -/
theorem fopen_none (hd : 65536 ≤ d.size)
    (hx : s.mode = .exact → ∀ e ∈ d.list.take 65536, s.Names e → e.ver ≠ s.ver) (n : ℕ) :
    fopen d s late old n = none := by
  rw [fopen, fopn1_none hd (fun k hk r hr => ?_) (by omega) (.inl rfl), Option.map_none]
  by_cases hm : s.mode = .exact
  · have h0 : r.fvers = 0 := hr.resolve_right fun h => h hm
    by_cases hn : s.Names (d.entries k)
    · have hmem : d.entries k ∈ d.list.take 65536 := by
        rw [Dir.list, ← List.map_take, List.take_range]
        exact List.mem_map_of_mem (List.mem_range.mpr (by omega))
      rw [look_exact hm hn h0, if_neg (hx hm _ hmem hn)]
      exact ⟨rfl, .inl h0⟩
    · rw [look_other hn]
      exact ⟨rfl, .inl h0⟩
  · exact ⟨look_snd hm, .inr hm⟩

/-- With fuel enough, a search that ends is the search over the entries. -/
theorem settled_iff (hd : d.size < 65536) :
    (∃ m, ∀ n ≥ m, ∃ r, fopen d s late old n = some r ∧ Opens d s late r) ↔
      Opens d s late ((scan s d.list ⟨0, old⟩).outcome late) := by
  constructor
  · rintro ⟨m, h⟩
    obtain ⟨r, hr, ho⟩ := h (max m (d.size + 1)) (le_max_left ..)
    rw [fopen_eq hd (by omega)] at hr
    rw [Option.some.inj hr]
    exact ho
  · intro ho
    exact ⟨d.size + 1, fun n hn => ⟨_, fopen_eq hd (by omega), ho⟩⟩

/-- A search that finds the version given ends wherever the directory does. -/
theorem settled_exact (hm : s.mode = .exact)
    (hx : ∃ e ∈ d.list.take 65536, s.Names e ∧ e.ver = s.ver) :
    ∃ m, ∀ n ≥ m, ∃ r, fopen d s late old n = some r ∧ Opens d s late r := by
  obtain ⟨e, he, hn, hv⟩ := hx
  rw [Dir.list, ← List.map_take, List.take_range] at he
  obtain ⟨i, hi, rfl⟩ := List.mem_map.mp he
  rw [List.mem_range] at hi
  refine ⟨65536, fun n hn' => ?_⟩
  obtain ⟨x, hx, hxn, hxv, h⟩ := fopn1_exact (n := n) (r := ⟨0, old⟩) hm (Nat.zero_le i)
    (by omega) (by omega) hn hv (by omega) rfl
  refine ⟨_, by rw [fopen, h]; rfl, ?_⟩
  refine opens_iff (r := ⟨x.ver, x⟩) |>.mpr ?_
  rw [if_neg (by rw [hxv]; exact ver_ne_zero hm), wants_exact hm]
  exact ⟨hx, hxn, hxv⟩

/-- `FOPEN` comes to an end and opens the version that is asked for, the highest, the lowest or
the one given, or says that there is none, exactly when the search finds it. -/
theorem opens_wanted_iff (d : Dir N) (s : Spec N) (late : ℕ → Option { e : Err // e ≠ .fnf })
    (old : Entry N) :
    (∃ m, ∀ n ≥ m, ∃ r, fopen d s late old n = some r ∧ Opens d s late r) ↔ Finds d s := by
  have never (hd : ¬d.size < 65536)
      (hx : s.mode = .exact → ∀ e ∈ d.list.take 65536, s.Names e → e.ver ≠ s.ver) :
      ¬∃ m, ∀ n ≥ m, ∃ r, fopen d s late old n = some r ∧ Opens d s late r := by
    rintro ⟨m, h⟩
    obtain ⟨r, hr, -⟩ := h m le_rfl
    rw [fopen_none (by omega) hx] at hr
    cases hr
  cases hm : s.mode with
  | highest =>
    have hf : Finds d s ↔ d.size < 65536 ∧
        ((∃ e ∈ d.list, s.Names e) → ∃ e ∈ d.list, s.Names e ∧ e.ver ≠ 0) := by
      simp only [Finds, hm]
    rw [hf]
    by_cases hd : d.size < 65536
    · rw [settled_iff hd, opens_highest_iff hm, and_iff_right hd]
    · exact iff_of_false (never hd (by simp [hm])) fun h => hd h.1
  | exact =>
    have hf : Finds d s ↔ d.size < 65536 ∨
        ∃ e ∈ d.list.take 65536, s.Names e ∧ e.ver = s.ver := by
      simp only [Finds, hm]
    rw [hf]
    by_cases hd : d.size < 65536
    · exact iff_of_true ((settled_iff hd).mpr (opens_exact hm)) (.inl hd)
    · by_cases hx : ∃ e ∈ d.list.take 65536, s.Names e ∧ e.ver = s.ver
      · exact iff_of_true (settled_exact hm hx) (.inr hx)
      · refine iff_of_false (never hd fun _ e he hn hv => hx ⟨e, he, hn, hv⟩) ?_
        exact not_or.mpr ⟨hd, hx⟩
  | lowest =>
    have hf : Finds d s ↔ d.size < 65536 ∧ ((∃ e ∈ d.list, s.Names e) →
        ∃ l₁ f l₂, d.list = l₁ ++ f :: l₂ ∧ s.Names f ∧ f.ver ≠ 0 ∧
          (∀ x ∈ l₁, s.Names x → x.ver = 0) ∧
          ∃ m₁ e m₂, f :: l₂ = m₁ ++ e :: m₂ ∧ s.Names e ∧
            (∀ x ∈ d.list, s.Names x → e.ver ≤ x.ver) ∧ ∀ x ∈ m₂, s.Names x → f.ver ≤ x.ver) := by
      simp only [Finds, hm]
    rw [hf]
    by_cases hd : d.size < 65536
    · rw [settled_iff hd, opens_lowest_iff hm, and_iff_right hd]
    · exact iff_of_false (never hd (by simp [hm])) fun h => hd h.1

omit [DecidableEq N] in
/-- In a well-formed directory, the highest version and a given one are found. -/
theorem Dir.Valid.finds (h : d.Valid) (hd : d.size < 65536) (hm : s.mode ≠ .lowest) :
    Finds d s := by
  rw [Finds]
  split
  · refine ⟨hd, ?_⟩
    rintro ⟨e, he, hn⟩
    refine ⟨e, he, hn, ?_⟩
    obtain ⟨i, hi, rfl⟩ := List.mem_map.mp he
    exact (h.range i ⟨List.mem_range.mp hi, hn.1⟩).1.ne'
  · exact .inl hd
  · next hl => exact absurd hl hm

/-- Versions 5, 2 and 3 of a file, in that order. -/
def versions : Dir Unit :=
  ⟨fun i => ⟨i + 1, (), if i = 0 then 5 else if i = 1 then 2 else 3⟩, 3⟩

/-- Of versions 5, 2 and 3, `FOPEN` opens 3 for the lowest one. -/
theorem opened_not_lowest :
    ∃ s : Spec Unit, s.mode = .lowest ∧
      ((fopen versions s (fun _ => none) ⟨0, (), 0⟩ 4).map fun r =>
        r.toOption.map fun e => e.1.ver) = some (some 3) ∧
      ¬∃ m, ∀ n ≥ m, ∃ r, fopen versions s (fun _ => none) ⟨0, (), 0⟩ n = some r ∧
        Opens versions s (fun _ => none) r := by
  refine ⟨⟨(), 65535, true⟩, by decide, by decide, fun h => ?_⟩
  rw [settled_iff (by decide), opens_iff, if_neg (by decide), wants_lowest (by decide)] at h
  have hx : (⟨2, (), 2⟩ : Entry Unit) ∈ versions.list := List.mem_map.mpr ⟨1, by decide, rfl⟩
  exact absurd (h.2.2 _ hx (by decide)) (by decide)

end RSX280.FileDirs
