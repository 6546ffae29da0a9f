import RSX280.SrchdrNames
import RSX280.SrchdrTable

/-!
# The calls of `SRCHDR`

Every entry that is used and matches gets a call (`loop_normal`); for the newest or the oldest version these are
the entries of the temporary file, which has the best one of each name (`loop_add`). The theorem is
`srchdr_calls`.
-/

namespace RSX280.Srchdr

open Match Pfn

/-! ### The entries that are read -/

/-- The entries `l` are still to be read. -/
structure Left (file : List Entry) (p : Place) (l : List Entry) : Prop where
  eq : p.buf ++ file.drop (32 * inc p.blkno) = l
  small : file.length ≤ 32 * 65535

variable {file l dir : List Entry} {p : Place} {e : Entry}

theorem left_rewind (h : file.length ≤ 32 * 65535) : Left file rewind file := ⟨rfl, h⟩

theorem RDDIR_nil (h : Left file p []) : RDDIR file p = none := by
  obtain ⟨buf, rest⟩ := List.append_eq_nil_iff.mp h.eq
  rw [RDDIR, buf]
  simp only [readBlock, rest, List.take_nil]

theorem RDDIR_cons (h : Left file p (e :: l)) : ∃ p', RDDIR file p = some (e, p') ∧ Left file p' l := by
  have small := h.small
  have eq := h.eq
  rw [RDDIR]
  cases hb : p.buf with
  | cons e' buf =>
    rw [hb] at eq
    obtain ⟨rfl, tail⟩ := List.cons.inj eq
    exact ⟨_, rfl, tail, small⟩
  | nil =>
    rw [hb, List.nil_append] at eq
    have begun : 32 * inc p.blkno < file.length := by
      have len := congrArg List.length eq
      rw [List.length_drop, List.length_cons] at len
      omega
    have next : inc (inc p.blkno) = inc p.blkno + 1 := Nat.mod_eq_of_lt (by omega)
    have read : readBlock file (inc p.blkno) = e :: l.take 31 := by
      rw [readBlock, eq]
      rfl
    dsimp only
    rw [read]
    refine ⟨_, rfl, ?_, small⟩
    have rest : file.drop (32 * (inc p.blkno + 1)) = l.drop 31 := by
      rw [Nat.mul_add, ← List.drop_drop, eq]
      rfl
    dsimp only
    rw [next, rest, List.take_append_drop]

/-! ### The loop -/

/-- A used entry. -/
def Entry.used (e : Entry) : Bool := e.indx ≠ 0

/-- The search comes to an end when there are enough rounds, in a state with `P`. -/
def Ends (dir : List Entry) (fnb : Fnb) (s : State) (P : State → Prop) : Prop :=
  ∃ s', P s' ∧ ∃ n, ∀ k, n ≤ k → loop dir fnb k s = some s'

variable {fnb : Fnb} {s : State} {P : State → Prop}

/-- The file that is read. -/
def State.source (s : State) (dir : List Entry) : List Entry := if s.temp then s.tmp.file else dir

attribute [local grind =] loop

theorem Ends.now (h : Left (s.source dir) s.place []) (hp : P s) : Ends dir fnb s P := by
  refine ⟨s, hp, 1, fun k hk => ?_⟩
  obtain ⟨k, rfl⟩ := Nat.exists_eq_succ_of_ne_zero (Nat.ne_zero_of_lt hk)
  have none := RDDIR_nil h
  rw [State.source] at none
  rw [loop, none]

/-- With enough rounds the search goes on from `s'`. -/
theorem Ends.step {s' : State} {n : ℕ} (hs : ∀ k, n ≤ k → loop dir fnb (k + 1) s = loop dir fnb k s')
    (h : Ends dir fnb s' P) : Ends dir fnb s P := by
  obtain ⟨t, hp, n', hn⟩ := h
  refine ⟨t, hp, max n n' + 1, fun k hk => ?_⟩
  obtain ⟨k, rfl⟩ := Nat.exists_eq_add_of_le' (Nat.le_of_add_left_le hk)
  rw [hs k (by omega)]
  exact hn k (by omega)

theorem Ends.mono {Q : State → Prop} (h : Ends dir fnb s P) (hpq : ∀ s, P s → Q s) : Ends dir fnb s Q := by
  obtain ⟨t, hp, hn⟩ := h
  exact ⟨t, hpq t hp, hn⟩

/-- An entry that is not used -/
theorem loop_unused {place : Place} (h : RDDIR (s.source dir) s.place = some (e, place)) (he : e.used = false)
    (k : ℕ) : loop dir fnb (k + 1) s = loop dir fnb k { s with place } := by
  have zero : e.indx = 0 := by simpa [Entry.used] using he
  rw [State.source] at h
  rw [loop, h]
  dsimp only
  rw [if_pos zero]

/-- The entries that there is a call for. -/
def hit (fnb : Fnb) (temp : Bool) (z : Entry → Bool) (e : Entry) : Bool := e.used && (z e && fm1 fnb temp e)

/-- The search of the directory or of the temporary file. -/
theorem loop_normal {z : Entry → Bool} (hz : ∀ e, z e = true ↔ fnb.Fits e) (hm : Ready s.m fnb)
    (hs : ¬[asterisk, asterisk] <:+ fnb.pattern) (hv : s.vmode = .normal)
    (hl : Left (s.source dir) s.place l) :
    Ends dir fnb s fun s' => s'.vmode = .normal ∧
      s'.calls = s.calls ++ (l.filter (hit fnb s.temp z)).map .file := by
  induction l generalizing s with
  | nil => exact .now hl ⟨hv, (List.append_nil _).symm⟩
  | cons e l ih =>
    obtain ⟨place, read, left⟩ := RDDIR_cons hl
    by_cases he : e.used = true
    · obtain ⟨z', hz', ready, n, hn⟩ := fmatch_spec hm hs s.temp e
      obtain rfl : z' = z e := by
        rw [Bool.eq_iff_iff, hz', hz]
      have used : e.indx ≠ 0 := by simpa [Entry.used] using he
      let s₁ : State := { s with
        place, m := entname s.m e
        calls := if z e && fm1 fnb s.temp e then s.calls ++ [.file e] else s.calls }
      have round : ∀ k, n ≤ k → loop dir fnb (k + 1) s = loop dir fnb k s₁ := by
        intro k hk
        rw [State.source] at read
        rw [loop, read]
        dsimp only
        rw [if_neg used, if_pos hv, hn k hk]
      have rest := ih (s := s₁) ready hv left
      refine .step round (rest.mono fun s' hs' => ⟨hs'.1, hs'.2.trans ?_⟩)
      rw [List.filter_cons, hit, he, Bool.true_and]
      dsimp only [s₁]
      split
      · rw [List.append_assoc]
        rfl
      · rfl
    · rw [Bool.not_eq_true] at he
      have rest := ih (s := { s with place }) hm hv left
      refine .step (n := 0) (fun k _ => loop_unused read he k) (rest.mono fun s' hs' => ⟨hs'.1, hs'.2.trans ?_⟩)
      rw [List.filter_cons_of_neg]
      rw [hit, he]
      exact Bool.false_ne_true

/-- The temporary file gets the best entries. -/
theorem loop_add {t : List Entry} (hv : s.vmode ≠ .normal) (hl : Left (s.source dir) s.place l)
    (ht : s.temp = false) (hh : Holds s.tmp t) (small : t.length + l.length < 32 * 65536) :
    Ends dir fnb s fun s' => s'.vmode = s.vmode ∧ s'.m = s.m ∧ s'.calls = s.calls ∧
      Holds s'.tmp ((l.filter Entry.used).foldl (fun t e => Best.add Entry.key (rank s.vmode) e t) t) := by
  induction l generalizing s t with
  | nil => exact .now hl ⟨rfl, rfl, rfl, hh⟩
  | cons e l ih =>
    rw [List.length_cons] at small
    obtain ⟨place, read, left⟩ := RDDIR_cons hl
    by_cases he : e.used = true
    · have used : e.indx ≠ 0 := by simpa [Entry.used] using he
      have fewer : t.length < 32 * 65536 := by omega
      obtain ⟨tmp, added, holds⟩ := TADD_spec s.vmode e hh fewer
      have round : ∀ k, t.length + 1 ≤ k → loop dir fnb (k + 1) s = loop dir fnb k { s with place, tmp } := by
        intro k hk
        rw [State.source] at read
        rw [loop, read]
        dsimp only
        rw [if_neg used, if_neg hv, added k hk]
      have len := Best.length_add Entry.key (rank s.vmode) e t
      have dir_left : Left (({ s with place, tmp } : State).source dir) place l := by
        rw [State.source, if_neg (ht ▸ Bool.false_ne_true)] at left ⊢
        exact left
      have rest := ih (s := { s with place, tmp }) hv dir_left ht holds (by omega)
      rw [List.filter_cons_of_pos he]
      exact .step round rest
    · rw [Bool.not_eq_true] at he
      have unused : ¬e.used = true := by
        rw [he]
        exact Bool.false_ne_true
      rw [List.filter_cons_of_neg unused]
      have rest := ih (s := { s with place }) hv left ht hh (by omega)
      exact .step (n := 0) (fun k _ => loop_unused read he k) rest

/-! ### The calls -/

/-- The version that is asked for: none and 0 are the newest, and -1 is the oldest. -/
inductive Version where
  | all
  | newest
  | oldest
  | only (ver : UInt16)

def Fnb.asked (fnb : Fnb) : Version :=
  if fnb.Wild FN.VER then .all
  else if ¬fnb.Has FN.VER ∨ fnb.ver = 0 then .newest
  else if fnb.ver = 0xFFFF then .oldest
  else .only fnb.ver

/-- A null pattern asks for all versions. -/
def Fnb.wanted (fnb : Fnb) : Version :=
  if fnb.Has (FN.NAME ||| FN.EXT ||| FN.VER) then fnb.asked else .all

open Classical in
/-- The used entries whose name matches. -/
noncomputable def matching (dir : List Entry) (fnb : Fnb) : List Entry :=
  dir.filter fun e => e.indx ≠ 0 ∧ fnb.Fits e

/-- The entries `l` are those to call for: each that matches, or for each name the one with the highest or the
lowest version. -/
def Right (dir : List Entry) (fnb : Fnb) (l : List Entry) : Version → Prop
  | .all => l = matching dir fnb
  | .newest => Best.IsBest Entry.key (fun e => (e.ver.toNat : ℤ)) (matching dir fnb) l
  | .oldest => Best.IsBest Entry.key (fun e => -(e.ver.toNat : ℤ)) (matching dir fnb) l
  | .only ver => l = (matching dir fnb).filter fun e => e.ver = ver

/-- `SRCHDR` returns after these calls. -/
def Calls (dir : List Entry) (fnb : Fnb) (m : Mem) (tmp : Tmp) (c : List Call) : Prop :=
  ∃ n, ∀ k, n ≤ k → SRCHDR k dir fnb m tmp = some c

/-- The calls for the entries `l`. -/
def calls (l : List Entry) : List Call := .opened :: (l.map .file ++ [.closed])

theorem nullpat_has (fnb : Fnb) {c : UInt8} (hc : FN.VER &&& c = 0) : (nullpat fnb).Has c ↔ fnb.Has c := by
  rw [nullpat]
  split
  · exact Iff.rfl
  · have split : (fnb.attr ||| FN.VER) &&& c = fnb.attr &&& c ||| FN.VER &&& c :=
      UInt8.toBitVec_inj.mp BitVec.and_or_distrib_right
    rw [Fnb.Has, Fnb.Has, split, hc, UInt8.or_zero]

theorem nullpat_name (fnb : Fnb) : (nullpat fnb).Has FN.NAME ↔ fnb.Has FN.NAME := nullpat_has fnb (by decide)

theorem nullpat_ext (fnb : Fnb) : (nullpat fnb).Has FN.EXT ↔ fnb.Has FN.EXT := nullpat_has fnb (by decide)

theorem nullpat_pattern (fnb : Fnb) : (nullpat fnb).pattern = fnb.pattern := by
  have name : (nullpat fnb).name = fnb.name := by
    unfold nullpat
    split <;> rfl
  have ext : (nullpat fnb).ext = fnb.ext := by
    unfold nullpat
    split <;> rfl
  simp only [Fnb.pattern, nullpat_name, nullpat_ext, name, ext]

/-- The search mode is that of the version. -/
inductive Mode (fnb : Fnb) : Vmode → Version → Prop
  | all : fnb.Wild FN.VER → Mode fnb .normal .all
  | only : ¬fnb.Wild FN.VER → Mode fnb .normal (.only fnb.ver)
  | newest : Mode fnb .newest .newest
  | oldest : Mode fnb .oldest .oldest

theorem chksv_mode (fnb : Fnb) : Mode (nullpat fnb) (chksv (nullpat fnb)) fnb.wanted := by
  rw [Fnb.wanted, nullpat]
  split
  · rw [Fnb.asked, chksv]
    by_cases wild : fnb.Wild FN.VER
    · rw [if_pos wild, if_pos wild]
      exact .all wild
    rw [if_neg wild, if_neg wild]
    by_cases given : fnb.Has FN.VER
    · rw [if_pos given]
      by_cases zero : fnb.ver = 0
      · rw [if_pos zero, if_pos (Or.inr zero)]
        exact .newest
      · have other : ¬(¬fnb.Has FN.VER ∨ fnb.ver = 0) := not_or.mpr ⟨not_not.mpr given, zero⟩
        rw [if_neg zero, if_neg other]
        by_cases last : fnb.ver = 0xFFFF
        · rw [if_pos last, if_pos last]
          exact .oldest
        · rw [if_neg last, if_neg last]
          exact .only wild
    · rw [if_neg given, if_pos (Or.inl given)]
      exact .newest
  · have wild : ({ fnb with attr := fnb.attr ||| FN.VER, wldc := fnb.wldc ||| FN.VER } : Fnb).Wild FN.VER := by
      have split : (fnb.wldc ||| FN.VER) &&& FN.VER = fnb.wldc &&& FN.VER ||| FN.VER &&& FN.VER :=
        UInt8.toBitVec_inj.mp BitVec.and_or_distrib_right
      rw [Fnb.Wild, split, Ne, UInt8.or_eq_zero_iff]
      exact fun h => absurd h.2 (by decide)
    rw [chksv, if_pos wild]
    exact .all wild

/-- One search is made for all versions, or for one that is given. -/
theorem calls_normal {z : Entry → Bool} (hz : ∀ e, z e = true ↔ (nullpat fnb).Fits e) {m : Mem} (tmp : Tmp)
    (hm : Ready (bp0 (nullpat fnb) m) (nullpat fnb)) (hs : ¬[asterisk, asterisk] <:+ (nullpat fnb).pattern)
    (hv : chksv (nullpat fnb) = .normal) (small : dir.length ≤ 32 * 65535) :
    Calls dir fnb m tmp (calls (dir.filter (hit (nullpat fnb) false z))) := by
  let s : State :=
    { m := bp0 (nullpat fnb) m, vmode := .normal, temp := false, place := rewind, tmp, calls := [.opened] }
  have left : Left (s.source dir) s.place dir := left_rewind small
  obtain ⟨s', ⟨normal, made⟩, n, hn⟩ := loop_normal (s := s) hz hm hs rfl left
  refine ⟨n, fun k hk => ?_⟩
  have run := hn k hk
  rw [SRCHDR, bldpat]
  dsimp only
  rw [hv, if_pos rfl, run]
  dsimp only
  rw [if_pos normal, made]
  rfl

/-- For the newest or the oldest versions the temporary file is searched. -/
theorem calls_best {z : Entry → Bool} (hz : ∀ e, z e = true ↔ (nullpat fnb).Fits e) {m : Mem} (tmp : Tmp)
    (hm : Ready (bp0 (nullpat fnb) m) (nullpat fnb)) (hs : ¬[asterisk, asterisk] <:+ (nullpat fnb).pattern)
    (hv : chksv (nullpat fnb) ≠ .normal) (small : dir.length ≤ 32 * 65535) :
    Calls dir fnb m tmp (calls
      ((Best.table Entry.key (rank (chksv (nullpat fnb))) (dir.filter Entry.used)).filter
        (hit (nullpat fnb) true z))) := by
  let s : State :=
    { m := bp0 (nullpat fnb) m, vmode := chksv (nullpat fnb), temp := false, place := rewind, tmp := TCREAT tmp
      calls := [.opened] }
  have left : Left (s.source dir) s.place dir := left_rewind small
  have begun : Holds s.tmp [] := rfl
  have room : ([] : List Entry).length + dir.length < 32 * 65536 := by
    rw [List.length_nil]
    omega
  have added : Ends dir (nullpat fnb) s _ := loop_add hv left rfl begun room
  obtain ⟨s', ⟨mode, frame, made, holds⟩, n, hn⟩ := added
  let s₁ : State := { s' with tmp := TFLUSH s'.tmp, vmode := .normal, temp := true, place := rewind }
  have few : s₁.tmp.file.length ≤ 32 * 65535 := by
    have table := Best.length_table Entry.key (rank s.vmode) (dir.filter Entry.used)
    have filter := List.length_filter_le Entry.used dir
    have len := congrArg List.length holds
    exact len.trans_le (table.trans (filter.trans small))
  have ready : Ready s₁.m (nullpat fnb) := frame ▸ hm
  have searched : Ends dir (nullpat fnb) s₁ _ := loop_normal hz ready hs rfl (left_rewind few)
  obtain ⟨s₂, ⟨-, made₂⟩, n₂, hn₂⟩ := searched
  refine ⟨max n n₂, fun k hk => ?_⟩
  have run := hn k (by omega)
  have run₂ := hn₂ k (by omega)
  rw [SRCHDR, bldpat]
  dsimp only
  rw [if_neg hv, run]
  dsimp only
  rw [if_neg (mode ▸ hv), run₂, Option.map_some, made₂]
  have source : s₁.source dir = Best.table Entry.key (rank s.vmode) (dir.filter Entry.used) := holds
  have opened : s₁.calls = [.opened] := made
  rw [source, opened]
  rfl

theorem used_iff : e.used = true ↔ e.indx ≠ 0 := decide_eq_true_iff

theorem fm1_iff {temp : Bool} :
    fm1 fnb temp e = true ↔ temp = true ∨ fnb.Wild FN.VER ∨ fnb.ver = e.ver := decide_eq_true_iff

theorem nullpat_fits (fnb : Fnb) (e : Entry) : (nullpat fnb).Fits e ↔ fnb.Fits e := by
  rw [Fnb.Fits, Fnb.Fits, nullpat_pattern]

/-- All entries that match, when the version does not matter. -/
theorem hit_all {z : Entry → Bool} (hz : ∀ e, z e = true ↔ (nullpat fnb).Fits e) {temp : Bool}
    (h : temp = true ∨ (nullpat fnb).Wild FN.VER) (l : List Entry) :
    l.filter (hit (nullpat fnb) temp z) = matching l fnb := by
  refine List.filter_congr fun e _ => Bool.eq_iff_iff.mpr ?_
  have any : fm1 (nullpat fnb) temp e = true := fm1_iff.mpr (h.imp_right Or.inl)
  rw [hit, any, Bool.and_true, Bool.and_eq_true, hz, used_iff, nullpat_fits]
  simp only [decide_eq_true_eq]

/-- The entries with the version that is given. -/
theorem hit_only {z : Entry → Bool} (hz : ∀ e, z e = true ↔ (nullpat fnb).Fits e)
    (h : ¬(nullpat fnb).Wild FN.VER) (l : List Entry) :
    l.filter (hit (nullpat fnb) false z) = (matching l fnb).filter fun e => e.ver = (nullpat fnb).ver := by
  rw [matching, List.filter_filter]
  refine List.filter_congr fun e _ => Bool.eq_iff_iff.mpr ?_
  have version : fm1 (nullpat fnb) false e = true ↔ e.ver = (nullpat fnb).ver := by
    rw [fm1_iff, or_iff_right Bool.false_ne_true, or_iff_right h, eq_comm]
  rw [hit, Bool.and_eq_true, Bool.and_eq_true, hz, version, used_iff, nullpat_fits]
  simp only [Bool.and_eq_true, decide_eq_true_eq]
  tauto

theorem fits_of_key {x y : Entry} (h : x.key = y.key) : fnb.Fits x ↔ fnb.Fits y := by
  obtain ⟨name, ext⟩ := Prod.mk.inj h
  rw [Fnb.Fits, Fnb.Fits, Entry.text, Entry.text, name, ext]

/-- The entries of the temporary file that match are the best of those that match. -/
theorem best_matching {z : Entry → Bool} (hz : ∀ e, z e = true ↔ (nullpat fnb).Fits e) (dir : List Entry)
    (vmode : Vmode) :
    Best.IsBest Entry.key (rank vmode) (matching dir fnb)
      ((Best.table Entry.key (rank vmode) (dir.filter Entry.used)).filter (hit (nullpat fnb) true z)) := by
  have best := Best.table_best Entry.key (rank vmode) (dir.filter Entry.used)
  have same : ∀ x y : Entry, x.key = y.key → z x = z y := fun x y e =>
    Bool.eq_iff_iff.mpr (((hz x).trans (fits_of_key e)).trans (hz y).symm)
  have used : ∀ e : Entry, e.used = true → hit (nullpat fnb) true z e = z e := by
    intro e he
    have any : fm1 (nullpat fnb) true e = true := fm1_iff.mpr (Or.inl rfl)
    rw [hit, he, any, Bool.true_and, Bool.and_true]
  have table := List.filter_congr fun e he => used e (List.mem_filter.mp (best.mem e he)).2
  have all : (dir.filter Entry.used).filter z = matching dir fnb := by
    rw [List.filter_congr fun e he => (used e (List.mem_filter.mp he).2).symm, hit_all hz (Or.inl rfl)]
    rw [matching, List.filter_filter]
    refine List.filter_congr fun e _ => Bool.eq_iff_iff.mpr ?_
    rw [Bool.and_eq_true, used_iff]
    simp only [decide_eq_true_eq]
    tauto
  rw [table, ← all]
  exact best.filter same

/-- **Directory search**: `SRCHDR` calls once for each entry that matches, or once for each name that matches,
with the entry of the version that is wanted. -/
theorem srchdr_calls (m : Mem) (tmp : Tmp) (small : dir.length ≤ 32 * 65535)
    (given : fnb.Has FN.NAME → fnb.Has FN.EXT) (hs : ¬[asterisk, asterisk] <:+ fnb.pattern) :
    ∃ l, Calls dir fnb m tmp (calls l) ∧ Right dir fnb l fnb.wanted := by
  classical
  let z : Entry → Bool := fun e => (nullpat fnb).Fits e
  have hz : ∀ e, z e = true ↔ (nullpat fnb).Fits e := fun e => decide_eq_true_iff
  have given' : (nullpat fnb).Has FN.NAME → (nullpat fnb).Has FN.EXT := by
    rwa [nullpat_name, nullpat_ext]
  have ready : Ready (bp0 (nullpat fnb) m) (nullpat fnb) := bp0_spec m given'
  rw [← nullpat_pattern] at hs
  have mode := chksv_mode fnb
  by_cases hv : chksv (nullpat fnb) = .normal
  · refine ⟨_, calls_normal hz tmp ready hs hv small, ?_⟩
    rw [hv] at mode
    generalize fnb.wanted = version at mode
    cases mode with
    | all wild => exact hit_all hz (Or.inr wild) dir
    | only exact' => exact hit_only hz exact' dir
  · refine ⟨_, calls_best hz tmp ready hs hv small, ?_⟩
    have best := best_matching hz dir (chksv (nullpat fnb))
    generalize chksv (nullpat fnb) = vmode at mode hv best
    generalize fnb.wanted = version at mode
    cases mode with
    | all => exact absurd rfl hv
    | only => exact absurd rfl hv
    | newest => exact best
    | oldest => exact best

/-- `A.B;ver` -/
def ab (ver : UInt16) : Entry where
  indx := 9
  name := #v[65, 32, 32, 32, 32, 32, 32, 32, 32]
  ext := #v[66, 32, 32]
  ver := ver

/-- `A*.B` -/
def astar : Fnb where
  attr := FN.NAME ||| FN.EXT
  name := #v[65, 42, 32, 32, 32, 32, 32, 32, 32]
  ext := #v[66, 32, 32]
  ver := 0
  wldc := FN.NAME

def fresh : Tmp := ⟨[], fun _ => ab 0, 0, 0, 0, false⟩

theorem srchdr_calls_astar :
    ∃ l, Calls [ab 1, ab 3, ab 2] astar (fun _ => 0) fresh (calls l) ∧
      Right [ab 1, ab 3, ab 2] astar l astar.wanted :=
  srchdr_calls (fun _ => 0) fresh (by decide) (by decide) (by decide)

/-- No part is given. -/
def nothing : Fnb := { astar with attr := 0, wldc := 0 }

theorem Calls.unique {m : Mem} {tmp : Tmp} {c c' : List Call} (h : Calls dir fnb m tmp c)
    (h' : Calls dir fnb m tmp c') : c = c' := by
  obtain ⟨n, hn⟩ := h
  obtain ⟨n', hn'⟩ := h'
  have same := (hn (max n n') (le_max_left n n')).symm.trans (hn' (max n n') (le_max_right n n'))
  exact Option.some.inj same

theorem calls_inj {l l' : List Entry} (h : calls l = calls l') : l = l' := by
  have tails := List.append_cancel_right (List.cons.inj h).2
  exact List.map_injective_iff.mpr (fun _ _ => Call.file.inj) tails

example : SRCHDR 30 [ab 1, ab 3, ab 2] astar (fun _ => 0) fresh = some [.opened, .file (ab 3), .closed] := rfl

theorem nothing_fits (ver : UInt16) : (nullpat nothing).Fits (ab ver) :=
  .many [65] (.char (by decide) (by decide) (.many [66] .nil))

/-- Nothing is given, so the newest version was asked for, but there is a call for each version. -/
theorem null_pattern_calls : ¬∃ l, Calls [ab 1, ab 2] nothing (fun _ => 0) fresh (calls l) ∧
    Right [ab 1, ab 2] nothing l nothing.asked := by
  classical
  rintro ⟨l, hc, right⟩
  let z : Entry → Bool := fun e => (nullpat nothing).Fits e
  have hz : ∀ e, z e = true ↔ (nullpat nothing).Fits e := fun e => decide_eq_true_iff
  have ready : Ready (bp0 (nullpat nothing) fun _ => 0) (nullpat nothing) := bp0_spec _ (by decide)
  have made : Calls [ab 1, ab 2] nothing (fun _ => 0) fresh _ :=
    calls_normal hz fresh ready (by decide) (by decide) (by decide)
  obtain rfl := calls_inj (hc.unique made)
  have found : ∀ ver : UInt16, ab ver ∈ [ab 1, ab 2] →
      ab ver ∈ [ab 1, ab 2].filter (hit (nullpat nothing) false z) := by
    intro ver hm
    have fits : z (ab ver) = true := (hz _).mpr (nothing_fits ver)
    refine List.mem_filter.mpr ⟨hm, ?_⟩
    rw [hit, fits]
    rfl
  have best : Best.IsBest Entry.key _ _ _ := right
  have same := Best.eq_of_key best.nodup (found 1 (by decide)) (found 2 (by decide)) rfl
  exact absurd same (by decide)

end RSX280.Srchdr
