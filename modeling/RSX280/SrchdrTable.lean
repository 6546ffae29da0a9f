import Mathlib.Data.Int.Order.Basic
import Mathlib.Data.List.GetD
import RSX280.Best
import RSX280.Srchdr

/-!
# The temporary file

With the buffer flushed the file has the best entry of each name, in the order in which the names came: `TADD`
keeps that, in whatever block the name is (`TADD_spec`).
-/

namespace RSX280.Srchdr

open Match

/-- The file has these entries, when the buffer is flushed. -/
def Holds (t : Tmp) (l : List Entry) : Prop := (TFLUSH t).file = l

/-- The name and the extension -/
def Entry.key (e : Entry) : Vector UInt8 9 × Vector UInt8 3 := (e.name, e.ext)

/-- The version that is wanted has the highest rank. -/
def rank (vmode : Vmode) (e : Entry) : ℤ := if vmode = .oldest then -e.ver.toNat else e.ver.toNat

variable {vmode : Vmode} {e dirent : Entry} {t : Tmp} {l file pre rest : List Entry} {n : ℕ}

theorem cmpent_iff {e e' : Entry} : cmpent e e' = true ↔ e.key = e'.key := by
  rw [cmpent, decide_eq_true_iff, Entry.key, Entry.key, Prod.mk.injEq]

theorem tcmp_iff {old dirent : Entry} :
    tcmp vmode old dirent = true ↔ rank vmode dirent < rank vmode old := by
  rw [tcmp, rank, rank]
  split
  · rw [decide_eq_true_iff, UInt16.lt_iff_toNat_lt]
    omega
  · rw [decide_eq_true_iff, UInt16.lt_iff_toNat_lt]
    omega

/-! ### The search in the buffer -/

theorem t2_next (h : (t.tbuf t.tptr).key ≠ dirent.key) (n : ℕ) :
    t2 dirent t (n + 1) = t2 dirent { t with tptr := t.tptr + 1 } n :=
  if_neg fun e => h (cmpent_iff.mp e)

/-- The name is not in the next `n` entries. -/
theorem t2_skip {k : ℕ} (h : ∀ i < k, (t.tbuf (t.tptr + i)).key ≠ dirent.key) (n : ℕ) :
    t2 dirent t (k + n) = t2 dirent { t with tptr := t.tptr + k } n := by
  induction k generalizing t with
  | zero => rw [Nat.zero_add, Nat.add_zero]
  | succ k ih =>
    rw [Nat.add_right_comm, t2_next (h 0 (Nat.succ_pos k)), ih]
    · rw [Nat.add_assoc, Nat.add_comm 1]
    · intro i hi
      have next := h (i + 1) (Nat.succ_lt_succ hi)
      rwa [Nat.add_comm i, ← Nat.add_assoc] at next

theorem t2_found (h : (t.tbuf t.tptr).key = dirent.key) (n : ℕ) : t2 dirent t (n + 1) = (t, true) :=
  if_pos (cmpent_iff.mpr h)

/-! ### Blocks -/

theorem readBlock_append (h : pre.length = 32 * n) (rest : List Entry) :
    readBlock (pre ++ rest) n = rest.take 32 := by
  rw [readBlock, ← h, List.drop_left]

theorem writeBlock_append (h : pre.length = 32 * n) (rest l : List Entry) :
    writeBlock (pre ++ rest) n l = pre ++ (l ++ rest.drop l.length) := by
  rw [writeBlock, ← h, List.take_left, List.drop_length_add_append]

/-- The buffer holds the entries `l` of a block. -/
def Loaded (t : Tmp) (l : List Entry) : Prop := ∀ i (h : i < l.length), t.tbuf i = l[i]

theorem Loaded.range (h : Loaded t l) : (List.range l.length).map t.tbuf = l := by
  refine List.ext_getElem (by simp) fun i h₁ h₂ => ?_
  rw [List.getElem_map, List.getElem_range]
  exact h i h₂

theorem Loaded.key_ne (h : Loaded t l) (hl : ∀ y ∈ l, y.key ≠ dirent.key) :
    ∀ i < l.length, (t.tbuf i).key ≠ dirent.key := by
  intro i hi
  rw [h i hi]
  exact hl _ (List.getElem_mem hi)

/-- The buffer with its block in the file. -/
structure At (t : Tmp) (pre l rest : List Entry) : Prop where
  file : t.file = pre ++ (l ++ rest)
  blk : pre.length = 32 * t.tblk
  clean : t.tmodf = false
  loaded : Loaded t l
  tlen : t.tlen = l.length

/-- The buffer has been changed, and now holds `l`. -/
theorem Loaded.holds {old : List Entry} (h : Loaded t l) (modified : t.tmodf = true) (len : t.tlen = l.length)
    (file : t.file = pre ++ old) (blk : pre.length = 32 * t.tblk) :
    Holds t (pre ++ (l ++ old.drop l.length)) := by
  rw [Holds, TFLUSH, if_pos modified]
  dsimp only
  rw [len, h.range, file, writeBlock_append blk]

/-- An entry is replaced. -/
theorem At.replace {s s' : List Entry} {y : Entry} (h : At t pre (s ++ y :: s') rest) (e : Entry) :
    Holds (tsave e { t with tptr := s.length }) (pre ++ (s ++ e :: s' ++ rest)) := by
  have loaded : Loaded (tsave e { t with tptr := s.length }) (s ++ e :: s') := by
    intro i hi
    rcases eq_or_ne i s.length with rfl | hne
    · simp [tsave]
    · have hi' : i < (s ++ y :: s').length := by simpa using hi
      have old := h.loaded i hi'
      simp only [tsave, Function.update_of_ne hne, old]
      rw [List.getElem_append, List.getElem_append]
      split
      · rfl
      · rw [List.getElem_cons, List.getElem_cons, dif_neg (by omega), dif_neg (by omega)]
  have len : (s ++ e :: s').length = (s ++ y :: s').length := by
    rw [List.length_append, List.length_append, List.length_cons, List.length_cons]
  have flushed := loaded.holds rfl (h.tlen.trans len.symm) h.file h.blk
  rwa [len, List.drop_left] at flushed

/-- An entry is appended to the last block. -/
theorem At.append (h : At t pre l []) (e : Entry) :
    Holds (t3 e { t with tptr := l.length }) (pre ++ (l ++ [e])) := by
  have loaded : Loaded (t3 e { t with tptr := l.length }) (l ++ [e]) := by
    intro i hi
    rw [List.length_append, List.length_singleton] at hi
    rcases eq_or_ne i l.length with rfl | hne
    · simp [t3, tsave]
    · have old := h.loaded i (by omega)
      simp only [t3, tsave, Function.update_of_ne hne, old]
      rw [List.getElem_append_left]
  have len : t.tlen + 1 = (l ++ [e]).length := by rw [h.tlen, List.length_append, List.length_singleton]
  have flushed := loaded.holds rfl len h.file h.blk
  rwa [List.drop_eq_nil_of_le (by simp), List.append_nil] at flushed

/-! ### `TADD` -/

/-- The search goes on from a block on; the name is not in the blocks before it. -/
structure Behind (t : Tmp) (dirent : Entry) (pre rest : List Entry) : Prop where
  file : t.file = pre ++ rest
  blk : pre.length = 32 * t.tblk
  clean : t.tmodf = false
  new : ∀ y ∈ pre, y.key ≠ dirent.key
  small : (pre ++ rest).length < 32 * 65536

/-- The block is read. -/
def load (t : Tmp) (l : List Entry) : Tmp :=
  { t with tbuf := fun i => l.getD i (t.tbuf i), tptr := 0, tlen := l.length }

theorem load_tbuf (t : Tmp) {i : ℕ} (h : i < l.length) : (load t l).tbuf i = l[i] :=
  List.getD_eq_getElem _ _ h

theorem Behind.at (h : Behind t dirent pre rest) : At (load t (rest.take 32)) pre (rest.take 32) (rest.drop 32) where
  file := h.file.trans (by rw [List.take_append_drop])
  blk := h.blk
  clean := h.clean
  loaded _ hi := load_tbuf t hi
  tlen := rfl

theorem TFLUSH_clean (h : t.tmodf = false) : TFLUSH t = t := by
  rw [TFLUSH, if_neg]
  rw [h]
  exact Bool.false_ne_true

theorem Behind.holds (h : Behind t dirent pre rest) (l : List Entry) (i : ℕ) :
    Holds { load t l with tptr := i } (pre ++ rest) := by
  have clean : ({ load t l with tptr := i } : Tmp).tmodf = false := h.clean
  rw [Holds, TFLUSH_clean clean]
  exact h.file

/-- The name is not in the block, and the next block is looked at. -/
theorem Behind.next (h : Behind t dirent pre rest) (full : (rest.take 32).length = 32)
    (hl : ∀ y ∈ rest.take 32, y.key ≠ dirent.key) :
    Behind { load t (rest.take 32) with tptr := (rest.take 32).length, tblk := inc t.tblk } dirent
      (pre ++ rest.take 32) (rest.drop 32) where
  file := h.at.file.trans (List.append_assoc ..).symm
  blk := by
    have small := h.small
    have blk := h.blk
    have len := List.length_take_le' 32 rest
    rw [List.length_append] at small ⊢
    rw [full] at len ⊢
    have : inc t.tblk = t.tblk + 1 := Nat.mod_eq_of_lt (by omega)
    simp only [this]
    omega
  clean := h.clean
  new y hy := (List.mem_append.mp hy).elim (h.new y) (hl y)
  small := by
    rw [List.append_assoc, List.take_append_drop]
    exact h.small

theorem load_found {s s' : List Entry} {y : Entry} (e : y.key = dirent.key)
    (hs : ∀ z ∈ s, z.key ≠ dirent.key) (t : Tmp) :
    t2 dirent (load t (s ++ y :: s')) (s ++ y :: s').length =
      ({ load t (s ++ y :: s') with tptr := s.length }, true) := by
  have loaded : ∀ i < s.length, ((load t (s ++ y :: s')).tbuf i).key ≠ dirent.key := by
    intro i hi
    rw [load_tbuf t (by rw [List.length_append]; omega), List.getElem_append_left hi]
    exact hs _ (List.getElem_mem hi)
  have here : (load t (s ++ y :: s')).tbuf s.length = y := by
    rw [load_tbuf t (by simp), List.getElem_append_right le_rfl]
    simp
  rw [List.length_append, t2_skip, List.length_cons, t2_found]
  · simp only [load, Nat.zero_add]
  · simp only [load, Nat.zero_add] at here ⊢
    rw [here, e]
  · intro i hi
    simpa only [load, Nat.zero_add] using loaded i hi

theorem load_none (h : ∀ y ∈ l, y.key ≠ dirent.key) (t : Tmp) :
    t2 dirent (load t l) l.length = ({ load t l with tptr := l.length }, false) := by
  have other : ∀ i < l.length, ((load t l).tbuf ((load t l).tptr + i)).key ≠ dirent.key := by
    intro i hi
    have ne := h _ (List.getElem_mem hi)
    rw [← load_tbuf t hi] at ne
    simpa only [load, Nat.zero_add] using ne
  have skip := t2_skip other 0
  rw [Nat.add_zero] at skip
  rw [skip, t2]
  simp only [load, Nat.zero_add]

/-- What is done with a block. -/
theorem tloop_succ (hl : readBlock t.file t.tblk = l) :
    tloop vmode dirent (n + 1) t =
      if l = [] then some (tdone dirent (load t l))
      else
        let r := t2 dirent (load t l) l.length
        if r.2 then some (if tcmp vmode (r.1.tbuf r.1.tptr) dirent then r.1 else tsave dirent r.1)
        else if r.1.tlen = 32 then tloop vmode dirent n { TFLUSH r.1 with tblk := inc (TFLUSH r.1).tblk }
        else some (t3 dirent r.1) := by
  subst hl
  rfl

/-- With enough blocks the loop ends with `t'`. -/
def Stops (vmode : Vmode) (dirent : Entry) (n : ℕ) (t t' : Tmp) : Prop :=
  ∀ k, n ≤ k → tloop vmode dirent k t = some t'

theorem Stops.succ {t' : Tmp} (h : ∀ k, n ≤ k → tloop vmode dirent (k + 1) t = some t') :
    Stops vmode dirent (n + 1) t t' := by
  intro k hk
  obtain ⟨k, rfl⟩ := Nat.exists_eq_add_of_le' (Nat.le_of_add_left_le hk)
  exact h k (Nat.le_of_succ_le_succ hk)

/-- The name is in the block. -/
theorem tloop_found (h : Behind t dirent pre rest) (found : ∃ y ∈ rest.take 32, y.key = dirent.key) (n : ℕ) :
    ∃ t', Stops vmode dirent (n + 1) t t' ∧
      Holds t' (pre ++ Best.add Entry.key (rank vmode) dirent rest) := by
  have read : readBlock t.file t.tblk = rest.take 32 := h.file ▸ readBlock_append h.blk rest
  have place := h.at
  have whole := List.take_append_drop 32 rest
  obtain ⟨s, y, s', e, hk, hs⟩ := Best.exists_first found
  have here : (load t (s ++ y :: s')).tbuf s.length = y := by
    rw [load_tbuf t (by simp), List.getElem_append_right le_rfl]
    simp
  rw [e] at place whole read
  let t₁ : Tmp := { load t (s ++ y :: s') with tptr := s.length }
  refine ⟨if tcmp vmode y dirent then t₁ else tsave dirent t₁, Stops.succ fun k _ => ?_, ?_⟩
  · rw [tloop_succ read, if_neg (by simp), load_found hk hs]
    dsimp only
    rw [if_pos rfl, here]
  · rw [← whole, List.append_assoc, List.cons_append, Best.add_first hk hs, Best.better]
    split
    · next older =>
      rw [if_pos (tcmp_iff.mp older)]
      have same := h.holds (s ++ y :: s') s.length
      rwa [← whole, List.append_assoc, List.cons_append] at same
    · next newer =>
      rw [if_neg (mt tcmp_iff.mpr newer)]
      have replaced := place.replace dirent
      rwa [List.append_assoc, List.cons_append] at replaced

theorem tloop_spec (h : Behind t dirent pre rest) (hn : rest.length < n) :
    ∃ t', Stops vmode dirent n t t' ∧
      Holds t' (pre ++ Best.add Entry.key (rank vmode) dirent rest) := by
  induction n generalizing t pre rest with
  | zero => exact absurd hn (Nat.not_lt_zero _)
  | succ n ih =>
    by_cases found : ∃ y ∈ rest.take 32, y.key = dirent.key
    · exact tloop_found h found n
    have read : readBlock t.file t.tblk = rest.take 32 := h.file ▸ readBlock_append h.blk rest
    have place := h.at
    have whole := List.take_append_drop 32 rest
    have other : ∀ y ∈ rest.take 32, y.key ≠ dirent.key := fun y hy e => found ⟨y, hy, e⟩
    by_cases ended : rest.take 32 = []
    · -- the end of the file
      obtain rfl : rest = [] := by simpa using ended
      refine ⟨_, Stops.succ fun k _ => ?_, place.append dirent⟩
      rw [tloop_succ read]
      rfl
    by_cases full : (rest.take 32).length = 32
    · have clean : ({ load t (rest.take 32) with tptr := (rest.take 32).length } : Tmp).tmodf = false := h.clean
      have fewer : (rest.drop 32).length < n := by
        rw [List.length_take] at full
        rw [List.length_drop]
        omega
      obtain ⟨t', ht, hh⟩ := ih (h.next full other) fewer
      refine ⟨t', Stops.succ fun k hk => ?_, ?_⟩
      · rw [tloop_succ read, if_neg ended, load_none other]
        dsimp only
        have whole : (load t (rest.take 32)).tlen = 32 := full
        rw [if_neg Bool.false_ne_true, if_pos whole, TFLUSH_clean clean]
        exact ht k hk
      · rwa [List.append_assoc, ← Best.add_append other, whole] at hh
    · have last : rest.drop 32 = [] := by
        rw [List.length_take] at full
        exact List.drop_eq_nil_of_le (by omega)
      rw [last] at place
      rw [last, List.append_nil] at whole
      have new : Best.add Entry.key (rank vmode) dirent rest = rest.take 32 ++ [dirent] := by
        rw [whole] at other
        rw [Best.add_new other, whole]
      rw [new]
      refine ⟨_, Stops.succ fun k _ => ?_, place.append dirent⟩
      rw [tloop_succ read, if_neg ended, load_none other]
      dsimp only
      rw [if_neg Bool.false_ne_true]
      exact if_neg full

/-- The best entries are in the file, and the entry is added. -/
theorem TADD_spec (vmode : Vmode) (dirent : Entry) (h : Holds t l) (small : l.length < 32 * 65536) :
    ∃ t', (∀ k, l.length + 1 ≤ k → TADD k vmode dirent t = some t') ∧
      Holds t' (Best.add Entry.key (rank vmode) dirent l) := by
  have clean : (TFLUSH t).tmodf = false := by
    unfold TFLUSH
    split
    · rfl
    · next clean => exact Bool.eq_false_iff.mpr clean
  have begins : Behind { TFLUSH t with tblk := 0 } dirent [] l :=
    ⟨h, rfl, clean, fun y hy => absurd hy List.not_mem_nil, small⟩
  exact tloop_spec begins (Nat.lt_succ_self _)

end RSX280.Srchdr
