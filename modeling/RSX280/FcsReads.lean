import RSX280.Fcs

/-!
# Reading through the buffer

An open file stands for the bytes it would have when it was closed, and a position. The bytes in the
buffer are those of the block, though not always all of them. A call that reads within the buffer,
or up to its end when the whole block is there, reads the bytes at the position.
-/

namespace RSX280.Fcs

open Overlay

/-- The file on the device with the modified bytes is `A`, and the position is `p`. -/
structure Inv (s : Io) (A : List ℕ) (p : ℕ) : Prop where
  rd : s.RD = true
  wr : s.WR = true
  dv : s.DV = false
  tt : s.TT = false
  buf : s.BUF.length = 512
  pos : p = 512 * s.BLK + s.CUR
  le : p ≤ A.length
  cur : s.CUR ≤ 512
  cnt : s.CNT ≤ 512
  nused : s.NUSED = blocks s.file
  clean : s.BM = false → A = s.file
  valid : s.BM = true → s.BV = true
  dirty : s.BM = true → 512 * s.BLK ≤ s.file.length
    ∧ A = overlay s.file (512 * s.BLK) (s.BUF.take s.CNT)
  within : s.BV = true → 512 * s.BLK + s.CNT ≤ A.length
  loaded : s.BV = true → ∀ i, i < s.CNT → s.BUF[i]? = A[512 * s.BLK + i]?
  full : s.BV = true → s.CUR = 512 → s.CNT = 512

/-- What is in the buffer after a block was read. -/
structure Loaded (BUF : List ℕ) (CNT : ℕ) (A : List ℕ) (b : ℕ) : Prop where
  buf : BUF.length = 512
  cnt : CNT = min 512 (A.length - 512 * b)
  same : ∀ i, i < CNT → BUF[i]? = A[512 * b + i]?

theorem lt_blocks {file : List ℕ} {b : ℕ} : b < blocks file ↔ 512 * b < file.length := by
  rw [blocks]
  omega

section blocks

variable {s : Io} {A : List ℕ} {p : ℕ}

theorem FRDBLK_some (hb : s.BUF.length = 512) (hl : 512 * s.BLK < s.file.length) :
    ∃ BUF CNT, FRDBLK s = some { s with BV := true, BUF, CNT } ∧ Loaded BUF CNT s.file s.BLK := by
  have length : ((s.file.drop (512 * s.BLK)).take 512).length
      = min 512 (s.file.length - 512 * s.BLK) := by
    rw [List.length_take, List.length_drop]
  refine ⟨overlay s.BUF 0 ((s.file.drop (512 * s.BLK)).take 512),
    ((s.file.drop (512 * s.BLK)).take 512).length, ?_, ?_, length, fun i hi => ?_⟩
  · rw [FRDBLK, readBlock, if_pos (lt_blocks.mpr hl)]
    rfl
  · rw [overlay_length (Nat.zero_le _)]
    omega
  · have inside := overlay_in (l := s.BUF) (Nat.zero_le _) hi
    rw [Nat.zero_add] at inside
    rw [inside, getElem?_slice (by omega)]

theorem FRDBLK_none (hl : s.file.length ≤ 512 * s.BLK) : FRDBLK s = none := by
  rw [FRDBLK, readBlock, if_neg fun h => absurd (lt_blocks.mp h) (Nat.not_lt_of_le hl)]
  rfl

theorem Inv.not_modified (h : Inv s A p) (hv : s.BV = false) : s.BM = false := by
  cases hm : s.BM with
  | false => rfl
  | true => exact absurd (h.valid hm) (by rw [hv]; decide)

/-- The state after a flush. -/
def flushed (s : Io) (A : List ℕ) : Io := { s with file := A, NUSED := blocks A, BM := false }

theorem Inv.flushed_self (h : Inv s A p) (hm : s.BM = false) : Fcs.flushed s A = s := by
  rw [Fcs.flushed, h.clean hm, ← h.nused, ← hm]

/-- Writing the buffer puts the file on the device. -/
theorem Inv.FWRBLK_eq (h : Inv s A p) (hm : s.BM = true) :
    FWRBLK s = some (flushed s A) := by
  obtain ⟨there, contents⟩ := h.dirty hm
  have short : (s.BUF.take s.CNT).length ≤ 512 := by
    rw [List.length_take]
    have := h.cnt
    omega
  have size : (if s.NUSED ≤ s.BLK + 1 ∧ s.DV = false then blocks A else s.NUSED) = blocks A := by
    by_cases last : s.NUSED ≤ s.BLK + 1
    · exact if_pos ⟨last, h.dv⟩
    · -- a block before the last one does not change the size
      rw [if_neg fun both => last both.1, h.nused]
      have more := lt_blocks.mp (h.nused ▸ Nat.lt_of_not_le last)
      have same : A.length = s.file.length := by
        rw [contents, overlay_length there]
        omega
      rw [blocks, blocks, same]
  rw [FWRBLK, writeBlock, if_pos there, ← contents]
  simp only [Option.map_some, size]
  rfl

theorem Inv.FFLUSH_eq (h : Inv s A p) : FFLUSH s = some (flushed s A) := by
  rw [FFLUSH]
  cases hm : s.BM with
  | true => exact (if_pos rfl).trans (h.FWRBLK_eq hm)
  | false =>
    rw [h.flushed_self hm]
    rfl

theorem Inv.flushed (h : Inv s A p) : Inv (flushed s A) A p :=
  ⟨h.rd, h.wr, h.dv, h.tt, h.buf, h.pos, h.le, h.cur, h.cnt, rfl, fun _ => rfl, nofun, nofun,
    h.within, h.loaded, h.full⟩

/-- The state at another place, with a block that was read. -/
theorem Inv.at_block (h : Inv s A p) {BUF : List ℕ} {CNT b c : ℕ} (hl : Loaded BUF CNT A b)
    (hb : 512 * b + c ≤ A.length) (hc : c ≤ 512) :
    Inv { Fcs.flushed s A with BV := true, BUF, CNT, BLK := b, CUR := c } A (512 * b + c) := by
  obtain ⟨buf, cnt, same⟩ := hl
  refine ⟨h.rd, h.wr, h.dv, h.tt, buf, rfl, hb, hc, ?_, rfl, fun _ => rfl, nofun, nofun,
    fun _ => ?_, fun _ => same, fun _ hc => ?_⟩
  · exact cnt ▸ Nat.min_le_left _ _
  · dsimp only
    omega
  · dsimp only at hc ⊢
    omega

/-- The state at another place, without a block. -/
theorem Inv.at_none (h : Inv s A p) (CNT b c : ℕ) (hb : 512 * b + c ≤ A.length) (hc : c ≤ 512)
    (hn : CNT ≤ 512) :
    Inv { Fcs.flushed s A with BV := false, CNT, BLK := b, CUR := c } A (512 * b + c) :=
  ⟨h.rd, h.wr, h.dv, h.tt, h.buf, rfl, hb, hc, hn, rfl, fun _ => rfl, nofun, nofun, nofun, nofun,
    nofun⟩

/-- Loading the block of the position. -/
theorem Inv.load (h : Inv s A p) (hv : s.BV = false) (hl : 512 * s.BLK < A.length) :
    ∃ BUF CNT, FRDBLK s = some { s with BV := true, BUF, CNT } ∧ Loaded BUF CNT A s.BLK
      ∧ Inv { s with BV := true, BUF, CNT } A p := by
  have hm := h.not_modified hv
  have file := h.clean hm
  obtain ⟨BUF, CNT, read, loaded⟩ := FRDBLK_some h.buf (file ▸ hl)
  rw [← file] at loaded
  refine ⟨BUF, CNT, read, loaded, ?_⟩
  have there := h.at_block loaded (h.pos ▸ h.le) h.cur
  have same : { s with BV := true, BUF, CNT }
      = { Fcs.flushed s A with BV := true, BUF, CNT, BLK := s.BLK, CUR := s.CUR } := by
    rw [h.flushed_self hm]
  rw [same, h.pos]
  exact there

/-- Going on in the buffer. -/
theorem Inv.advance (h : Inv s A p) (hv : s.BV = true) {n : ℕ} (hn : s.CUR + n ≤ s.CNT) :
    Inv { s with CUR := s.CUR + n } A (p + n) := by
  have cnt := h.cnt
  have within := h.within hv
  have pos := h.pos
  refine ⟨h.rd, h.wr, h.dv, h.tt, h.buf, ?_, ?_, ?_, cnt, h.nused, h.clean, h.valid, h.dirty,
    h.within, h.loaded, fun _ hc => ?_⟩
  · dsimp only
    omega
  · omega
  · dsimp only
    omega
  · dsimp only at hc ⊢
    omega

/-- Reading the next block. -/
theorem Inv.next_some (h : Inv s A p) (bv : Bool) (hl : 512 * (s.BLK + 1) < A.length) :
    ∃ BUF CNT, FRDBLK { FINCB (Fcs.flushed s A) with BV := bv }
        = some { FINCB (Fcs.flushed s A) with BV := true, BUF, CNT }
      ∧ Loaded BUF CNT A (s.BLK + 1) :=
  FRDBLK_some (s := { FINCB (Fcs.flushed s A) with BV := bv }) h.buf hl

theorem Inv.next_none (s : Io) (bv : Bool) (hl : A.length ≤ 512 * (s.BLK + 1)) :
    FRDBLK { FINCB (Fcs.flushed s A) with BV := bv } = none :=
  FRDBLK_none (s := { FINCB (Fcs.flushed s A) with BV := bv }) hl

end blocks

/-! ### Reading -/

section reading

variable {s : Io} {A : List ℕ} {p : ℕ}

/-- `fgc0` while the buffer has bytes. -/
theorem Inv.fgc0_here (h : Inv s A p) (hv : s.BV = true) (hc : s.CUR < s.CNT) :
    (fgc0 s).1 = A[p]? ∧ Inv (fgc0 s).2 A (p + 1) := by
  rw [fgc0, if_pos hc]
  refine ⟨?_, h.advance hv hc⟩
  have same := h.loaded hv s.CUR hc
  have short : s.CUR < s.BUF.length := by
    have buf := h.buf
    have cnt := h.cnt
    omega
  rw [h.pos, ← same, fgc2, List.getD_eq_getElem?_getD, List.getElem?_eq_getElem short]
  rfl

/-- `fgc0` at the end of the buffer. -/
theorem Inv.fgc0_next (h : Inv s A p) (hc : s.CNT ≤ s.CUR) (hl : 512 * (s.BLK + 1) < A.length) :
    (fgc0 s).1 = A[512 * (s.BLK + 1)]? ∧ Inv (fgc0 s).2 A (512 * (s.BLK + 1) + 1) := by
  obtain ⟨BUF, CNT, next, loaded⟩ := h.next_some s.BV hl
  have read : FRDBLK (FINCB (Fcs.flushed s A))
      = some { FINCB (Fcs.flushed s A) with BV := true, BUF, CNT } := next
  have some_bytes : 0 < CNT := by
    rw [loaded.cnt]
    omega
  have short : 0 < BUF.length := by
    rw [loaded.buf]
    decide
  have same := loaded.same 0 some_bytes
  rw [fgc0, if_neg (Nat.not_lt_of_le hc), h.FFLUSH_eq]
  dsimp only
  rw [read]
  dsimp only
  rw [if_neg (Nat.ne_of_gt some_bytes)]
  refine ⟨?_, h.at_block loaded hl (by decide)⟩
  rw [fgc2, List.getD_eq_getElem?_getD, List.getElem?_eq_getElem short]
  rw [List.getElem?_eq_getElem short] at same
  exact same

theorem Inv.fgc0_end (h : Inv s A p) (hc : s.CNT ≤ s.CUR) (hl : A.length ≤ 512 * (s.BLK + 1)) :
    fgc0 s = (none, FINCB (Fcs.flushed s A)) := by
  have read : FRDBLK (FINCB (Fcs.flushed s A)) = none := Inv.next_none s s.BV hl
  rw [fgc0, if_neg (Nat.not_lt_of_le hc), h.FFLUSH_eq]
  dsimp only
  rw [read]

/-- When a byte can be read as it should be: it is in the buffer, or the next block has it. -/
theorem Inv.fgc0_good (h : Inv s A p) (hv : s.BV = true) (hp : p < A.length)
    (hc : s.CUR < s.CNT ∨ s.CNT = 512) : (fgc0 s).1 = A[p]? ∧ Inv (fgc0 s).2 A (p + 1) := by
  by_cases here : s.CUR < s.CNT
  · exact h.fgc0_here hv here
  · have cur := h.cur
    have pos := h.pos
    have next : p = 512 * (s.BLK + 1) := by omega
    rw [next] at hp ⊢
    exact h.fgc0_next (Nat.le_of_not_lt here) hp

/-- In all other cases the position is wrong. -/
theorem Inv.fgc0_bad (h : Inv s A p) (hv : s.BV = true)
    (hp : p < A.length → s.CNT ≤ s.CUR ∧ s.CNT < 512) :
    (p < A.length → (fgc0 s).1 = none ∨ (fgc0 s).2.place ≠ p + 1)
      ∧ (p = A.length → (fgc0 s).2.place ≠ p) := by
  have cur := h.cur
  have pos := h.pos
  have within := h.within hv
  constructor
  · intro more
    obtain ⟨hc, short⟩ := hp more
    have full := h.full hv
    rcases Nat.lt_or_ge (512 * (s.BLK + 1)) A.length with hl | hl
    · right
      have next := (h.fgc0_next hc hl).2.pos
      rw [Io.place, ← next]
      omega
    · left
      rw [h.fgc0_end hc hl]
  · intro last
    have hc : s.CNT ≤ s.CUR := by omega
    rw [h.fgc0_end hc (by omega), Io.place]
    dsimp only [FINCB, Fcs.flushed]
    omega

/-- Where `FGETCH` does what it should. -/
def Fgetch (s : Io) (A : List ℕ) (p : ℕ) : Prop :=
  if p < A.length then s.BV = true → s.CUR < s.CNT ∨ s.CNT = 512
  else s.BV = false ∧ s.NUSED ≤ s.BLK

theorem Inv.FGETCH_good (h : Inv s A p) (hf : Fgetch s A p) :
    (FGETCH s).1 = A[p]? ∧ Inv (FGETCH s).2 A (if p < A.length then p + 1 else p) := by
  have pos := h.pos
  have cur := h.cur
  unfold Fgetch at hf
  by_cases hp : p < A.length
  · rw [if_pos hp] at hf ⊢
    cases hv : s.BV with
    | true =>
      rw [FGETCH, if_pos hv]
      exact h.fgc0_good hv hp (hf hv)
    | false =>
      obtain ⟨BUF, CNT, read, loaded, here⟩ := h.load hv (by omega)
      rw [FGETCH, hv, if_neg (by decide), read]
      refine here.fgc0_good rfl hp ?_
      have cnt := loaded.cnt
      dsimp only
      omega
  · rw [if_neg hp] at hf ⊢
    obtain ⟨hv, none⟩ := hf
    have file : s.file.length ≤ 512 * s.BLK := by
      rw [h.nused] at none
      exact Nat.le_of_not_lt fun more => absurd (lt_blocks.mpr more) (Nat.not_lt_of_le none)
    rw [FGETCH, hv, if_neg (by decide), FRDBLK_none file]
    refine ⟨(List.getElem?_eq_none (Nat.le_of_not_lt hp)).symm, h⟩

theorem Inv.FGETCH_bad (h : Inv s A p) (hf : ¬ Fgetch s A p) :
    ¬ ((FGETCH s).1 = A[p]? ∧ (FGETCH s).2.place = if p < A.length then p + 1 else p) := by
  have pos := h.pos
  have cur := h.cur
  have le := h.le
  unfold Fgetch at hf
  rintro ⟨byte, place⟩
  by_cases hp : p < A.length
  · rw [if_pos hp] at hf place
    obtain ⟨hv, short⟩ := Classical.not_imp.mp hf
    rw [FGETCH, if_pos hv] at byte place
    have cnt := h.cnt
    rcases (h.fgc0_bad hv fun _ => by omega).1 hp with none | wrong
    · rw [none, List.getElem?_eq_getElem hp] at byte
      cases byte
    · exact wrong place
  · rw [if_neg hp] at hf place
    have last : p = A.length := by omega
    cases hv : s.BV with
    | true =>
      rw [FGETCH, if_pos hv] at place
      exact (h.fgc0_bad hv fun more => absurd more hp).2 last place
    | false =>
      have more : 512 * s.BLK < A.length := by
        have here : s.BLK < s.NUSED := Nat.lt_of_not_le fun none => hf ⟨hv, none⟩
        rw [h.clean (h.not_modified hv)]
        exact lt_blocks.mp (h.nused ▸ here)
      obtain ⟨BUF, CNT, read, loaded, here⟩ := h.load hv more
      rw [FGETCH, hv, if_neg (by decide), read] at place
      exact (here.fgc0_bad rfl fun more => absurd more hp).2 last place

/-- What is left in the buffer. -/
theorem Inv.slice_eq (h : Inv s A p) (hv : s.BV = true) {k : ℕ} (hk : s.CUR + k ≤ s.CNT ∨ k = 0) :
    (s.BUF.drop s.CUR).take k = (A.drop p).take k := by
  refine List.ext_getElem? fun i => ?_
  rcases Nat.lt_or_ge i k with hi | hi
  · rw [getElem?_slice hi, getElem?_slice hi, h.loaded hv _ (by omega), h.pos, Nat.add_assoc]
  · rw [List.getElem?_eq_none, List.getElem?_eq_none]
    · exact Nat.le_trans (List.length_take_le _ _) hi
    · exact Nat.le_trans (List.length_take_le _ _) hi

theorem take_split (A : List ℕ) (p k n : ℕ) :
    (A.drop p).take k ++ (A.drop (p + k)).take n = (A.drop p).take (k + n) := by
  rw [List.take_add, List.drop_drop]

attribute [local grind =] frd1

/-- `frd1` when the buffer has no more than a part of what is to be read, and there is another
block. -/
theorem Inv.frd1_more (h : Inv s A p) {len : ℕ} (n : ℕ) (acc : List ℕ)
    (hl : ¬ (s.CUR < s.CNT ∧ len ≤ s.CNT - s.CUR)) (more : 512 * (s.BLK + 1) < A.length) :
    ∃ s', frd1 (n + 1) len acc s
        = frd1 n (len - (s.CNT - s.CUR)) (acc ++ (s.BUF.drop s.CUR).take (s.CNT - s.CUR)) s'
      ∧ Inv s' A (512 * (s.BLK + 1)) ∧ s'.BV = true ∧ s'.CUR < s'.CNT
      ∧ (s'.CNT = 512 ∨ 512 * s'.BLK + s'.CNT = A.length) := by
  obtain ⟨BUF, CNT, read, loaded⟩ := h.next_some false more
  have cnt := loaded.cnt
  refine ⟨{ FINCB (Fcs.flushed s A) with BV := true, BUF, CNT, CUR := 0 }, ?_,
    h.at_block loaded (Nat.le_of_lt more) (Nat.zero_le _), rfl, ?_, ?_⟩
  · rw [frd1, if_neg hl, h.FFLUSH_eq]
    dsimp only
    rw [read]
  · change 0 < CNT
    omega
  · change CNT = 512 ∨ 512 * (s.BLK + 1) + CNT = A.length
    omega

/-- `frd1` when there is no other block. -/
theorem Inv.frd1_last (h : Inv s A p) {len : ℕ} (n : ℕ) (acc : List ℕ)
    (hl : ¬ (s.CUR < s.CNT ∧ len ≤ s.CNT - s.CUR)) (last : A.length ≤ 512 * (s.BLK + 1)) :
    frd1 (n + 1) len acc s
      = (acc ++ (s.BUF.drop s.CUR).take (s.CNT - s.CUR),
        { Fcs.flushed s A with BV := false, CUR := s.CNT }) := by
  rw [frd1, if_neg hl, h.FFLUSH_eq]
  dsimp only
  rw [Inv.next_none s false last]
  rfl

/-- The place in the next block is the one behind what was left in this one. -/
theorem place_next {p b cur n len A : ℕ} (pos : p = 512 * b + cur) (hc : cur ≤ 512)
    (hn : n = 512 - cur) (hl : n ≤ len) (hA : 512 * (b + 1) ≤ A) :
    512 * (b + 1) = p + n ∧ n + (len - n) = len
      ∧ 512 * (b + 1) + min (len - n) (A - 512 * (b + 1)) = p + min len (A - p) := by
  omega

/-- The loop of `FREAD` reads on over whole blocks. -/
theorem Inv.frd1_good {n len : ℕ} (h : Inv s A p) (hv : s.BV = true) (acc : List ℕ) (hlen : 0 < len)
    (hf : s.CUR + len ≤ s.CNT ∨ s.CNT = 512 ∨ 512 * s.BLK + s.CNT = A.length)
    (hn : len + 1 ≤ n) (hn' : s.CUR < s.CNT ∨ len + 2 ≤ n) :
    (frd1 n len acc s).1 = acc ++ (A.drop p).take len
      ∧ Inv (frd1 n len acc s).2 A (p + min len (A.length - p)) := by
  induction n generalizing s p len acc with
  | zero => exact absurd hn nofun
  | succ n ih =>
    have pos := h.pos
    have le := h.le
    have within := h.within hv
    have cnt := h.cnt
    have hc := h.cur
    by_cases here : s.CUR < s.CNT ∧ len ≤ s.CNT - s.CUR
    · rw [frd1, if_pos here]
      have all : min len (A.length - p) = len := by omega
      have inside : s.CUR + len ≤ s.CNT := by omega
      rw [all, h.slice_eq hv (.inl inside)]
      exact ⟨rfl, h.advance hv inside⟩
    · have whole := hf.resolve_left fun inside => here (by omega)
      have cur : s.CUR ≤ s.CNT := by omega
      have most : s.CNT - s.CUR ≤ len := by omega
      have rest := h.slice_eq hv (k := s.CNT - s.CUR) (.inl (by omega))
      rcases Nat.lt_or_ge (512 * (s.BLK + 1)) A.length with more | last
      · have full : s.CNT = 512 := by omega
        have left : 0 < len - (s.CNT - s.CUR) := by omega
        have fuel : len - (s.CNT - s.CUR) + 1 ≤ n := by omega
        obtain ⟨place, total, far⟩ := place_next pos hc (congrArg (· - s.CUR) full) most
          (Nat.le_of_lt more)
        obtain ⟨s', eq, h', hv', some, whole'⟩ := h.frd1_more n acc here more
        obtain ⟨bytes, inv⟩ := ih h' hv' (acc ++ (s.BUF.drop s.CUR).take (s.CNT - s.CUR)) left
          (.inr whole') fuel (.inl some)
        rw [far] at inv
        rw [eq]
        refine ⟨?_, inv⟩
        rw [bytes, rest, List.append_assoc, place, take_split, total]
      · have atEnd : 512 * s.BLK + s.CNT = A.length := by omega
        have far : p + min len (A.length - p) = 512 * s.BLK + s.CNT := by omega
        rw [h.frd1_last n acc here last, rest, far]
        refine ⟨congrArg (acc ++ ·) ?_, h.at_none _ _ _ (Nat.le_of_eq atEnd) cnt cnt⟩
        have all (k : ℕ) (hk : A.length - p ≤ k) : (A.drop p).take k = A.drop p :=
          List.take_of_length_le (by rw [List.length_drop]; exact hk)
        rw [all _ (by omega), all _ (by omega)]

/-- Where `FREAD` does what it should. -/
def Fread (s : Io) (A : List ℕ) (len : ℕ) : Prop :=
  len = 0 ∨ (s.BV = true → s.CUR + len ≤ s.CNT ∨ s.CNT = 512 ∨ 512 * s.BLK + s.CNT = A.length)

theorem Inv.FREAD_good {len : ℕ} (h : Inv s A p) (hf : Fread s A len) :
    (FREAD len s).1 = (A.drop p).take len
      ∧ Inv (FREAD len s).2 A (p + min len (A.length - p)) := by
  have pos := h.pos
  have le := h.le
  by_cases zero : len = 0
  · subst zero
    rw [FREAD, if_pos rfl, Nat.zero_min]
    exact ⟨rfl, h⟩
  · have fuel : len + 1 ≤ len + 2 := Nat.le_succ _
    cases hv : s.BV with
    | true =>
      rw [FREAD, if_neg zero, if_pos hv]
      exact h.frd1_good hv [] (Nat.pos_of_ne_zero zero) (hf.resolve_left zero hv) fuel (.inr (Nat.le_refl _))
    | false =>
      rw [FREAD, if_neg zero, hv, if_neg (by decide)]
      rcases Nat.lt_or_ge (512 * s.BLK) A.length with more | last
      · obtain ⟨BUF, CNT, read, loaded, here⟩ := h.load hv more
        have full := loaded.cnt
        rw [read]
        refine here.frd1_good rfl [] (Nat.pos_of_ne_zero zero) ?_ fuel (.inr (Nat.le_refl _))
        dsimp only
        omega
      · rw [FRDBLK_none (h.clean (h.not_modified hv) ▸ last)]
        have atEnd : p = A.length := by omega
        have none : min len (A.length - p) = 0 := by omega
        rw [none, atEnd, List.drop_length, List.take_nil]
        exact ⟨rfl, atEnd ▸ h⟩

theorem bad_next {p b cur cnt len A : ℕ} (pos : p = 512 * b + cur) (hc : cur ≤ 512)
    (hs : cnt < 512) (hf : cur = 512 → cnt = 512)
    (count : cnt - cur + min (len - (cnt - cur)) (A - 512 * (b + 1)) = min len (A - p))
    (place : 512 * (b + 1) + min (len - (cnt - cur)) (A - 512 * (b + 1)) = p + min len (A - p)) :
    False := by
  omega

theorem Inv.FREAD_bad {len : ℕ} (h : Inv s A p) (hf : ¬ Fread s A len) :
    ¬ ((FREAD len s).1 = (A.drop p).take len
      ∧ (FREAD len s).2.place = p + min len (A.length - p)) := by
  rintro ⟨bytes, place⟩
  obtain ⟨zero, hf⟩ := not_or.mp hf
  obtain ⟨hv, hf⟩ := Classical.not_imp.mp hf
  have pos := h.pos
  have le := h.le
  have cur := h.cur
  have cnt := h.cnt
  have full := h.full hv
  have within := h.within hv
  have here : ¬ (s.CUR < s.CNT ∧ len ≤ s.CNT - s.CUR) := by omega
  have rest : ((s.BUF.drop s.CUR).take (s.CNT - s.CUR)).length = s.CNT - s.CUR := by
    rw [List.length_take, List.length_drop, h.buf]
    omega
  have count := congrArg List.length bytes
  rw [List.length_take, List.length_drop] at count
  rw [FREAD, if_neg zero, if_pos hv] at count place
  rcases Nat.lt_or_ge (512 * (s.BLK + 1)) A.length with more | last
  · have short : s.CNT < 512 := by omega
    have left : 0 < len - (s.CNT - s.CUR) := by omega
    have fuel : len - (s.CNT - s.CUR) + 1 ≤ len + 1 := Nat.succ_le_succ (Nat.sub_le _ _)
    obtain ⟨s', eq, h', hv', some, whole⟩ := h.frd1_more (len + 1) [] here more
    obtain ⟨bytes', inv⟩ := h'.frd1_good hv' ([] ++ (s.BUF.drop s.CUR).take (s.CNT - s.CUR)) left
      (.inr whole) fuel (.inl some)
    -- the next block was read, but the bytes of this one were not all there
    rw [eq, bytes', List.length_append, List.nil_append, rest, List.length_take,
      List.length_drop] at count
    rw [eq, Io.place, ← inv.pos] at place
    exact bad_next pos cur short full count place
  · have end_ := h.frd1_last (len + 1) [] here last
    rw [end_, List.nil_append, rest] at count
    rw [end_, Io.place] at place
    dsimp only [Fcs.flushed] at place
    omega

end reading

end RSX280.Fcs
