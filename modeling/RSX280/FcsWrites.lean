import RSX280.FcsReads

/-!
# Writing through the buffer

The bytes in front of the index go to the file together with the new ones, so they must be those of
the file. They are not when the count was left behind: of a block that was not loaded when the one
before it got full, or when the position was set to the end of the file.
-/

namespace RSX280.Fcs

open Overlay

section writing

variable {s : Io} {A : List ℕ} {p : ℕ}

/-- A state whose buffer can take `len` bytes: the bytes in it are those of the file, also the ones
between the count and the index; or the block is behind the end and they will be replaced. -/
def Ready (s : Io) (A : List ℕ) (len : ℕ) : Prop :=
  (s.BV = true ∧ ∀ i, s.CNT ≤ i → i < s.CUR → s.BUF[i]? = A[512 * s.BLK + i]?)
    ∨ (s.CUR = 0 ∧ 512 * s.BLK = A.length ∧ s.CNT ≤ len)

/-- The state with some bytes in the buffer. -/
def stored (s : Io) (data : List ℕ) : Io :=
  { s with BUF := overlay s.BUF s.CUR data, BM := true, BV := true, CUR := s.CUR + data.length,
           CNT := max s.CNT (s.CUR + data.length) }

/-- The modified block begins in the file. -/
theorem Inv.there (h : Inv s A p) : 512 * s.BLK ≤ s.file.length := by
  cases hm : s.BM with
  | true => exact (h.dirty hm).1
  | false =>
    rw [← h.clean hm]
    have pos := h.pos
    have le := h.le
    omega

/-- Outside the block the file has its bytes. -/
theorem Inv.outside (h : Inv s A p) {i : ℕ} (hi : i < 512 * s.BLK ∨ 512 * s.BLK + s.CNT ≤ i) :
    A[i]? = s.file[i]? := by
  cases hm : s.BM with
  | false => rw [h.clean hm]
  | true =>
    have count : (s.BUF.take s.CNT).length ≤ s.CNT := List.length_take_le _ _
    rw [(h.dirty hm).2, overlay_out h.there (by omega)]

theorem Ready.same {len : ℕ} (hr : Ready s A len) (h : Inv s A p) {i : ℕ}
    (hi : i < s.CNT ∨ i < s.CUR) (out : i < s.CUR ∨ s.CUR + len ≤ i) :
    s.BUF[i]? = A[512 * s.BLK + i]? := by
  rcases hr with ⟨hv, gap⟩ | ⟨cur, -, count⟩
  · rcases Nat.lt_or_ge i s.CNT with inside | behind
    · exact h.loaded hv i inside
    · exact gap i behind (by omega)
  · omega

theorem Ready.far {len : ℕ} (hr : Ready s A len) (h : Inv s A p) :
    512 * s.BLK + s.CNT ≤ max A.length (p + len) := by
  have pos := h.pos
  rcases hr with ⟨hv, -⟩ | ⟨cur, behind, count⟩
  · have within := h.within hv
    omega
  · omega

/-- The bytes of the buffer behind the begin of the block. -/
theorem buffer_at {data : List ℕ} {i : ℕ} (hr : Ready s A data.length) (h : Inv s A p) (hi : i < max s.CNT (s.CUR + data.length)) :
    (overlay s.BUF s.CUR data)[i]? = (overlay A p data)[512 * s.BLK + i]? := by
  have pos := h.pos
  have room : s.CUR ≤ s.BUF.length := h.buf ▸ h.cur
  by_cases inside : s.CUR ≤ i ∧ i < s.CUR + data.length
  · obtain ⟨k, rfl⟩ := Nat.exists_eq_add_of_le inside.1
    have short : k < data.length := by omega
    rw [overlay_in room short, ← Nat.add_assoc, ← pos, overlay_in h.le short]
  · have out : i < s.CUR ∨ s.CUR + data.length ≤ i := by omega
    have there : i < s.CNT ∨ i < s.CUR := by omega
    rw [overlay_out room out, overlay_out h.le (by omega), hr.same h there out]

/-- Bytes that fit in the buffer are written at the position. -/
theorem Inv.stored (data : List ℕ) (h : Inv s A p) (hr : Ready s A data.length)
    (hl : s.CUR + data.length ≤ 512) :
    Inv (stored s data) (overlay A p data) (p + data.length) := by
  have pos := h.pos
  have cnt := h.cnt
  have far := hr.far h
  have room : s.CUR ≤ s.BUF.length := h.buf ▸ h.cur
  have length := overlay_length (d := data) h.le
  have buf : (overlay s.BUF s.CUR data).length = 512 := by
    rw [overlay_length room, h.buf]
    omega
  have count : ((overlay s.BUF s.CUR data).take (max s.CNT (s.CUR + data.length))).length
      = max s.CNT (s.CUR + data.length) := by
    rw [List.length_take, buf]
    omega
  refine ⟨h.rd, h.wr, h.dv, h.tt, buf, ?_, ?_, hl, ?_, h.nused, nofun, fun _ => rfl,
    fun _ => ⟨h.there, ?_⟩, fun _ => ?_, fun _ i hi => buffer_at hr h hi, fun _ full => ?_⟩
  · change p + data.length = 512 * s.BLK + (s.CUR + data.length)
    omega
  · omega
  · change max s.CNT (s.CUR + data.length) ≤ 512
    omega
  · refine (overlay_unique h.there (fun k hk => ?_) fun i out => ?_).symm
    · change k < ((overlay s.BUF s.CUR data).take (max s.CNT (s.CUR + data.length))).length at hk
      rw [count] at hk
      change _ = ((overlay s.BUF s.CUR data).take (max s.CNT (s.CUR + data.length)))[k]?
      rw [List.getElem?_take_of_lt hk, buffer_at hr h hk]
    · change i < 512 * s.BLK ∨ 512 * s.BLK
        + ((overlay s.BUF s.CUR data).take (max s.CNT (s.CUR + data.length))).length ≤ i at out
      rw [count] at out
      rw [overlay_out h.le (by omega)]
      exact h.outside (by omega)
  · change 512 * s.BLK + max s.CNT (s.CUR + data.length) ≤ (overlay A p data).length
    omega
  · change s.CUR + data.length = 512 at full
    change max s.CNT (s.CUR + data.length) = 512
    omega

/-- Where a call that writes `len` bytes does what it should. -/
def Fwrite (s : Io) (A : List ℕ) (len : ℕ) : Prop :=
  (s.BV = true → ∀ i, s.CNT ≤ i → i < s.CUR → s.BUF[i]? = A[512 * s.BLK + i]?)
    ∧ (s.BV = false → s.NUSED ≤ s.BLK → s.CNT ≤ len)

/-- `?FRELD` makes the buffer ready. -/
theorem Inv.FRELD_eq (h : Inv s A p) :
    ∃ BV BUF CNT, FRELD s = some { s with BV, BUF, CNT } ∧ Inv { s with BV, BUF, CNT } A p
      ∧ ∀ len, Fwrite s A len → Ready { s with BV, BUF, CNT } A len := by
  have pos := h.pos
  have le := h.le
  cases hv : s.BV with
  | true =>
    have same : { s with BV := true } = s := by rw [← hv]
    refine ⟨true, s.BUF, s.CNT, ?_, same ▸ h, fun len hf => .inl ⟨rfl, hf.1 hv⟩⟩
    rw [FRELD, if_pos hv, same]
  | false =>
    have file := h.clean (h.not_modified hv)
    by_cases some : s.BLK < s.NUSED
    · have more : 512 * s.BLK < A.length := by
        rw [file]
        exact lt_blocks.mp (h.nused ▸ some)
      obtain ⟨BUF, CNT, read, loaded, here⟩ := h.load hv more
      have full := loaded.cnt
      have cur := h.cur
      refine ⟨true, BUF, CNT, ?_, here, fun len _ => .inl ⟨rfl, fun i hi hc => ?_⟩⟩
      · rw [FRELD, hv, if_neg (by decide), if_neg (by rw [h.rd]; decide), if_pos some, read]
      · -- the whole block is there
        dsimp only at hi hc
        omega
    · have none : s.NUSED ≤ s.BLK := Nat.le_of_not_lt some
      have last : s.file.length ≤ 512 * s.BLK := Nat.le_of_not_lt fun more =>
        some (h.nused ▸ lt_blocks.mpr more)
      rw [← file] at last
      have same : { s with BV := false } = s := by rw [← hv]
      refine ⟨false, s.BUF, s.CNT, ?_, same ▸ h, fun len hf => .inr ⟨?_, ?_, hf.2 hv none⟩⟩
      · rw [FRELD, hv, if_neg (by decide), if_neg (by rw [h.rd]; decide), if_neg some, same]
      · dsimp only
        omega
      · dsimp only
        omega

/-- `FWRBLK` does not use the index and the status bits. -/
theorem FWRBLK_other (s : Io) (BV BM : Bool) (CUR : ℕ) :
    FWRBLK { s with BV, BM, CUR } = (FWRBLK s).map fun s => { s with BV, CUR } := by
  rw [FWRBLK, FWRBLK]
  cases writeBlock s.file s.BLK (s.BUF.take s.CNT) with
  | none => rfl
  | some file => rfl

/-! ### `FPUTCH` -/

theorem overlay_one (BUF : List ℕ) {i : ℕ} (hi : i < BUF.length) (c : ℕ) :
    BUF.set i c = overlay BUF i [c] := by
  rw [List.set_eq_take_append_cons_drop, if_pos hi, overlay, List.append_assoc]
  rfl

theorem Inv.fpc1_good {c : ℕ} (h : Inv s A p) (hc : s.CUR < 512) (hf : Fwrite s A 1) :
    Inv (fpc1 c s.CUR s) (overlay A p [c]) (p + 1) := by
  obtain ⟨BV, BUF, CNT, reload, here, ready⟩ := h.FRELD_eq
  have there := here.stored [c] (ready 1 hf) hc
  have tt : ¬ (c = 13 ∧ s.TT = true) := fun line => absurd line.2 (by rw [h.tt]; decide)
  have short : s.CUR < BUF.length := Nat.lt_of_lt_of_eq hc here.buf.symm
  rw [fpc1, reload]
  dsimp only [Option.getD_some]
  rw [if_neg tt, overlay_one BUF short]
  exact there

/-- `fpc1` sets the index. -/
theorem fpc1_cur (c i j : ℕ) (s : Io) : fpc1 c i { s with CUR := j } = fpc1 c i s := by
  have reload : (FRELD { s with CUR := j }).getD { s with CUR := j }
      = { (FRELD s).getD s with CUR := j } := by
    rw [FRELD, FRELD]
    dsimp only
    split
    · rfl
    · split
      · rfl
      · split
        · rw [FRDBLK, FRDBLK]
          cases readBlock s.file s.BLK with
          | none => rfl
          | some data => rfl
        · rfl
  rw [fpc1, reload, fpc1]

theorem Inv.FPUTCH_good {c : ℕ} (h : Inv s A p) (hf : Fwrite s A 1) :
    (FPUTCH c s).1 = true ∧ Inv (FPUTCH c s).2 (overlay A p [c]) (p + 1) := by
  have pos := h.pos
  have cur := h.cur
  have le := h.le
  by_cases room : s.CUR < 512
  · rw [FPUTCH, if_pos room]
    exact ⟨rfl, h.fpc1_good room hf⟩
  · rw [FPUTCH, if_neg room, h.FFLUSH_eq]
    refine ⟨rfl, ?_⟩
    dsimp only
    -- the next block begins without bytes
    have next : Inv { FINCB { Fcs.flushed s A with CNT := 0 } with CUR := 0 } A p := by
      refine ⟨h.rd, h.wr, h.dv, h.tt, h.buf, ?_, le, Nat.zero_le _, Nat.zero_le _, rfl,
        fun _ => rfl, nofun, nofun, fun _ => ?_, nofun, nofun⟩
      · change p = 512 * (s.BLK + 1) + 0
        omega
      · change 512 * (s.BLK + 1) + 0 ≤ A.length
        omega
    rw [← fpc1_cur c 0 0]
    exact next.fpc1_good (Nat.succ_pos 511) ⟨nofun, fun _ _ => Nat.zero_le _⟩

/-! ### `FWRITE` -/

/-- The state when the rest of a block was filled and it is going to be written. -/
def filled (s : Io) (data : List ℕ) : Io :=
  let s := { s with CNT := 512 }
  if 512 - s.CUR = 0 then s
  else { s with BUF := overlay s.BUF s.CUR (data.take (512 - s.CUR)), BM := true }

/-- Filling a block and writing it. -/
theorem Inv.filled (data : List ℕ) {len : ℕ} (h : Inv s A p) (hr : Ready s A len)
    (hl : 512 < s.CUR + data.length) :
    FWRBLK (filled s data)
        = some { Fcs.flushed (Fcs.stored s (data.take (512 - s.CUR)))
          (overlay A p (data.take (512 - s.CUR))) with BV := s.BV, CUR := s.CUR }
      ∧ Inv (Fcs.stored s (data.take (512 - s.CUR))) (overlay A p (data.take (512 - s.CUR)))
        (512 * (s.BLK + 1)) := by
  have pos := h.pos
  have cur := h.cur
  have cnt := h.cnt
  have short : (data.take (512 - s.CUR)).length = 512 - s.CUR := List.length_take_of_le (by omega)
  have ready : Ready s A (data.take (512 - s.CUR)).length := by
    rcases hr with ready | ⟨first, behind, -⟩
    · exact .inl ready
    · exact .inr ⟨first, behind, by omega⟩
  have there := h.stored _ ready (by omega)
  have place : p + (data.take (512 - s.CUR)).length = 512 * (s.BLK + 1) := by omega
  have full : max s.CNT (s.CUR + (data.take (512 - s.CUR)).length) = 512 := by omega
  rw [place] at there
  refine ⟨?_, there⟩
  have same : Fcs.filled s data = { Fcs.stored s (data.take (512 - s.CUR)) with
      BV := s.BV, BM := (Fcs.filled s data).BM, CUR := s.CUR } := by
    rw [Fcs.filled, Fcs.stored, full]
    dsimp only
    split
    · rename_i none
      rw [none, List.take_zero, overlay_nil (h.buf ▸ h.cur)]
    · rfl
  rw [same, FWRBLK_other, there.FWRBLK_eq rfl]
  rfl

theorem fwr1_fits {len cur : ℕ} (hl : cur + len < 65536) :
    (cur + len) % 65536 ≤ 512 ↔ cur + len ≤ 512 := by
  rw [Nat.mod_eq_of_lt hl]

/-- The loop of `FWRITE` writes on over whole blocks. -/
theorem Inv.fwr1_good {n : ℕ} (done : ℕ) (data : List ℕ) (h : Inv s A p)
    (hd : s.CUR + data.length < 65536) (hf : data = [] ∨ Fwrite s A data.length)
    (hn : data.length + 1 ≤ n) (hn' : s.CUR < 512 ∨ data.length + 2 ≤ n) :
    (fwr1 n data done s).1 = done + data.length
      ∧ Inv (fwr1 n data done s).2 (overlay A p data) (p + data.length) := by
  induction n generalizing done data s A p with
  | zero => exact absurd hn nofun
  | succ n ih =>
    obtain ⟨BV, BUF, CNT, reload, here, ready⟩ := h.FRELD_eq
    have pos := h.pos
    have cur := h.cur
    have fits := fwr1_fits hd
    rw [fwr1, reload]
    dsimp only
    by_cases room : s.CUR + data.length ≤ 512
    · rw [if_pos (fits.mpr room)]
      by_cases none : data = []
      · rw [if_pos none, none, overlay_nil h.le]
        exact ⟨rfl, here⟩
      · rw [if_neg none, Nat.mod_eq_of_lt hd]
        exact ⟨rfl, here.stored _ (ready _ (hf.resolve_left none)) room⟩
    · have some : data ≠ [] := by
        rintro rfl
        exact room cur
      rw [if_neg fun small => room (fits.mp small)]
      obtain ⟨written, there⟩ := here.filled data (ready _ (hf.resolve_left some))
        (Nat.lt_of_not_le room)
      rw [Fcs.filled] at written
      dsimp only at written
      rw [written]
      dsimp only
      have short : (data.take (512 - s.CUR)).length = 512 - s.CUR :=
        List.length_take_of_le (by omega)
      have left : (data.drop (512 - s.CUR)).length = data.length - (512 - s.CUR) :=
        List.length_drop
      have place : p + (512 - s.CUR) = 512 * (s.BLK + 1) := by omega
      have next := there.at_none 0 (s.BLK + 1) 0 there.le (Nat.zero_le _)
        (Nat.zero_le _)
      have left' : 0 + (data.drop (512 - s.CUR)).length < 65536 := by omega
      obtain ⟨count, inv⟩ := ih (done + (512 - s.CUR)) (data.drop (512 - s.CUR)) next left'
        (.inr ⟨nofun, fun _ _ => Nat.zero_le _⟩) (by omega) (.inl (Nat.succ_pos 511))
      have whole : overlay (overlay A p (data.take (512 - s.CUR))) (512 * (s.BLK + 1))
          (data.drop (512 - s.CUR)) = overlay A p data := by
        rw [← place, overlay_split h.le (by omega)]
      have far : 512 * (s.BLK + 1) + (data.drop (512 - s.CUR)).length = p + data.length := by omega
      change Inv _ (overlay _ (512 * (s.BLK + 1)) _) (512 * (s.BLK + 1) + _) at inv
      rw [whole, far] at inv
      refine ⟨?_, inv⟩
      refine count.trans ?_
      omega

theorem Inv.FWRITE_good {data : List ℕ} (h : Inv s A p) (hd : s.CUR + data.length < 65536)
    (hf : data = [] ∨ Fwrite s A data.length) :
    (FWRITE data s).1 = data.length
      ∧ Inv (FWRITE data s).2 (overlay A p data) (p + data.length) := by
  by_cases none : data = []
  · rw [FWRITE, if_pos none, none, overlay_nil h.le]
    exact ⟨rfl, h⟩
  · obtain ⟨count, inv⟩ := h.fwr1_good (n := data.length + 2) 0 data hd hf (Nat.le_succ _)
      (.inr (Nat.le_refl _))
    rw [FWRITE, if_neg none]
    exact ⟨count.trans (Nat.zero_add _), inv⟩

end writing

end RSX280.Fcs
