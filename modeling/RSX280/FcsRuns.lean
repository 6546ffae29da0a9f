import RSX280.FcsWrites

/-!
# An open file as an array of bytes

The calls do what they should do on an array of bytes with a position, as long as each of them meets
a condition; the first one that does not returns something else, or leaves another file.
-/

namespace RSX280.Fcs

open Overlay

/-- An array of bytes with a position. -/
structure Arr where
  bytes : List ℕ
  pos : ℕ
  deriving DecidableEq

/-- What a call should do. -/
def Arr.call (a : Arr) : Call → Out × Arr
  | .FGETCH =>
    (.byte a.bytes[a.pos]?, { a with pos := if a.pos < a.bytes.length then a.pos + 1 else a.pos })
  | .FREAD len =>
    (.bytes ((a.bytes.drop a.pos).take len), { a with pos := a.pos + min len (a.bytes.length - a.pos) })
  | .FPUTCH c => (.done true, ⟨overlay a.bytes a.pos [c], a.pos + 1⟩)
  | .FWRITE data => (.count data.length, ⟨overlay a.bytes a.pos data, a.pos + data.length⟩)
  | .FSEEK pos => (.done true, { a with pos })
  | .FPOS => (.position a.pos, a)
  | .FFLUSH => (.done true, a)

def Arr.run : List Call → Arr → List Out × Arr
  | [], a => ([], a)
  | c :: cs, a =>
    let r := a.call c
    let r' := Arr.run cs r.2
    (r.1 :: r'.1, r'.2)

/-- A position is within the file, and a length has 16 bits. -/
def Call.Within (a : Arr) : Call → Prop
  | .FSEEK pos => pos ≤ a.bytes.length
  | .FWRITE data => data.length < 65536
  | _ => True

def Within : List Call → Arr → Prop
  | [], _ => True
  | c :: cs, a => c.Within a ∧ Within cs (a.call c).2

/-- Where a call does what it should. -/
def Call.Fine (s : Io) (a : Arr) : Call → Prop
  | .FGETCH => Fgetch s a.bytes a.pos
  | .FREAD len => Fread s a.bytes len
  | .FPUTCH _ => Fwrite s a.bytes 1
  | .FWRITE data =>
    data = [] ∨ (s.CUR + data.length < 65536 ∧ Fwrite s a.bytes data.length)
  | .FPOS => a.pos < 2 ^ 32
  | _ => True

def Fine : List Call → Io → Arr → Prop
  | [], _, _ => True
  | c :: cs, s, a => c.Fine s a ∧ Fine cs (call s c).2 (a.call c).2

/-- The calls return what they should, and they leave the position and, after `FCLOSE`, the file that
they should. -/
def Alike (cs : List Call) (s : Io) (a : Arr) : Prop :=
  (run cs s).1 = (a.run cs).1 ∧ (run cs s).2.place = (a.run cs).2.pos
    ∧ (FCLOSE (run cs s).2).map Io.file = some (a.run cs).2.bytes

/-! ### One call -/

section calls

variable {s : Io} {A : List ℕ} {p : ℕ}

theorem Inv.FCLOSE_eq (h : Inv s A p) : (FCLOSE s).map Io.file = some A := by
  have opened : ¬ (s.RD = false ∧ s.WR = false ∧ s.WA = false) := fun closed =>
    absurd closed.1 (by rw [h.rd]; decide)
  rw [FCLOSE, if_neg opened]
  cases hm : s.BM with
  | true =>
    rw [if_pos ⟨.inl h.wr, rfl⟩, h.FWRBLK_eq hm]
    rfl
  | false =>
    rw [if_neg fun write => absurd write.2 (by decide), h.clean hm]
    rfl

theorem Inv.FSEEK_good {pos : ℕ} (h : Inv s A p) (hp : pos ≤ A.length) :
    (FSEEK pos s).1 = true ∧ Inv (FSEEK pos s).2 A pos := by
  have split : 512 * (pos / 512) + pos % 512 = pos := Nat.div_add_mod pos 512
  have short : pos % 512 < 512 := Nat.mod_lt _ (by decide)
  have there : 512 * (pos / 512) + pos % 512 ≤ A.length := split.symm ▸ hp
  rw [FSEEK, if_neg (by rw [h.dv]; decide)]
  dsimp only
  by_cases hv : s.BV = false
  · have next := h.at_none s.CNT _ _ there (Nat.le_of_lt short) h.cnt
    rw [h.flushed_self (h.not_modified hv), split, ← hv] at next
    rw [if_pos hv]
    exact ⟨rfl, next⟩
  · rw [if_neg hv]
    by_cases same : pos / 512 = s.BLK
    · rw [if_pos same]
      refine ⟨rfl, h.rd, h.wr, h.dv, h.tt, h.buf, ?_, hp, Nat.le_of_lt short, h.cnt, h.nused,
        h.clean, h.valid, h.dirty, h.within, h.loaded, fun _ full => ?_⟩
      · exact same ▸ split.symm
      · exact absurd full (Nat.ne_of_lt short)
    · -- the index does not matter to the flush
      have flush : FFLUSH { s with CUR := pos % 512 }
          = some { Fcs.flushed s A with CUR := pos % 512 } := by
        have written := h.FFLUSH_eq
        rw [FFLUSH] at written ⊢
        dsimp only
        split
        · rename_i hm
          rw [if_pos hm] at written
          rw [FWRBLK_other s s.BV s.BM, written]
          rfl
        · rename_i hm
          rw [if_neg hm] at written
          exact congrArg (fun s : Io => some { s with CUR := pos % 512 }) (Option.some.inj written)
      have next := h.at_none s.CNT _ _ there (Nat.le_of_lt short) h.cnt
      rw [split] at next
      rw [if_neg same, flush]
      exact ⟨rfl, next⟩

/-- A call that meets its condition. -/
theorem Inv.call_good {a : Arr} {c : Call} (h : Inv s a.bytes a.pos) (hw : c.Within a)
    (hf : c.Fine s a) :
    (call s c).1 = (a.call c).1 ∧ Inv (call s c).2 (a.call c).2.bytes (a.call c).2.pos := by
  cases c with
  | FGETCH =>
    obtain ⟨byte, inv⟩ := h.FGETCH_good hf
    exact ⟨congrArg Out.byte byte, inv⟩
  | FREAD len =>
    obtain ⟨bytes, inv⟩ := h.FREAD_good hf
    exact ⟨congrArg Out.bytes bytes, inv⟩
  | FPUTCH c =>
    obtain ⟨ok, inv⟩ := h.FPUTCH_good (c := c) hf
    exact ⟨congrArg Out.done ok, inv⟩
  | FWRITE data =>
    have cur := h.cur
    have short : s.CUR + data.length < 65536 := by
      rcases hf with none | ⟨short, -⟩
      · rw [none]
        exact Nat.lt_of_le_of_lt cur (by decide)
      · exact short
    obtain ⟨count, inv⟩ := h.FWRITE_good short (hf.imp_right And.right)
    exact ⟨congrArg Out.count count, inv⟩
  | FSEEK pos =>
    obtain ⟨ok, inv⟩ := h.FSEEK_good hw
    exact ⟨congrArg Out.done ok, inv⟩
  | FPOS =>
    refine ⟨congrArg Out.position ?_, h⟩
    rw [FPOS, Io.place, ← h.pos, Nat.mod_eq_of_lt hf]
  | FFLUSH =>
    rw [call, h.FFLUSH_eq]
    exact ⟨rfl, h.flushed⟩

/-! ### A write that is not fine -/

/-- The state when all that is in the buffer up to the index counts as modified. -/
def kept (s : Io) : Io := { s with BV := true, BM := true, CNT := max s.CNT s.CUR }

/-- It stands for another file. -/
theorem Inv.kept (h : Inv s A p) :
    Inv (kept s) (overlay A (512 * s.BLK) (s.BUF.take (max s.CNT s.CUR))) p := by
  have pos := h.pos
  have le := h.le
  have cnt := h.cnt
  have cur := h.cur
  have there : 512 * s.BLK ≤ A.length := by omega
  have count : (s.BUF.take (max s.CNT s.CUR)).length = max s.CNT s.CUR :=
    List.length_take_of_le (by rw [h.buf]; omega)
  have length := overlay_length (d := s.BUF.take (max s.CNT s.CUR)) there
  rw [count] at length
  refine ⟨h.rd, h.wr, h.dv, h.tt, h.buf, h.pos, ?_, cur, ?_, h.nused, nofun, fun _ => rfl,
    fun _ => ⟨h.there, ?_⟩, fun _ => ?_, fun _ i hi => ?_, fun _ full => ?_⟩
  · omega
  · change max s.CNT s.CUR ≤ 512
    omega
  · refine (overlay_unique h.there (fun k hk => ?_) fun i out => ?_).symm
    · exact overlay_in there hk
    · change i < 512 * s.BLK ∨ 512 * s.BLK + (s.BUF.take (max s.CNT s.CUR)).length ≤ i at out
      rw [count] at out
      rw [overlay_out there (by omega)]
      exact h.outside (by omega)
  · change 512 * s.BLK + max s.CNT s.CUR ≤ _
    omega
  · change i < max s.CNT s.CUR at hi
    change s.BUF[i]? = _
    rw [← List.getElem?_take_of_lt hi]
    exact (overlay_in there (by omega)).symm
  · change s.CUR = 512 at full
    change max s.CNT s.CUR = 512
    omega

theorem Fwrite.kept (s : Io) (B : List ℕ) (len : ℕ) : Fwrite (kept s) B len := by
  refine ⟨fun _ i hi hc => ?_, nofun⟩
  change max s.CNT s.CUR ≤ i at hi
  change i < s.CUR at hc
  omega

/-- The two kinds of a bad write. -/
theorem Fwrite.bad {len : ℕ} (hf : ¬ Fwrite s A len) :
    (s.BV = true ∧ ∃ i, s.CNT ≤ i ∧ i < s.CUR ∧ s.BUF[i]? ≠ A[512 * s.BLK + i]?)
      ∨ (s.BV = false ∧ s.NUSED ≤ s.BLK ∧ len < s.CNT) := by
  rw [Fwrite, not_and_or] at hf
  rcases hf with hf | hf
  · left
    obtain ⟨hv, gap⟩ := Classical.not_imp.mp hf
    obtain ⟨i, hi⟩ := not_forall.mp gap
    obtain ⟨behind, hi⟩ := Classical.not_imp.mp hi
    obtain ⟨before, other⟩ := Classical.not_imp.mp hi
    exact ⟨hv, i, behind, before, other⟩
  · right
    obtain ⟨hv, hf⟩ := Classical.not_imp.mp hf
    obtain ⟨none, more⟩ := Classical.not_imp.mp hf
    exact ⟨hv, none, Nat.lt_of_not_le more⟩

/-- What a bad write leaves is not what it should leave. -/
theorem Inv.other (data : List ℕ) (h : Inv s A p) (hf : ¬ Fwrite s A data.length) :
    overlay (overlay A (512 * s.BLK) (s.BUF.take (max s.CNT s.CUR))) p data
      ≠ overlay A p data := by
  intro same
  have pos := h.pos
  have le := h.le
  have cnt := h.cnt
  have cur := h.cur
  have there : 512 * s.BLK ≤ A.length := by omega
  have count : (s.BUF.take (max s.CNT s.CUR)).length = max s.CNT s.CUR :=
    List.length_take_of_le (by rw [h.buf]; omega)
  have length := overlay_length (d := s.BUF.take (max s.CNT s.CUR)) there
  rw [count] at length
  have le' : p ≤ (overlay A (512 * s.BLK) (s.BUF.take (max s.CNT s.CUR))).length := by omega
  rcases Fwrite.bad hf with ⟨hv, i, behind, before, other⟩ | ⟨hv, none, more⟩
  · -- a byte in front of the index
    have byte := congrArg (·[512 * s.BLK + i]?) same
    have inside : i < max s.CNT s.CUR := by omega
    rw [overlay_before le' (by omega), overlay_before le (by omega),
      overlay_in there (by omega), List.getElem?_take_of_lt inside] at byte
    exact other byte
  · -- the file is too long
    have size := congrArg List.length same
    rw [overlay_length le', overlay_length le] at size
    have file := h.clean (h.not_modified hv)
    have last : s.file.length ≤ 512 * s.BLK := Nat.le_of_not_lt fun more =>
      Nat.not_lt_of_le none (h.nused ▸ lt_blocks.mpr more)
    rw [← file] at last
    omega

/-- Before a bad write nothing is loaded. -/
theorem Inv.FRELD_bad {len : ℕ} (h : Inv s A p) (hf : ¬ Fwrite s A len) : FRELD s = some s := by
  rcases Fwrite.bad hf with ⟨hv, -⟩ | ⟨hv, none, -⟩
  · rw [FRELD, if_pos hv]
  · rw [FRELD, if_neg (by rw [hv]; decide), if_neg (by rw [h.rd]; decide),
      if_neg (Nat.not_lt_of_le none)]

/-- A bad write is not one at the end of a full block. -/
theorem Inv.room_bad {len : ℕ} (h : Inv s A p) (hf : ¬ Fwrite s A len) : s.CUR < 512 := by
  have cur := h.cur
  rcases Fwrite.bad hf with ⟨hv, i, behind, before, -⟩ | ⟨hv, none, -⟩
  · have full := h.full hv
    omega
  · have file := h.clean (h.not_modified hv)
    have last : s.file.length ≤ 512 * s.BLK := Nat.le_of_not_lt fun more =>
      Nat.not_lt_of_le none (h.nused ▸ lt_blocks.mpr more)
    rw [← file] at last
    have pos := h.pos
    have le := h.le
    omega

theorem FRELD_kept (s : Io) : FRELD (kept s) = some (kept s) := if_pos rfl

theorem Inv.FPUTCH_kept {c : ℕ} (h : Inv s A p) (hf : ¬ Fwrite s A 1) :
    (FPUTCH c s).2 = (FPUTCH c (Fcs.kept s)).2 := by
  have room := h.room_bad hf
  have count : max s.CNT (s.CUR + 1) = max (max s.CNT s.CUR) (s.CUR + 1) := by omega
  have tt : ¬ (c = 13 ∧ s.TT = true) := fun line => absurd line.2 (by rw [h.tt]; decide)
  have room' : (Fcs.kept s).CUR < 512 := room
  rw [FPUTCH, if_pos room, FPUTCH, if_pos room']
  dsimp only
  rw [fpc1, h.FRELD_bad hf, fpc1, FRELD_kept]
  dsimp only [Option.getD_some]
  have tt' : ¬ (c = 13 ∧ (Fcs.kept s).TT = true) := tt
  rw [if_neg tt, if_neg tt', Fcs.kept]
  dsimp only
  rw [count]

theorem Inv.FWRITE_kept {data : List ℕ} (h : Inv s A p) (hf : ¬ Fwrite s A data.length)
    (some : data ≠ []) (hd : s.CUR + data.length < 65536) :
    (FWRITE data s).2 = (FWRITE data (Fcs.kept s)).2 := by
  have room := h.room_bad hf
  have cnt := h.cnt
  have fits := fwr1_fits hd
  have count : max s.CNT (s.CUR + data.length)
      = max (max s.CNT s.CUR) (s.CUR + data.length) := by omega
  rw [FWRITE, if_neg some, FWRITE, if_neg some, fwr1, h.FRELD_bad hf, fwr1, FRELD_kept,
    Fcs.kept]
  dsimp only
  by_cases small : s.CUR + data.length ≤ 512
  · rw [if_pos (fits.mpr small), if_pos (fits.mpr small), if_neg some, if_neg some,
      Nat.mod_eq_of_lt hd, count]
  · have left : ¬ 512 - s.CUR = 0 := by omega
    rw [if_neg fun fit => small (fits.mp fit), if_neg fun fit => small (fits.mp fit), if_neg left,
      if_neg left]
    rcases Fwrite.bad hf with ⟨hv, -⟩ | ⟨hv, none, more⟩
    · rw [hv]
    · have file := h.clean (h.not_modified hv)
      have last : s.file.length ≤ 512 * s.BLK := Nat.le_of_not_lt fun more =>
        Nat.not_lt_of_le none (h.nused ▸ lt_blocks.mpr more)
      rw [← file] at last
      have pos := h.pos
      have le := h.le
      omega

/-- A call that does not meet its condition. -/
theorem Inv.call_bad {a : Arr} {c : Call} (h : Inv s a.bytes a.pos) (hw : c.Within a)
    (hf : ¬ c.Fine s a) : ¬ Alike [c] s a := by
  rintro ⟨out, place, close⟩
  have same : (call s c).1 = (a.call c).1 := List.head_eq_of_cons_eq out
  clear out
  cases c with
  | FGETCH => exact h.FGETCH_bad hf ⟨Out.byte.inj same, place⟩
  | FREAD len => exact h.FREAD_bad hf ⟨Out.bytes.inj same, place⟩
  | FPUTCH c =>
    have kept := (h.kept.FPUTCH_good (c := c) (Fwrite.kept s _ 1)).2.FCLOSE_eq
    rw [← h.FPUTCH_kept hf] at kept
    exact h.other [c] hf (Option.some.inj (kept.symm.trans close))
  | FWRITE data =>
    obtain ⟨some, hf⟩ := not_or.mp hf
    by_cases short : s.CUR + data.length < 65536
    · have bad : ¬ Fwrite s a.bytes data.length := fun fine => hf ⟨short, fine⟩
      have kept := (h.kept.FWRITE_good short (.inr (Fwrite.kept s _ data.length))).2.FCLOSE_eq
      rw [← h.FWRITE_kept bad some short] at kept
      exact h.other data bad (Option.some.inj (kept.symm.trans close))
    · -- the index has 16 bits
      obtain ⟨BV, BUF, CNT, reload, -, -⟩ := h.FRELD_eq
      have cur := h.cur
      have pos := h.pos
      have small : data.length < 65536 := hw
      have index : (s.CUR + data.length) % 65536 ≤ 512 := by omega
      change (FWRITE data s).2.place = a.pos + data.length at place
      rw [FWRITE, if_neg some, fwr1, reload] at place
      dsimp only at place
      rw [if_pos index, if_neg some, Io.place] at place
      dsimp only at place
      omega
  | FSEEK pos => exact hf trivial
  | FPOS =>
    have pos : FPOS s = a.pos := Out.position.inj same
    rw [FPOS] at pos
    exact hf (lt_of_eq_of_lt pos.symm (Nat.mod_lt _ (Nat.two_pow_pos 32)))
  | FFLUSH => exact hf trivial

end calls

/-! ### All calls -/

theorem Inv.alike_nil {s : Io} {a : Arr} (h : Inv s a.bytes a.pos) : Alike [] s a :=
  ⟨rfl, h.pos.symm, h.FCLOSE_eq⟩

theorem alike_cons {s : Io} {a : Arr} {c : Call} (cs : List Call)
    (same : (call s c).1 = (a.call c).1) :
    Alike (c :: cs) s a ↔ Alike cs (call s c).2 (a.call c).2 := by
  rw [Alike, Alike]
  refine and_congr_left fun _ => ?_
  rw [run, Arr.run, same]
  exact List.cons_inj_right _

theorem Inv.alike_run {s : Io} {a : Arr} (cs : List Call) (h : Inv s a.bytes a.pos)
    (hw : Within cs a) : (∀ n, Alike (cs.take n) s a) ↔ Fine cs s a := by
  induction cs generalizing s a with
  | nil => exact ⟨fun _ => trivial, fun _ n => by rw [List.take_nil]; exact h.alike_nil⟩
  | cons c cs ih =>
    constructor
    · intro alike
      have fine : c.Fine s a := by_contra fun hf => h.call_bad hw.1 hf (alike 1)
      obtain ⟨same, inv⟩ := h.call_good hw.1 fine
      exact ⟨fine, (ih inv hw.2).mp fun n => (alike_cons _ same).mp (alike (n + 1))⟩
    · rintro ⟨fine, rest⟩ n
      obtain ⟨same, inv⟩ := h.call_good hw.1 fine
      cases n with
      | zero => exact h.alike_nil
      | succ n => exact (alike_cons _ same).mpr ((ih inv hw.2).mpr rest n)

theorem inv_opened (file BUF : List ℕ) (hb : BUF.length = 512) : Inv (opened file BUF) file 0 :=
  ⟨rfl, rfl, rfl, rfl, hb, rfl, Nat.zero_le _, Nat.zero_le _, Nat.zero_le _, rfl, fun _ => rfl,
    nofun, nofun, nofun, nofun, nofun⟩

/-- The calls on an open file are those on an array of bytes exactly as long as each of them meets
its condition. -/
theorem alike_iff (file BUF : List ℕ) (calls : List Call) (hb : BUF.length = 512)
    (hw : Within calls ⟨file, 0⟩) :
    (∀ n, Alike (calls.take n) (opened file BUF) ⟨file, 0⟩)
      ↔ Fine calls (opened file BUF) ⟨file, 0⟩ :=
  (inv_opened file BUF hb).alike_run calls hw

/-- A byte is read, and the one behind it is replaced. -/
theorem alike_put : Alike [.FGETCH, .FPUTCH 9] (opened [7] (List.replicate 512 0)) ⟨[7], 0⟩ :=
  (alike_iff [7] (List.replicate 512 0) [.FGETCH, .FPUTCH 9] List.length_replicate
    ⟨trivial, trivial, trivial⟩).mpr
      ⟨nofun, ⟨fun _ _ behind before => absurd (Nat.lt_of_le_of_lt behind before) (Nat.lt_irrefl 1),
        nofun⟩, trivial⟩ 2

/-- At the end of the file `FGETCH` goes to the next block. -/
theorem not_alike_end :
    ¬ ∀ (file BUF : List ℕ) (calls : List Call), BUF.length = 512 → Within calls ⟨file, 0⟩ →
      Alike calls (opened file BUF) ⟨file, 0⟩ := by
  intro all
  have out := (all [7] (List.replicate 512 0) [.FGETCH, .FGETCH, .FPOS] List.length_replicate
    ⟨trivial, trivial, trivial, trivial⟩).1
  exact absurd out (by decide)

end RSX280.Fcs
