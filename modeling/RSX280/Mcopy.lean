import RSX280.FcsReads

/-!
# Copying a module

`MCOPY` of the librarian copies the bytes of the input file from the begin of a module to the current
position. It counts 32 bits down in two words, and stops when the low word is zero (`DECCNT`).
-/

namespace RSX280.Mcopy

open Fcs Overlay

/-- How the copy ends: back in the caller, or with a message when the input file ends. `out` are the
bytes that were put to the output file. -/
inductive End
  | back (out : List ℕ) (s : Io)
  | aborted (out : List ℕ)

/-- `DECCNT`: the new count and the flag Z. -/
def DECCNT (low high : ℕ) : (ℕ × ℕ) × Bool :=
  let low' := (low + 65535) % 65536
  if low ≠ 0 then ((low', high), low' = 0)
  else
    let high' := (high + 65535) % 65536
    if high' ≠ 0 then ((low', high'), false) else ((low', high'), low' = 0)

/-- The loop `mcpy`, in at most `n` rounds. -/
def mcpy : ℕ → ℕ → ℕ → List ℕ → Io → Option End
  | 0, _, _, _, _ => none
  | n + 1, low, high, out, s =>
    match FGETCH s with
    | (none, _) => some (.aborted out)
    | (some c, s) =>
      let out := out ++ [c]
      match DECCNT low high with
      | (_, true) => some (.back out s)
      | ((low, high), false) => mcpy n low high out s

/-- `MCOPY`. The bytes of the length are subtracted one after the other, with the borrow. -/
def MCOPY (n MODST : ℕ) (s : Io) : Option End :=
  let length := (FPOS s + 2 ^ 32 - MODST) % 2 ^ 32
  if length = 0 then some (.back [] s)
  else
    match FSEEK MODST s with
    | (false, _) => some (.aborted [])
    | (true, s) => mcpy n (length % 65536) (length / 65536) [] s

/-! ### The input file -/

/-- The file `A` is read, and the position is `p`. -/
structure Input (s : Io) (A : List ℕ) (p : ℕ) : Prop where
  file : s.file = A
  dv : s.DV = false
  bm : s.BM = false
  buf : s.BUF.length = 512
  pos : p = 512 * s.BLK + s.CUR
  le : p ≤ A.length
  cur : s.CUR ≤ 512
  valid : s.BV = true → Loaded s.BUF s.CNT A s.BLK

section

variable {s : Io} {A : List ℕ} {p m : ℕ}

/-- A byte that is in the buffer. -/
theorem Input.fgc2 {BUF : List ℕ} {CNT b i : ℕ} (h : Input s A p) (hl : Loaded BUF CNT A b) (hi : i < CNT) :
    (fgc2 i { s with BV := true, BUF, CNT, BLK := b }).1 = A[512 * b + i]?
      ∧ Input (fgc2 i { s with BV := true, BUF, CNT, BLK := b }).2 A (512 * b + i + 1) := by
  have cnt := hl.cnt
  have short : i < BUF.length := by
    rw [hl.buf]
    omega
  have same := hl.same i hi
  rw [List.getElem?_eq_getElem short] at same
  refine ⟨?_, h.file, h.dv, h.bm, hl.buf, Nat.add_assoc .., ?_, ?_, fun _ => hl⟩
  · rw [Fcs.fgc2, List.getD_eq_getElem?_getD, List.getElem?_eq_getElem short, ← same]
    rfl
  · omega
  · change i + 1 ≤ 512
    omega

theorem Input.fgc0 (h : Input s A p) (hv : s.BV = true) (hp : p < A.length) :
    (fgc0 s).1 = A[p]? ∧ Input (fgc0 s).2 A (p + 1) := by
  have loaded := h.valid hv
  have cnt := loaded.cnt
  have cur := h.cur
  have pos := h.pos
  rw [Fcs.fgc0]
  by_cases here : s.CUR < s.CNT
  · have same : { s with BV := true, BUF := s.BUF, CNT := s.CNT, BLK := s.BLK } = s := by rw [← hv]
    have byte := h.fgc2 loaded here
    rw [same, ← pos] at byte
    rw [if_pos here]
    exact byte
  · -- the whole block was read
    have next : p = 512 * (s.BLK + 1) + 0 := by omega
    obtain ⟨BUF, CNT, read, loaded⟩ := FRDBLK_some (s := FINCB s) h.buf
      (show 512 * (s.BLK + 1) < s.file.length by rw [h.file]; omega)
    rw [show (FINCB s).file = A from h.file] at loaded
    have cnt := loaded.cnt
    have some_bytes : 0 < CNT := by
      rw [cnt, show (FINCB s).BLK = s.BLK + 1 from rfl]
      omega
    have flush : FFLUSH s = some s := by rw [FFLUSH, h.bm, if_neg Bool.false_ne_true]
    rw [if_neg here, flush]
    dsimp only
    rw [read]
    dsimp only
    rw [if_neg (Nat.ne_of_gt some_bytes), next]
    exact h.fgc2 loaded some_bytes

/-- The next byte is read. -/
theorem Input.FGETCH (h : Input s A p) (hp : p < A.length) :
    ∃ s', FGETCH s = (some (A.getD p 0), s') ∧ Input s' A (p + 1) := by
  have byte : A[p]? = some (A.getD p 0) := by
    rw [List.getD_eq_getElem?_getD, List.getElem?_eq_getElem hp]
    rfl
  have pos := h.pos
  have cur := h.cur
  rw [Fcs.FGETCH]
  cases hv : s.BV with
  | true =>
    obtain ⟨hb, hs⟩ := h.fgc0 hv hp
    rw [if_pos rfl]
    exact ⟨_, Prod.ext (hb.trans byte) rfl, hs⟩
  | false =>
    obtain ⟨BUF, CNT, read, loaded⟩ := FRDBLK_some h.buf (show 512 * s.BLK < s.file.length by
      rw [h.file]
      omega)
    rw [if_neg Bool.false_ne_true, read]
    have here : Input { s with BV := true, BUF, CNT } A p :=
      ⟨h.file, h.dv, h.bm, loaded.buf, pos, h.le, cur, fun _ => h.file ▸ loaded⟩
    obtain ⟨hb, hs⟩ := here.fgc0 rfl hp
    exact ⟨_, Prod.ext (hb.trans byte) rfl, hs⟩

/-- The file is read from another place. -/
theorem Input.FSEEK (h : Input s A p) (hm : m ≤ A.length) :
    ∃ s', FSEEK m s = (true, s') ∧ Input s' A m := by
  have split : m = 512 * (m / 512) + m % 512 := (Nat.div_add_mod m 512).symm
  have short : m % 512 ≤ 512 := Nat.le_of_lt (Nat.mod_lt _ (by decide))
  have flush : FFLUSH { s with CUR := m % 512 } = some { s with CUR := m % 512 } := by
    rw [FFLUSH]
    exact if_neg (by rw [h.bm]; exact Bool.false_ne_true)
  rw [Fcs.FSEEK, if_neg (by rw [h.dv]; exact Bool.false_ne_true)]
  dsimp only
  by_cases hv : s.BV = false
  · rw [if_pos hv]
    exact ⟨_, rfl, h.file, h.dv, h.bm, h.buf, split, hm, short, fun v => absurd (hv.symm.trans v) (by decide)⟩
  · rw [if_neg hv]
    by_cases same : m / 512 = s.BLK
    · rw [if_pos same]
      exact ⟨_, rfl, h.file, h.dv, h.bm, h.buf, same ▸ split, hm, short, h.valid⟩
    · rw [if_neg same, flush]
      exact ⟨_, rfl, h.file, h.dv, h.bm, h.buf, split, hm, short, fun v => absurd v Bool.false_ne_true⟩

/-! ### The count -/

theorem DECCNT_low {low : ℕ} (high : ℕ) (hl : 0 < low) (h : low < 65536) :
    DECCNT low high = ((low - 1, high), decide (low = 1)) := by
  have less : (low + 65535) % 65536 = low - 1 := by omega
  rw [DECCNT, if_pos (Nat.ne_of_gt hl), less]
  exact congrArg _ (decide_eq_decide.mpr (by omega))

/-- The low word is zero: the high word is not looked at alone. -/
theorem DECCNT_zero (high : ℕ) : ∃ high', DECCNT 0 high = ((65535, high'), false) := by
  rw [DECCNT, if_neg (not_not.mpr rfl)]
  dsimp only
  split
  · exact ⟨_, rfl⟩
  · exact ⟨_, rfl⟩

/-- The bytes from `p` on, one more. -/
theorem take_next {i k : ℕ} (hi : i < A.length) :
    A.getD i 0 :: (A.drop (i + 1)).take k = (A.drop i).take (k + 1) := by
  rw [List.drop_eq_getElem_cons hi, List.take_succ_cons, List.getD_eq_getElem?_getD,
    List.getElem?_eq_getElem hi]
  rfl

/-- As many bytes are copied as the low word says. -/
theorem mcpy_low {low : ℕ} (high : ℕ) (out : List ℕ) (h : Input s A p) (hl : low < 65535)
    (hp : p + (low + 1) ≤ A.length) :
    ∃ s', Input s' A (p + (low + 1)) ∧ ∀ n, low < n →
      mcpy n (low + 1) high out s = some (.back (out ++ (A.drop p).take (low + 1)) s') := by
  induction low generalizing p s out with
  | zero =>
    obtain ⟨s', read, next⟩ := h.FGETCH (by omega)
    refine ⟨s', next, fun n hn => ?_⟩
    obtain ⟨n, rfl⟩ := Nat.exists_eq_succ_of_ne_zero (Nat.ne_of_gt hn)
    rw [mcpy, read, DECCNT_low high (by decide) (by decide), ← take_next (by omega)]
    rfl
  | succ low ih =>
    obtain ⟨s', read, next⟩ := h.FGETCH (by omega)
    obtain ⟨s'', last, rest⟩ := ih (out ++ [A.getD p 0]) next (by omega) (by omega)
    refine ⟨s'', (show p + 1 + (low + 1) = p + (low + 1 + 1) by omega) ▸ last, fun n hn => ?_⟩
    obtain ⟨n, rfl⟩ := Nat.exists_eq_succ_of_ne_zero (Nat.ne_of_gt (Nat.zero_lt_of_lt hn))
    rw [mcpy, read, DECCNT_low high (by omega) (by omega), decide_eq_false (by omega), Nat.add_sub_cancel]
    dsimp only
    rw [rest n (by omega), List.append_assoc, List.singleton_append, take_next (by omega)]

/-- The number of bytes that are copied. -/
def copied (length : ℕ) : ℕ :=
  if length % 65536 = 0 ∧ length ≠ 0 then 65536 else length % 65536

/-- The loop stops with the low word. -/
theorem mcpy_spec {length : ℕ} (h : Input s A p) (hl : 0 < length) (hp : p + length ≤ A.length) :
    ∃ s', Input s' A (p + copied length) ∧ ∀ n, 65536 ≤ n →
      mcpy n (length % 65536) (length / 65536) [] s
        = some (.back ((A.drop p).take (copied length)) s') := by
  have short : length % 65536 < 65536 := Nat.mod_lt _ (by decide)
  rw [copied]
  rcases Nat.eq_zero_or_pos (length % 65536) with whole | part
  · -- the first byte takes from the high word
    obtain ⟨high', count⟩ := DECCNT_zero (length / 65536)
    obtain ⟨s', read, next⟩ := h.FGETCH (by omega)
    obtain ⟨s'', last, rest⟩ := mcpy_low high' [A.getD p 0] next (show 65534 < 65535 by decide) (by omega)
    rw [if_pos ⟨whole, Nat.ne_of_gt hl⟩, whole]
    refine ⟨s'', Nat.add_assoc p 1 65535 ▸ last, fun n hn => ?_⟩
    obtain ⟨n, rfl⟩ := Nat.exists_eq_succ_of_ne_zero (show n ≠ 0 by omega)
    rw [mcpy, read, count]
    dsimp only
    rw [List.nil_append, rest n (by omega), List.singleton_append, take_next (by omega)]
  · obtain ⟨low, hlow⟩ := Nat.exists_eq_succ_of_ne_zero (Nat.ne_of_gt part)
    obtain ⟨s', last, rest⟩ := mcpy_low (length / 65536) [] h (show low < 65535 by omega) (by omega)
    rw [if_neg fun zero => absurd zero.1 (Nat.ne_of_gt part), hlow]
    exact ⟨s', last, fun n hn => rest n (by omega)⟩

/-- `MCOPY` copies the bytes from the begin of the module, as many as the low word of their number
says. -/
theorem MCOPY_spec (h : Input s A p) (hA : A.length < 2 ^ 32) (hm : m ≤ p) :
    ∃ s', Input s' A (m + copied (p - m)) ∧ ∀ n, 65536 ≤ n →
      MCOPY n m s = some (.back ((A.drop m).take (copied (p - m))) s') := by
  have le := h.le
  have place : FPOS s = p := by
    rw [FPOS, Io.place, ← h.pos]
    exact Nat.mod_eq_of_lt (Nat.lt_of_le_of_lt le hA)
  have length : (p + 2 ^ 32 - m) % 2 ^ 32 = p - m := by omega
  simp only [MCOPY, place, length]
  rcases Nat.eq_zero_or_pos (p - m) with none | some_bytes
  · have same : m = p := by omega
    rw [none]
    refine ⟨s, same ▸ h, fun n _ => ?_⟩
    rw [if_pos rfl]
    rfl
  · obtain ⟨s₁, seek, there⟩ := h.FSEEK (show m ≤ A.length by omega)
    obtain ⟨s', last, rest⟩ := mcpy_spec there some_bytes (show m + (p - m) ≤ A.length by omega)
    refine ⟨s', last, fun n hn => ?_⟩
    rw [if_neg (Nat.ne_of_gt some_bytes), seek]
    exact rest n hn

/-- `MCOPY` puts the bytes `out` to the output file. -/
def Copies (m : ℕ) (s : Io) (out : List ℕ) : Prop :=
  ∃ n s', ∀ k, n ≤ k → MCOPY k m s = some (.back out s')

theorem Copies.unique {out out' : List ℕ} (h : Copies m s out) (h' : Copies m s out') : out = out' := by
  obtain ⟨n, s₁, hn⟩ := h
  obtain ⟨n', s₂, hn'⟩ := h'
  have same := (hn (max n n') (Nat.le_max_left n n')).symm.trans (hn' (max n n') (Nat.le_max_right n n'))
  exact (End.back.inj (Option.some.inj same)).1

/-- **Copying a module**: `MCOPY` copies exactly the bytes from the begin of the module up to the
current position, if and only if they are not more than 65536. -/
theorem copies_iff (h : Input s A p) (hA : A.length < 2 ^ 32) (hm : m ≤ p) :
    Copies m s ((A.drop m).take (p - m)) ↔ p - m ≤ 65536 := by
  have le := h.le
  obtain ⟨s', -, copy⟩ := MCOPY_spec h hA hm
  constructor
  · intro all
    have same := congrArg List.length (all.unique ⟨65536, s', copy⟩)
    rw [List.length_take, List.length_take, List.length_drop, copied] at same
    split at same <;> omega
  · intro short
    have all : copied (p - m) = p - m := by
      rw [copied]
      split <;> omega
    rw [all] at copy
    exact ⟨65536, s', copy⟩

end

/-- An input file that was read up to `p`. -/
def readTo (A : List ℕ) (p : ℕ) : Io :=
  { RD := true, WR := false, WA := false, DV := false, TT := false, BV := false, BM := false,
    BUF := List.replicate 512 0, CNT := 0, CUR := p % 512, BLK := p / 512, NUSED := blocks A, file := A }

theorem input_readTo {A : List ℕ} {p : ℕ} (hp : p ≤ A.length) : Input (readTo A p) A p :=
  ⟨rfl, rfl, rfl, List.length_replicate, (Nat.div_add_mod p 512).symm, hp,
    Nat.le_of_lt (Nat.mod_lt _ (by decide)), fun v => absurd v Bool.false_ne_true⟩

/-- A module of two bytes. -/
theorem copies_two : Copies 1 (readTo [7, 8, 9, 0] 3) [8, 9] :=
  (copies_iff (input_readTo (by decide)) (by decide) (by decide)).mpr (by decide)

theorem cut_of_length {A : List ℕ} (hA : A.length = 65537) : ¬Copies 0 (readTo A 65537) A := by
  intro all
  have small : A.length < 2 ^ 32 := by
    rw [hA]
    decide
  obtain ⟨s', -, copy⟩ := MCOPY_spec (input_readTo (Nat.le_of_eq hA.symm)) small (Nat.zero_le 65537)
  have same := congrArg List.length (all.unique ⟨65536, s', copy⟩)
  have one : copied (65537 - 0) = 1 := by decide
  rw [List.length_take, List.drop_zero, hA, one] at same
  exact absurd same (by decide)

/-- A library of 65537 bytes is copied as a whole: one byte of it is. -/
theorem whole_cut : ¬Copies 0 (readTo (List.replicate 65537 0) 65537) (List.replicate 65537 0) :=
  cut_of_length List.length_replicate

end RSX280.Mcopy
