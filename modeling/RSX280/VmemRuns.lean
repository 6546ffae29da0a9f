import Mathlib.Order.Nat
import Mathlib.Data.List.Basic
import RSX280.Vmem

/-!
# The system image is a flat memory

What the image holds is what the buffers hold, and for the other blocks the file. Loading a block
changes nothing of it, so that the accesses are those to an array of bytes, and `SYSCLS` leaves the
array in the file.
-/

namespace RSX280.Vmem

/-! ### The file -/

/-- The bytes of a block of the file. -/
def File.bytes (f : File) (blk : ℕ) : Bytes := (f.block blk).getD fun _ => 0

/-- A file without holes. Behind its last byte there are zeros. -/
structure File.Whole (f : File) : Prop where
  full : f.lbcnt ≤ 512
  holes : ∀ j, (f.block j).isSome ↔ j < f.nused
  rest : ∀ j i, j + 1 = f.nused → f.lbcnt ≤ i → i < 512 → f.bytes j i = 0

variable {f : File} {blk : ℕ} {buf : Bytes} {i j : ℕ}

theorem File.Whole.bytes_of_le (h : f.Whole) (hj : f.nused ≤ j) : f.bytes j = fun _ => 0 := by
  have hnone : f.block j = none := by
    rw [← Option.not_isSome_iff_eq_none, h.holes]
    exact Nat.not_lt.mpr hj
  rw [File.bytes, hnone]
  rfl

theorem bytes_WRSYS : (WRSYS f blk buf).bytes j =
    if j = blk then fun i => if i < 512 then buf i else 0 else f.bytes j := by
  unfold File.bytes
  change (Function.update f.block blk _ j).getD _ = _
  by_cases hj : j = blk
  · subst hj
    rw [if_pos rfl, Function.update_self]
    rfl
  · rw [if_neg hj, Function.update_of_ne hj]

/-- A block of the file, or the one behind its end, is written. -/
theorem File.Whole.WRSYS (h : f.Whole) (hblk : blk ≤ f.nused) : (WRSYS f blk buf).Whole := by
  refine ⟨?_, fun j => ?_, fun j i hj hi hlt => ?_⟩
  · change (if f.nused ≤ blk + 1 then 512 else f.lbcnt) ≤ 512
    split
    · exact Nat.le_refl _
    · exact h.full
  · change (Function.update f.block blk _ j).isSome ↔ j < max f.nused (blk + 1)
    by_cases hj : j = blk
    · subst hj
      rw [Function.update_self]
      exact iff_of_true rfl (by omega)
    · rw [Function.update_of_ne hj, h.holes]
      omega
  · change j + 1 = max f.nused (blk + 1) at hj
    change (if f.nused ≤ blk + 1 then 512 else f.lbcnt) ≤ i at hi
    rw [bytes_WRSYS]
    by_cases hjb : j = blk
    · rw [if_pos hjb]
      rw [if_pos (by omega)] at hi
      exact if_neg (by omega)
    · rw [if_neg hjb]
      rw [if_neg (by omega)] at hi
      exact h.rest j i (by omega) hi hlt

/-- `ZFILL` gives the file the block and leaves its bytes as they are. -/
theorem ZFILL_spec (h : f.Whole) : ∀ {r}, r = ZFILL blk f f.nused buf →
    r.1.Whole ∧ r.1.nused = max f.nused (blk + 1) ∧ r.2.1 = r.1.nused ∧ r.1.bytes = f.bytes ∧
      ∀ i, 512 ≤ i → r.2.2 i = buf i := by
  intro r hr
  induction hn : blk + 1 - f.nused generalizing f buf with
  | zero =>
    rw [ZFILL, if_pos (by omega)] at hr
    subst hr
    exact ⟨h, by change f.nused = _; omega, rfl, rfl, fun _ _ => rfl⟩
  | succ n ih =>
    rw [ZFILL, if_neg (by omega)] at hr
    have hsize : f.nused + 1 = (WRSYS f f.nused (PADBUF 0 buf)).nused := by
      change _ = max f.nused (f.nused + 1)
      omega
    rw [hsize] at hr
    obtain ⟨hw, hnused, hsb, hbytes, hbuf⟩ := ih (h.WRSYS (Nat.le_refl _)) hr (by omega)
    refine ⟨hw, by rw [hnused, ← hsize]; omega, hsb, ?_, fun i hi => (hbuf i hi).trans ?_⟩
    · rw [hbytes]
      funext j
      rw [bytes_WRSYS]
      by_cases hj : j = f.nused
      · rw [if_pos hj, h.bytes_of_le hj.ge]
        funext i
        unfold PADBUF
        split <;> simp_all
      · rw [if_neg hj]
    · exact if_neg (by omega)

/-! ### What the image holds -/

/-- A buffer holds the block. -/
def Buf.holds (b : Buf) (blk : ℕ) : Bool := b.BITV && b.BLKNO == blk

/-- The bytes of a block: those of its buffer, or else those of the file. -/
def Sys.bytes (s : Sys) (blk : ℕ) : Bytes :=
  ((s.bufs.find? fun b => b.holds blk).map Buf.BUF).getD (s.file.bytes blk)

/-- A block has one buffer, and a buffer that was not modified holds what the file does. The bytes
behind a buffer are what they were. -/
structure Sys.Good (g : Bytes) (s : Sys) : Prop where
  whole : s.file.Whole
  size : s.SBLKS = s.file.nused
  some : s.bufs ≠ []
  one : s.bufs.Pairwise fun a b => ∀ blk, ¬(a.holds blk = true ∧ b.holds blk = true)
  inside : ∀ b ∈ s.bufs, b.BITV = true → b.BLKNO < s.file.nused
  clean : ∀ b ∈ s.bufs, b.BITV = true → b.BITM = false → ∀ i < 512, b.BUF i = s.file.bytes b.BLKNO i
  behind : ∀ b ∈ s.bufs, ∀ i, 512 ≤ i → b.BUF i = g i

variable {g : Bytes} {s : Sys} {b : Buf} {l l' : List Buf}

theorem holds_iff : b.holds blk = true ↔ b.BITV = true ∧ b.BLKNO = blk := by
  simp [Buf.holds]

/-- The buffer of a block is the one that is found. -/
theorem find_of_mem (one : l.Pairwise fun a b => ∀ blk, ¬(a.holds blk = true ∧ b.holds blk = true))
    (hb : b ∈ l) (hold : b.holds blk = true) : l.find? (fun b => b.holds blk) = some b := by
  induction l with
  | nil => exact absurd hb List.not_mem_nil
  | cons a l ih =>
    obtain ⟨hal, hl⟩ := List.pairwise_cons.mp one
    rcases List.mem_cons.mp hb with rfl | hb
    · exact List.find?_cons_of_pos (p := fun b : Buf => b.holds blk) hold
    · have ha : ¬a.holds blk = true := fun ha => hal b hb blk ⟨ha, hold⟩
      rw [List.find?_cons_of_neg (p := fun b : Buf => b.holds blk) ha]
      exact ih hl hb

/-- The order of the buffers does not matter. -/
theorem find_perm (h : l.Perm l')
    (one : l.Pairwise fun a b => ∀ blk, ¬(a.holds blk = true ∧ b.holds blk = true)) :
    l.find? (fun b => b.holds blk) = l'.find? fun b => b.holds blk := by
  have one' := h.pairwise one fun h blk hb => h blk hb.symm
  cases hl : l.find? (fun b => b.holds blk) with
  | some b =>
    have hb : b.holds blk = true := List.find?_some (p := fun b : Buf => b.holds blk) hl
    exact (find_of_mem one' (h.mem_iff.mp (List.mem_of_find?_eq_some hl)) hb).symm
  | none =>
    refine (List.find?_eq_none.mpr fun b hb => ?_).symm
    exact List.find?_eq_none.mp hl b (h.mem_iff.mpr hb)

/-- `gt1` takes the list apart. It returns the buffer of the block, or there is none and it returns
the last buffer. -/
theorem gt1_spec (blk : ℕ) (before behind : List Buf) (b : Buf)
    (hbefore : ∀ a ∈ before, a.holds blk = false) :
    ∀ {r}, r = gt1 blk before b behind → before ++ b :: behind = r.2.1 ++ r.2.2.1 :: r.2.2.2 ∧
      (r.1 = true → r.2.2.1.holds blk = true) ∧
        (r.1 = false → ∀ a ∈ before ++ b :: behind, a.holds blk = false) := by
  intro r hr
  have hsnoc (hb : ¬b.holds blk = true) : ∀ a ∈ before ++ [b], a.holds blk = false := by
    intro a ha
    rcases List.mem_append.mp ha with ha | ha
    · exact hbefore a ha
    · rw [List.mem_singleton.mp ha]
      exact Bool.not_eq_true _ ▸ hb
  induction behind generalizing before b with
  | nil =>
    unfold gt1 at hr
    by_cases hb : b.holds blk = true
    · rw [if_pos (show (b.BITV && b.BLKNO == blk) = true from hb)] at hr
      subst hr
      exact ⟨rfl, fun _ => hb, Bool.noConfusion⟩
    · rw [if_neg (show ¬(b.BITV && b.BLKNO == blk) = true from hb)] at hr
      dsimp only at hr
      subst hr
      exact ⟨rfl, Bool.noConfusion, fun _ => hsnoc hb⟩
  | cons c behind ih =>
    unfold gt1 at hr
    by_cases hb : b.holds blk = true
    · rw [if_pos (show (b.BITV && b.BLKNO == blk) = true from hb)] at hr
      subst hr
      exact ⟨rfl, fun _ => hb, Bool.noConfusion⟩
    · rw [if_neg (show ¬(b.BITV && b.BLKNO == blk) = true from hb)] at hr
      dsimp only at hr
      have := ih (before ++ [b]) c (hsnoc hb) hr fun hc a ha => ?_
      · rw [List.append_assoc] at this
        exact this
      · rcases List.mem_append.mp ha with ha | ha
        · exact hsnoc hb a ha
        · rw [List.mem_singleton.mp ha]
          exact Bool.not_eq_true _ ▸ hc

/-! ### Loading a block -/

/-- What `RDSYS` reads and `PADBUF` clears is a block of the file. -/
theorem load_spec (h : f.Whole) (hblk : blk < f.nused) {r} (hr : r = RDSYS f blk buf) :
    PADBUF r.1 r.2 i = if i < 512 then f.bytes blk i else buf i := by
  have hn : r.1 = if blk + 1 < f.nused then 512 else f.lbcnt := by
    subst hr
    change (if _ then _ else if _ then _ else 0) = _
    by_cases hlt : blk + 1 < f.nused
    · rw [if_pos hlt, if_pos hlt]
    · rw [if_neg hlt, if_neg hlt, if_pos (by omega)]
  have hr : r.2 i = if i < r.1 then f.bytes blk i else buf i := by
    subst hr
    rfl
  have hfull := h.full
  unfold PADBUF
  by_cases hi : i < 512
  · rw [if_pos hi]
    by_cases hin : r.1 ≤ i
    · rw [if_pos ⟨hin, hi⟩]
      have hlast : ¬blk + 1 < f.nused := by
        intro hlt
        rw [if_pos hlt] at hn
        omega
      rw [if_neg hlast] at hn
      exact (h.rest blk i (by omega) (hn ▸ hin) hi).symm
    · rw [if_neg fun hc => hin hc.1, hr, if_pos (by omega)]
  · have hle : r.1 ≤ 512 := by
      rw [hn]
      split
      · exact Nat.le_refl _
      · exact hfull
    rw [if_neg fun hc => hi hc.2, hr, if_neg (by omega), if_neg hi]

/-- The file when a buffer was written back that was modified. -/
def back (f : File) (b : Buf) : File :=
  if b.BITV && b.BITM then WRSYS f b.BLKNO b.BUF else f

theorem nused_back (hin : b.BITV = true → b.BLKNO < f.nused) : (back f b).nused = f.nused := by
  unfold back
  split
  · rename_i hb
    rw [Bool.and_eq_true] at hb
    have := hin hb.1
    change max f.nused (b.BLKNO + 1) = f.nused
    omega
  · rfl

theorem File.Whole.back (h : f.Whole) (hin : b.BITV = true → b.BLKNO < f.nused) :
    (back f b).Whole := by
  unfold Vmem.back
  split
  · rename_i hb
    rw [Bool.and_eq_true] at hb
    exact h.WRSYS (hin hb.1).le
  · exact h

/-- The file has then the bytes of the buffer. -/
theorem bytes_back (hclean : b.BITV = true → b.BITM = false → ∀ i < 512, b.BUF i = f.bytes b.BLKNO i)
    (hi : i < 512) : (back f b).bytes j i = if b.holds j then b.BUF i else f.bytes j i := by
  unfold back
  by_cases hv : b.BITV = true
  · by_cases hj : b.BLKNO = j
    · rw [if_pos (show b.holds j = true from holds_iff.mpr ⟨hv, hj⟩)]
      cases hm : b.BITM with
      | true => rw [hv, if_pos (Bool.and_self true), bytes_WRSYS, if_pos hj.symm, if_pos hi]
      | false => rw [hv, if_neg Bool.noConfusion, hclean hv hm i hi, hj]
    · rw [if_neg (show ¬b.holds j = true from fun hb => hj (holds_iff.mp hb).2)]
      split
      · rw [bytes_WRSYS, if_neg fun h => hj h.symm]
      · rfl
  · rw [if_neg (show ¬b.holds j = true from fun hb => hv (holds_iff.mp hb).1), if_neg]
    rw [Bool.and_eq_true]
    exact fun h => hv h.1

/-- `gt3`: the file has the block, with the bytes that it had and those of the buffer, and the buffer
has what the file has. -/
theorem gt3_spec (h : s.Good g) (hb : b ∈ s.bufs) {r} (hr : r = gt3 s blk b) :
    r.1.Whole ∧ r.1.nused = max s.file.nused (blk + 1) ∧ r.2.1 = r.1.nused ∧
      (∀ j, ∀ i < 512, r.1.bytes j i = if b.holds j then b.BUF i else s.file.bytes j i) ∧
        r.2.2.BLKNO = blk ∧ r.2.2.BITV = true ∧ r.2.2.BITM = false ∧
          ∀ i, r.2.2.BUF i = if i < 512 then r.1.bytes blk i else g i := by
  have hnused := nused_back (h.inside b hb)
  have hz := ZFILL_spec (h.whole.back (h.inside b hb))
    (rfl : ZFILL blk (back s.file b) (back s.file b).nused b.BUF = _)
  rw [hnused, ← h.size] at hz
  obtain ⟨hw, hsize, hsb, hbytes, hbuf⟩ := hz
  subst hr
  refine ⟨hw, hsize.trans (by rw [h.size]), hsb, fun j i hi => ?_, rfl, rfl, rfl, fun i => ?_⟩
  · exact (congrFun (congrFun hbytes j) i).trans (bytes_back (h.clean b hb) hi)
  · refine (load_spec hw (by rw [hsize]; omega) rfl).trans ?_
    by_cases hi : i < 512
    · rw [if_pos hi, if_pos hi]
      rfl
    · rw [if_neg hi, if_neg hi]
      exact (hbuf i (by omega)).trans (h.behind b hb i (by omega))

/-- The buffer at the head has the block. -/
structure Head (s : Sys) (blk : ℕ) (b : Buf) (l : List Buf) : Prop where
  bufs : s.bufs = b :: l
  holds : b.holds blk = true

theorem Head.bytes (h : Head s blk b l) : s.bytes blk = b.BUF := by
  unfold Sys.bytes
  rw [h.bufs, List.find?_cons_of_pos (p := fun b : Buf => b.holds blk) h.holds]
  rfl

theorem bytes_of_bufs (h : s.bufs = b :: l) (hb : ¬b.holds j = true) :
    s.bytes j = ((l.find? fun b => b.holds j).map Buf.BUF).getD (s.file.bytes j) := by
  unfold Sys.bytes
  rw [h, List.find?_cons_of_neg (p := fun b : Buf => b.holds j) hb]

/-- `SLDBLK` brings the block to the head, and the image is what it was. -/
theorem SLDBLK_spec (h : s.Good g) (blk : ℕ) {r} (hr : r = SLDBLK s blk) :
    r.Good g ∧ (∃ b l, Head r blk b l) ∧ r.file.nused = max s.file.nused (blk + 1) ∧
      ∀ j, ∀ i < 512, r.bytes j i = s.bytes j i := by
  obtain ⟨b, l, hs⟩ := List.exists_cons_of_ne_nil h.some
  obtain ⟨heq, hfound, hmiss⟩ := gt1_spec blk [] l b (List.forall_mem_nil _) rfl
  generalize ht : gt1 blk [] b l = t at heq hfound hmiss
  obtain ⟨found, before, b', behind⟩ := t
  change b :: l = before ++ b' :: behind at heq
  have hmem : b' ∈ s.bufs := by
    rw [hs, heq]
    exact List.mem_append_right _ List.mem_cons_self
  have hperm : s.bufs.Perm (b' :: (before ++ behind)) := by
    rw [hs, heq]
    exact List.perm_middle
  have hone := hperm.pairwise h.one fun h blk hb => h blk hb.symm
  unfold SLDBLK at hr
  rw [hs] at hr
  dsimp only at hr
  rw [ht] at hr
  dsimp only at hr
  cases found with
  | true =>
    rw [if_pos rfl] at hr
    have hhold := hfound rfl
    have hsize : s.file.nused = max s.file.nused (blk + 1) := by
      have := h.inside b' hmem (holds_iff.mp hhold).1
      rw [(holds_iff.mp hhold).2] at this
      omega
    subst hr
    refine ⟨⟨h.whole, h.size, List.cons_ne_nil _ _, hone, fun c hc => ?_, fun c hc => ?_,
      fun c hc => ?_⟩, ⟨b', _, rfl, hhold⟩, hsize, fun j i _ => ?_⟩
    · exact h.inside c (hperm.mem_iff.mpr hc)
    · exact h.clean c (hperm.mem_iff.mpr hc)
    · exact h.behind c (hperm.mem_iff.mpr hc)
    · unfold Sys.bytes
      rw [find_perm hperm h.one]
  | false =>
    rw [if_neg Bool.noConfusion] at hr
    have hnone : ∀ c ∈ s.bufs, c.holds blk = false := hs ▸ hmiss rfl
    obtain ⟨hw, hsize, hsb, hbytes, hno, hv, hm, hbuf⟩ := gt3_spec (r := gt3 s blk b') h hmem rfl
    obtain ⟨hother, hrest⟩ := List.pairwise_cons.mp hone
    have hold : (gt3 s blk b').2.2.holds blk = true := holds_iff.mpr ⟨hv, hno⟩
    have hmem' : ∀ c ∈ before ++ behind, c ∈ s.bufs := fun c hc =>
      hperm.mem_iff.mpr (List.mem_cons_of_mem _ hc)
    subst hr
    refine ⟨⟨hw, hsb, List.cons_ne_nil _ _, ?_, ?_, ?_, ?_⟩, ⟨_, _, rfl, hold⟩, hsize,
      fun j i hi => ?_⟩
    · refine List.pairwise_cons.mpr ⟨fun c hc j hj => ?_, hrest⟩
      have hjb : blk = j := hno.symm.trans (holds_iff.mp hj.1).2
      rw [← hjb, hnone c (hmem' c hc)] at hj
      exact Bool.noConfusion hj.2
    · intro c hc hcv
      change c.BLKNO < (gt3 s blk b').1.nused
      rw [hsize]
      rcases List.mem_cons.mp hc with rfl | hc
      · rw [hno]
        omega
      · have := h.inside c (hmem' c hc) hcv
        omega
    · intro c hc hcv hcm i hi
      rcases List.mem_cons.mp hc with rfl | hc
      · exact (hbuf i).trans (by rw [if_pos hi, hno])
      · refine (h.clean c (hmem' c hc) hcv hcm i hi).trans ?_
        have hnb : ¬b'.holds c.BLKNO = true := fun hb =>
          hother c hc _ ⟨hb, holds_iff.mpr ⟨hcv, rfl⟩⟩
        exact ((hbytes _ i hi).trans (if_neg hnb)).symm
    · intro c hc i hi
      rcases List.mem_cons.mp hc with rfl | hc
      · exact (hbuf i).trans (if_neg (by omega))
      · exact h.behind c (hmem' c hc) i hi
    · unfold Sys.bytes
      rw [find_perm hperm h.one]
      dsimp only
      by_cases hj : blk = j
      · subst hj
        rw [List.find?_cons_of_pos (p := fun b : Buf => b.holds blk) hold]
        rw [List.find?_eq_none.mpr fun c hc => by
          rw [hnone c (hperm.mem_iff.mpr hc)]
          exact Bool.noConfusion]
        refine ((hbuf i).trans (if_pos hi)).trans ((hbytes _ i hi).trans (if_neg ?_))
        rw [hnone b' hmem]
        exact Bool.noConfusion
      · rw [List.find?_cons_of_neg (p := fun b : Buf => b.holds j) fun hb =>
          hj (hno.symm.trans (holds_iff.mp hb).2)]
        by_cases hbj : b'.holds j = true
        · rw [List.find?_cons_of_pos (p := fun b : Buf => b.holds j) hbj]
          rw [List.find?_eq_none.mpr fun c hc hcj => hother c hc j ⟨hbj, hcj⟩]
          exact (hbytes j i hi).trans (if_pos hbj)
        · rw [List.find?_cons_of_neg (p := fun b : Buf => b.holds j) hbj]
          cases (before ++ behind).find? (fun b => b.holds j) with
          | none => exact (hbytes j i hi).trans (if_neg hbj)
          | some c => rfl

/-! ### A flat memory -/

/-- Bytes at their addresses. -/
abbrev Flat : Type := ℕ → UInt8

/-- The bytes of a list are stored from an address on. -/
def Flat.put (m : Flat) (at' : ℕ) (l : List UInt8) : Flat := fun a =>
  if at' ≤ a then (l[a - at']?).getD (m a) else m a

/-- The bytes from an address on. -/
def Flat.get (m : Flat) (at' n : ℕ) : List UInt8 := (List.range n).map fun i => m (at' + i)

variable {m : Flat} {at' n k : ℕ} {v : List UInt8}

theorem Flat.get_add : m.get at' (n + k) = m.get at' n ++ m.get (at' + n) k := by
  simp [get, List.range_add, Nat.add_assoc]

theorem Flat.put_append (h : k ≤ v.length) :
    (m.put at' (v.take k)).put (at' + k) (v.drop k) = m.put at' v := by
  funext a
  unfold put
  by_cases hat : at' ≤ a
  · rw [if_pos hat, if_pos hat]
    by_cases hk : at' + k ≤ a
    · rw [if_pos hk, List.getElem?_drop, List.getElem?_eq_none (l := v.take k)]
      · rw [show k + (a - (at' + k)) = a - at' by omega]
        rfl
      · rw [List.length_take]
        omega
    · rw [if_neg hk, List.getElem?_take_of_lt (by omega)]
  · rw [if_neg hat, if_neg (by omega), if_neg hat]

/-- The memory that the file is. -/
def File.flat (f : File) : Flat := fun a => f.bytes (a / 512) (a % 512)

/-- The memory that the image is. -/
def Sys.flat (s : Sys) : Flat := fun a => s.bytes (a / 512) (a % 512)

theorem SLDBLK_flat (h : s.Good g) (blk : ℕ) : (SLDBLK s blk).flat = s.flat := by
  obtain ⟨_, _, _, hbytes⟩ := SLDBLK_spec h blk rfl
  funext a
  exact hbytes _ _ (Nat.mod_lt _ (Nat.succ_pos _))

/-- At the head is the block. -/
theorem SYSBUF_SLDBLK (h : s.Good g) (blk : ℕ) (hi : i < 512) :
    SYSBUF (SLDBLK s blk) i = s.flat (blk * 512 + i) := by
  obtain ⟨_, ⟨b, l, hd⟩, _, hbytes⟩ := SLDBLK_spec h blk rfl
  unfold Sys.flat SYSBUF
  rw [show (blk * 512 + i) / 512 = blk by omega, show (blk * 512 + i) % 512 = i by omega,
    ← hbytes blk i hi, hd.bytes, hd.bufs]

/-- The buffer at the head with the bytes that `store` puts there. -/
def stored (b : Buf) (off : ℕ) (v : List UInt8) : Buf :=
  { b with
    BITM := true
    BUF := fun i => if off ≤ i then (v[i - off]?).getD (b.BUF i) else b.BUF i }

theorem store_of_bufs {off} (h : s.bufs = b :: l) :
    store s off v = { s with bufs := stored b off v :: l } := by
  unfold store
  rw [h]
  rfl

/-- Bytes are stored into the buffer of a block. -/
theorem store_spec (h : s.Good g) {off} (hd : Head s blk b l) (hoff : off + v.length ≤ 512) :
    (store s off v).Good g ∧ (store s off v).flat = s.flat.put (blk * 512 + off) v := by
  have hmem : b ∈ s.bufs := hd.bufs ▸ List.mem_cons_self
  have hrest : ∀ c ∈ l, c ∈ s.bufs := fun c hc => hd.bufs ▸ List.mem_cons_of_mem _ hc
  rw [store_of_bufs hd.bufs]
  refine ⟨⟨h.whole, h.size, List.cons_ne_nil _ _, ?_, ?_, ?_, ?_⟩, ?_⟩
  · have hone := h.one
    rw [hd.bufs] at hone
    obtain ⟨hb, hl⟩ := List.pairwise_cons.mp hone
    exact List.pairwise_cons.mpr ⟨fun c hc j hj => hb c hc j hj, hl⟩
  · intro c hc
    rcases List.mem_cons.mp hc with rfl | hc
    · exact h.inside b hmem
    · exact h.inside c (hrest c hc)
  · intro c hc
    rcases List.mem_cons.mp hc with rfl | hc
    · exact fun _ hm => Bool.noConfusion hm
    · exact h.clean c (hrest c hc)
  · intro c hc i hi
    rcases List.mem_cons.mp hc with rfl | hc
    · refine Eq.trans ?_ (h.behind b hmem i hi)
      change (if off ≤ i then (v[i - off]?).getD (b.BUF i) else b.BUF i) = _
      rw [if_pos (by omega), List.getElem?_eq_none (by omega)]
      rfl
    · exact h.behind c (hrest c hc) i hi
  · funext a
    unfold Flat.put Sys.flat
    by_cases ha : blk = a / 512
    · subst ha
      have hd' : Head { s with bufs := stored b off v :: l } (a / 512) (stored b off v) l :=
        ⟨rfl, hd.holds⟩
      rw [hd'.bytes, hd.bytes]
      change (if off ≤ a % 512 then (v[a % 512 - off]?).getD _ else _) = _
      by_cases ho : off ≤ a % 512
      · rw [if_pos ho, if_pos (by omega), show a - (a / 512 * 512 + off) = a % 512 - off by omega]
      · rw [if_neg ho, if_neg (by omega)]
    · have hne : ¬b.holds (a / 512) = true := fun hb =>
        ha ((holds_iff.mp hd.holds).2.symm.trans (holds_iff.mp hb).2)
      rw [bytes_of_bufs (b := stored b off v) rfl hne, bytes_of_bufs hd.bufs hne]
      split
      · rw [List.getElem?_eq_none (by omega)]
        rfl
      · rfl

/-! ### Accesses to blocks -/

variable {off len : ℕ}

theorem ldir_of_pos (h : 0 < len) : ldir len = len := if_neg h.ne'

/-- The bytes of the buffer at the head. -/
theorem map_SYSBUF (h : s.Good g) (hk : off + k ≤ 512) :
    ((List.range k).map fun i => SYSBUF (SLDBLK s blk) (off + i)) =
      s.flat.get (blk * 512 + off) k := by
  refine List.map_congr_left fun i hi => ?_
  rw [SYSBUF_SLDBLK h blk (by have := List.mem_range.mp hi; omega), Nat.add_assoc]

/-- `sg1` copies the bytes of the memory. The induction is on the blocks. -/
theorem sg1_spec (h : s.Good g) (hoff : off < 512) (hpos : 0 < len) (hn : len ≤ n)
    (hlen : off + len < 65536) {r} (hr : r = sg1 n s blk off len) :
    r.1.Good g ∧ r.1.flat = s.flat ∧ r.2 = s.flat.get (blk * 512 + off) len := by
  induction n generalizing s blk off len r with
  | zero => omega
  | succ n ih =>
    obtain ⟨hgood, -⟩ := SLDBLK_spec h blk rfl
    have hflat := SLDBLK_flat h blk
    unfold sg1 at hr
    dsimp only at hr
    rw [Nat.mod_eq_of_lt hlen] at hr
    by_cases hin : off + len ≤ 512
    · rw [if_pos hin, ldir_of_pos hpos, map_SYSBUF h hin] at hr
      subst hr
      exact ⟨hgood, hflat, rfl⟩
    · rw [if_neg hin, ldir_of_pos (by omega), map_SYSBUF h (by omega)] at hr
      obtain ⟨hgood', hflat', hbytes⟩ :=
        ih (r := sg1 n (SLDBLK s blk) (blk + 1) 0 (len - (512 - off))) hgood (by omega) (by omega)
          (by omega) (by omega) rfl
      subst hr
      refine ⟨hgood', hflat'.trans hflat, ?_⟩
      dsimp only
      rw [hbytes, hflat, show (blk + 1) * 512 + 0 = blk * 512 + off + (512 - off) by omega,
        ← Flat.get_add, show 512 - off + (len - (512 - off)) = len by omega]

/-- `sp1` stores the bytes into the memory. -/
theorem sp1_spec (h : s.Good g) (hoff : off < 512) (hpos : 0 < v.length) (hn : v.length ≤ n)
    (hlen : off + v.length < 65536) {r} (hr : r = sp1 n s blk off v) :
    r.Good g ∧ r.flat = s.flat.put (blk * 512 + off) v := by
  induction n generalizing s blk off v r with
  | zero => omega
  | succ n ih =>
    obtain ⟨hgood, ⟨b, l, hd⟩, -⟩ := SLDBLK_spec h blk rfl
    have hflat := SLDBLK_flat h blk
    unfold sp1 at hr
    dsimp only at hr
    rw [Nat.mod_eq_of_lt hlen] at hr
    by_cases hin : off + v.length ≤ 512
    · rw [if_pos hin, ldir_of_pos hpos, List.take_length] at hr
      subst hr
      rw [← hflat]
      exact store_spec hgood hd hin
    · rw [if_neg hin, ldir_of_pos (by omega)] at hr
      have htake : off + (v.take (512 - off)).length ≤ 512 := by
        rw [List.length_take]
        omega
      obtain ⟨hgood', hflat'⟩ := store_spec hgood hd htake
      have hdrop : (v.drop (512 - off)).length = v.length - (512 - off) := List.length_drop
      obtain ⟨hgood'', hflat''⟩ := ih hgood' (by omega) (v := v.drop (512 - off)) (by omega)
        (by omega) (by omega) hr
      refine ⟨hgood'', ?_⟩
      rw [hflat'', hflat', hflat, show (blk + 1) * 512 + 0 = blk * 512 + off + (512 - off) by omega]
      exact Flat.put_append (by omega)

/-! ### Accesses to addresses -/

/-- The address of a byte: the bank is in units of 4096 bytes. -/
def addr (bank a : ℕ) : ℕ := bank * 4096 + a

theorem BLKADR_ABSADR {e a : ℕ} (he : e < 256) (ha : a < 65536) :
    BLKADR (ABSADR e a) = (addr e a / 512, addr e a % 512) := by
  unfold BLKADR ABSADR addr
  refine Prod.ext ?_ ?_ <;> dsimp only <;> omega

/-- 16-bit registers. -/
structure Regs.Valid (r : Regs) : Prop where
  BC : r.BC < 65536
  DE : r.DE < 65536
  HL : r.HL < 65536

variable {r : Regs}

theorem Regs.Valid.incHL (h : r.Valid) : r.incHL.Valid := ⟨h.BC, h.DE, Nat.mod_lt _ (by omega)⟩

theorem SGETB_spec (h : s.Good g) (hr : r.Valid) {t} (ht : t = SGETB s r) :
    t.1.Good g ∧ t.1.flat = s.flat ∧ t.2 = ((s.flat (addr (r.DE % 256) r.HL)).toNat, r) := by
  unfold SGETB at ht
  rw [BLKADR_ABSADR (Nat.mod_lt _ (by omega)) hr.HL] at ht
  subst ht
  refine ⟨(SLDBLK_spec h _ rfl).1, SLDBLK_flat h _, ?_⟩
  dsimp only
  rw [SYSBUF_SLDBLK h _ (Nat.mod_lt _ (by omega)), Nat.div_add_mod']

theorem SPUTB_spec (h : s.Good g) (hr : r.Valid) {a : ℕ} {t} (ht : t = SPUTB s a r) :
    t.1.Good g ∧ t.1.flat = s.flat.put (addr (r.DE % 256) r.HL) [UInt8.ofNat a] ∧ t.2 = r := by
  unfold SPUTB at ht
  rw [BLKADR_ABSADR (Nat.mod_lt _ (by omega)) hr.HL] at ht
  subst ht
  obtain ⟨hgood, ⟨b, l, hd⟩, -⟩ := SLDBLK_spec h (addr (r.DE % 256) r.HL / 512) rfl
  obtain ⟨hgood', hflat⟩ := store_spec (v := [UInt8.ofNat a]) hgood hd
    (Nat.mod_lt (addr (r.DE % 256) r.HL) (by omega))
  rw [SLDBLK_flat h, Nat.div_add_mod'] at hflat
  exact ⟨hgood', hflat, rfl⟩

theorem SGETW_spec (h : s.Good g) (hr : r.Valid) {t} (ht : t = SGETW s r) :
    t.1.Good g ∧ t.1.flat = s.flat ∧ t.2 = { r with
      BC := (s.flat (addr (r.DE % 256) ((r.HL + 1) % 65536))).toNat * 256 +
        (s.flat (addr (r.DE % 256) r.HL)).toNat
      HL := (r.HL + 2) % 65536 } := by
  obtain ⟨hgood, hflat, heq⟩ := SGETB_spec h hr rfl
  unfold SGETW at ht
  generalize hu : SGETB s r = u at *
  obtain ⟨s', u⟩ := u
  dsimp only at hgood hflat heq ht
  subst heq
  dsimp only at ht
  have hlow := (s.flat (addr (r.DE % 256) r.HL)).toNat_lt
  have hbyte := hr.BC
  obtain ⟨hgood', hflat', heq'⟩ := SGETB_spec hgood (r := { r.incHL with
    BC := r.BC / 256 * 256 + (s.flat (addr (r.DE % 256) r.HL)).toNat })
      ⟨by dsimp only; omega, hr.DE, hr.incHL.HL⟩ rfl
  subst ht
  refine ⟨hgood', hflat'.trans hflat, (congrArg (fun u : ℕ × Regs =>
    ({ u.2.incHL with BC := u.1 * 256 + u.2.BC % 256 } : Regs)) heq').trans ?_⟩
  dsimp only
  rw [hflat]
  dsimp only [Regs.incHL]
  congr 1
  · omega
  · omega

theorem SPUTW_spec (h : s.Good g) (hr : r.Valid) {t} (ht : t = SPUTW s r) :
    t.1.Good g ∧ t.1.flat = (s.flat.put (addr (r.DE % 256) r.HL) [UInt8.ofNat (r.BC % 256)]).put
        (addr (r.DE % 256) ((r.HL + 1) % 65536)) [UInt8.ofNat (r.BC / 256)] ∧
      t.2 = { r with HL := (r.HL + 2) % 65536 } := by
  obtain ⟨hgood, hflat, heq⟩ := SPUTB_spec (a := r.BC % 256) h hr rfl
  unfold SPUTW at ht
  generalize SPUTB s (r.BC % 256) r = u at *
  obtain ⟨s', u⟩ := u
  dsimp only at hgood hflat heq ht
  subst heq
  obtain ⟨hgood', hflat', heq'⟩ := SPUTB_spec (a := u.BC / 256) hgood hr.incHL rfl
  subst ht
  refine ⟨hgood', hflat'.trans (by rw [hflat]; rfl), ?_⟩
  dsimp only
  rw [heq']
  dsimp only [Regs.incHL]
  congr 1
  omega

theorem SGETM_spec (h : s.Good g) (hr : r.Valid) {a : ℕ} (ha : a < 256) (hlen : r.BC ≤ 32768) {t}
    (ht : t = SGETM s a r) : t.1.Good g ∧ t.1.flat = s.flat ∧
      t.2 = ({ r with HL := (r.HL + r.BC) % 65536, DE := (r.DE + r.BC) % 65536, BC := 0 },
        s.flat.get (addr a r.HL) r.BC) := by
  unfold SGETM at ht
  by_cases hz : r.BC = 0
  · rw [if_pos hz] at ht
    subst ht
    refine ⟨h, rfl, ?_⟩
    obtain ⟨hbc, hde, hhl⟩ := hr
    rw [hz, Nat.add_zero, Nat.add_zero, Nat.mod_eq_of_lt hhl, Nat.mod_eq_of_lt hde, ← hz]
    exact Prod.ext rfl (by rw [hz]; rfl)
  · rw [if_neg hz, BLKADR_ABSADR ha hr.HL] at ht
    obtain ⟨hgood, hflat, hbytes⟩ := sg1_spec
      (r := sg1 r.BC s (addr a r.HL / 512) (addr a r.HL % 512) r.BC) h
      (Nat.mod_lt (addr a r.HL) (by omega)) (Nat.pos_of_ne_zero hz) (Nat.le_refl _)
        (by have := Nat.mod_lt (addr a r.HL) (show 512 > 0 by omega); omega) rfl
    rw [Nat.div_add_mod'] at hbytes
    subst ht
    refine ⟨hgood, hflat, ?_⟩
    dsimp only
    rw [hbytes]
    unfold Flat.get
    rw [List.length_map, List.length_range]

theorem SPUTM_spec (h : s.Good g) (hr : r.Valid) {a : ℕ} (ha : a < 256) (hlen : r.BC ≤ 32768)
    (hv : v.length = r.BC) {t} (ht : t = SPUTM s a r v) :
    t.1.Good g ∧ t.1.flat = s.flat.put (addr a r.DE) v ∧
      t.2 = { r with HL := (r.HL + r.BC) % 65536, DE := (r.DE + r.BC) % 65536, BC := 0 } := by
  unfold SPUTM at ht
  by_cases hz : r.BC = 0
  · rw [if_pos hz] at ht
    subst ht
    have hnil : v = [] := List.length_eq_zero_iff.mp (hv.trans hz)
    obtain ⟨hbc, hde, hhl⟩ := hr
    refine ⟨h, ?_, ?_⟩
    · subst hnil
      funext a
      unfold Flat.put
      split <;> rfl
    · dsimp only
      rw [hz, Nat.add_zero, Nat.add_zero, Nat.mod_eq_of_lt hhl, Nat.mod_eq_of_lt hde, ← hz]
  · rw [if_neg hz, BLKADR_ABSADR ha hr.DE] at ht
    obtain ⟨hgood, hflat⟩ := sp1_spec
      (r := sp1 r.BC s (addr a r.DE / 512) (addr a r.DE % 512) v) h
      (Nat.mod_lt (addr a r.DE) (by omega)) (hv ▸ Nat.pos_of_ne_zero hz) hv.le
        (by have := Nat.mod_lt (addr a r.DE) (show 512 > 0 by omega); omega) rfl
    rw [Nat.div_add_mod'] at hflat
    subst ht
    exact ⟨hgood, hflat, rfl⟩

/-! ### Runs -/

/-- The registers of a call: 16 bits, a bank of 8 bits, and blocks of up to 32 KB. -/
def Op.Valid : Op → Prop
  | .getb r => r.Valid
  | .putb a r => a < 256 ∧ r.Valid
  | .getw r => r.Valid
  | .putw r => r.Valid
  | .getm a r => a < 256 ∧ r.Valid ∧ r.BC ≤ 32768
  | .putm a r l => a < 256 ∧ r.Valid ∧ r.BC ≤ 32768 ∧ l.length = r.BC

/-- What a call does to an array of bytes, and what it returns. -/
def Flat.step (m : Flat) : Op → Flat × Out
  | .getb r => (m, ⟨some (m (addr (r.DE % 256) r.HL)).toNat, r, []⟩)
  | .putb a r => (m.put (addr (r.DE % 256) r.HL) [UInt8.ofNat a], ⟨none, r, []⟩)
  | .getw r =>
    (m, ⟨none, { r with
      BC := (m (addr (r.DE % 256) ((r.HL + 1) % 65536))).toNat * 256 +
        (m (addr (r.DE % 256) r.HL)).toNat
      HL := (r.HL + 2) % 65536 }, []⟩)
  | .putw r =>
    ((m.put (addr (r.DE % 256) r.HL) [UInt8.ofNat (r.BC % 256)]).put
      (addr (r.DE % 256) ((r.HL + 1) % 65536)) [UInt8.ofNat (r.BC / 256)],
        ⟨none, { r with HL := (r.HL + 2) % 65536 }, []⟩)
  | .getm a r =>
    (m, ⟨none, { r with HL := (r.HL + r.BC) % 65536, DE := (r.DE + r.BC) % 65536, BC := 0 },
      m.get (addr a r.HL) r.BC⟩)
  | .putm a r l =>
    (m.put (addr a r.DE) l,
      ⟨none, { r with HL := (r.HL + r.BC) % 65536, DE := (r.DE + r.BC) % 65536, BC := 0 }, []⟩)

/-- The calls of a list. -/
def Flat.runs : Flat → List Op → Flat × List Out
  | m, [] => (m, [])
  | m, op :: l => ((Flat.runs (m.step op).1 l).1, (m.step op).2 :: (Flat.runs (m.step op).1 l).2)

variable {op : Op} {ops : List Op}

theorem step_spec (h : s.Good g) (hop : op.Valid) {t} (ht : t = step s op) :
    t.1.Good g ∧ (t.1.flat, t.2) = s.flat.step op := by
  subst ht
  cases op with
  | getb r =>
    obtain ⟨hgood, hflat, heq⟩ := SGETB_spec h hop rfl
    refine ⟨hgood, Prod.ext hflat ?_⟩
    exact congrArg (fun u : ℕ × Regs => (⟨some u.1, u.2, []⟩ : Out)) heq
  | putb a r =>
    obtain ⟨hgood, hflat, heq⟩ := SPUTB_spec (a := a) h hop.2 rfl
    refine ⟨hgood, Prod.ext hflat ?_⟩
    dsimp only [step, Flat.step]
    rw [heq]
  | getw r =>
    obtain ⟨hgood, hflat, heq⟩ := SGETW_spec h hop rfl
    refine ⟨hgood, Prod.ext hflat ?_⟩
    dsimp only [step, Flat.step]
    rw [heq]
  | putw r =>
    obtain ⟨hgood, hflat, heq⟩ := SPUTW_spec h hop rfl
    refine ⟨hgood, Prod.ext hflat ?_⟩
    dsimp only [step, Flat.step]
    rw [heq]
  | getm a r =>
    obtain ⟨hgood, hflat, heq⟩ := SGETM_spec h hop.2.1 hop.1 hop.2.2 rfl
    refine ⟨hgood, Prod.ext hflat ?_⟩
    exact congrArg (fun u : Regs × List UInt8 => (⟨none, u.1, u.2⟩ : Out)) heq
  | putm a r l =>
    obtain ⟨hgood, hflat, heq⟩ := SPUTM_spec h hop.2.1 hop.1 hop.2.2.1 hop.2.2.2 rfl
    refine ⟨hgood, Prod.ext hflat ?_⟩
    dsimp only [step, Flat.step]
    rw [heq]

theorem runs_spec (h : s.Good g) (hops : ∀ op ∈ ops, op.Valid) {t} (ht : t = runs s ops) :
    t.1.Good g ∧ (t.1.flat, t.2) = s.flat.runs ops := by
  induction ops generalizing s t with
  | nil =>
    subst ht
    exact ⟨h, rfl⟩
  | cons op ops ih =>
    obtain ⟨hop, hops⟩ := List.forall_mem_cons.mp hops
    obtain ⟨hgood, hstep⟩ := step_spec h hop rfl
    obtain ⟨hgood', hruns⟩ := ih hgood hops rfl
    subst ht
    refine ⟨hgood', ?_⟩
    unfold Flat.runs
    rw [← hstep]
    dsimp only
    rw [← hruns]
    rfl

/-! ### The file at the end -/

/-- The bytes that the file has, and zeros behind them. -/
def File.content (f : File) : Flat := fun a =>
  if a / 512 + 1 < f.nused ∨ a / 512 + 1 = f.nused ∧ a % 512 < f.lbcnt then f.bytes (a / 512) (a % 512)
  else 0

theorem File.Whole.content (h : f.Whole) : f.content = f.flat := by
  funext a
  unfold File.content File.flat
  split
  · rfl
  · rename_i hout
    by_cases hlt : a / 512 < f.nused
    · exact (h.rest _ _ (by omega) (by omega) (Nat.mod_lt _ (Nat.succ_pos _))).symm
    · rw [h.bytes_of_le (Nat.not_lt.mp hlt)]

theorem Good_SYSOPN (h : f.Whole) (hsize : f.nused < 65536) : (SYSOPN f g).Good g := by
  have hbuf : ∀ b ∈ (SYSOPN f g).bufs, b = ⟨0, false, false, fun i => if i < 512 then 0 else g i⟩ :=
    fun b hb => List.eq_of_mem_replicate hb
  refine ⟨h, Nat.mod_eq_of_lt hsize, List.cons_ne_nil _ _, ?_, fun b hb hv => ?_, fun b hb hv => ?_,
    fun b hb i hi => ?_⟩
  · refine List.pairwise_replicate.mpr (Or.inr fun blk hb => ?_)
    exact Bool.noConfusion (holds_iff.mp hb.1).1
  · rw [hbuf b hb] at hv
    exact Bool.noConfusion hv
  · rw [hbuf b hb] at hv
    exact Bool.noConfusion hv
  · rw [hbuf b hb]
    exact if_neg (by omega)

/-- The file when the buffers of a list were written back. -/
theorem SYSCLS_fold (h : f.Whole)
    (one : l.Pairwise fun a b => ∀ blk, ¬(a.holds blk = true ∧ b.holds blk = true))
    (inside : ∀ b ∈ l, b.BITV = true → b.BLKNO < f.nused)
    (clean : ∀ b ∈ l, b.BITV = true → b.BITM = false → ∀ i < 512, b.BUF i = f.bytes b.BLKNO i) {t}
    (ht : t = l.foldl back f) : t.Whole ∧ ∀ j, ∀ i < 512,
      t.bytes j i = ((l.find? fun b => b.holds j).map Buf.BUF).getD (f.bytes j) i := by
  induction l generalizing f with
  | nil =>
    subst ht
    exact ⟨h, fun _ _ _ => rfl⟩
  | cons b l ih =>
    obtain ⟨hb, hl⟩ := List.pairwise_cons.mp one
    have hin := inside b List.mem_cons_self
    have hclean := clean b List.mem_cons_self
    obtain ⟨hw, hbytes⟩ := ih (h.back hin) hl
      (fun c hc hv => (nused_back hin).symm ▸ inside c (List.mem_cons_of_mem _ hc) hv)
      (fun c hc hv hm i hi => by
        rw [bytes_back hclean hi, if_neg fun hbc => hb c hc _ ⟨hbc, holds_iff.mpr ⟨hv, rfl⟩⟩]
        exact clean c (List.mem_cons_of_mem _ hc) hv hm i hi) ht
    refine ⟨hw, fun j i hi => (hbytes j i hi).trans ?_⟩
    by_cases hj : b.holds j = true
    · rw [List.find?_cons_of_pos (p := fun b : Buf => b.holds j) hj]
      rw [List.find?_eq_none.mpr fun c hc hcj => hb c hc j ⟨hj, hcj⟩]
      exact (bytes_back hclean hi).trans (if_pos hj)
    · rw [List.find?_cons_of_neg (p := fun b : Buf => b.holds j) hj]
      cases l.find? fun b => b.holds j with
      | none => exact (bytes_back hclean hi).trans (if_neg hj)
      | some c => rfl

/-- `SYSCLS` leaves in the file what the image holds. -/
theorem SYSCLS_spec (h : s.Good g) : (SYSCLS s).Whole ∧ (SYSCLS s).flat = s.flat := by
  obtain ⟨hw, hbytes⟩ := SYSCLS_fold h.whole h.one h.inside h.clean rfl
  refine ⟨hw, ?_⟩
  funext a
  exact hbytes _ _ (Nat.mod_lt _ (Nat.succ_pos _))

/-- The calls return what an array would, and the file is the array at the end. It has no holes, and
at no time has a byte behind a buffer been changed. -/
theorem image_is_flat (h : f.Whole) (hsize : f.nused < 65536) (hops : ∀ op ∈ ops, op.Valid) :
    let t := runs (SYSOPN f g) ops
    ((SYSCLS t.1).content, t.2) = f.content.runs ops ∧ (SYSCLS t.1).Whole ∧
      ∀ b ∈ t.1.bufs, ∀ i, 512 ≤ i → b.BUF i = g i := by
  intro t
  obtain ⟨hgood, hruns⟩ := runs_spec (Good_SYSOPN (g := g) h hsize) hops rfl
  obtain ⟨hw, hflat⟩ := SYSCLS_spec hgood
  refine ⟨?_, hw, hgood.behind⟩
  rw [hw.content, h.content, hflat]
  exact hruns

/-- A file of sevens. -/
def sevens (n lbcnt : ℕ) : File := ⟨n, lbcnt, fun j => if j < n then some fun _ => 7 else none⟩

/-- A byte is stored in a block behind the end, and read together with its neighbours. -/
theorem image_is_flat_behind :
    (runs (SYSOPN (sevens 1 512) fun _ => 1) [.putb 5 ⟨0, 3, 10, 0⟩, .getm 3 ⟨3, 256, 9, 0⟩]).2 =
      [⟨none, ⟨0, 3, 10, 0⟩, []⟩, ⟨none, ⟨0, 259, 12, 0⟩, [0, 5, 0]⟩] := by
  have hwhole : (sevens 1 512).Whole := by
    refine ⟨Nat.le_refl _, fun j => ?_, fun _ i _ hi hlt => absurd hlt (Nat.not_lt.mpr hi)⟩
    change (if j < 1 then some fun _ => 7 else none : Option Bytes).isSome ↔ j < 1
    by_cases hj : j < 1
    · rw [if_pos hj]
      exact iff_of_true rfl hj
    · rw [if_neg hj]
      exact iff_of_false Bool.noConfusion hj
  have hvalid : ∀ op ∈ [Op.putb 5 ⟨0, 3, 10, 0⟩, Op.getm 3 ⟨3, 256, 9, 0⟩], op.Valid := by
    refine List.forall_mem_cons.mpr ⟨⟨by decide, by decide, by decide, by decide⟩, ?_⟩
    refine List.forall_mem_singleton.mpr ⟨by decide, ⟨by decide, by decide, by decide⟩, by decide⟩
  exact (congrArg Prod.snd (image_is_flat (g := fun _ => 1) hwhole (by decide) hvalid).1).trans
    (by decide)

/-- `SBLKS` keeps 16 bits of the size: the first access clears block 0. And when the file grows, it has
what stood behind its last byte. -/
theorem image_too_long :
    (runs (SYSOPN (sevens 65536 512) fun _ => 0) [.getb ⟨0, 0, 0, 0⟩]).2 ≠
        ((sevens 65536 512).content.runs [.getb ⟨0, 0, 0, 0⟩]).2 ∧
      (SYSCLS (runs (SYSOPN (sevens 1 100) fun _ => 0) [.getb ⟨0, 0, 512, 0⟩]).1).content 100 ≠
        ((sevens 1 100).content.runs [.getb ⟨0, 0, 512, 0⟩]).1 100 := by
  constructor
  · simp [runs, step, SGETB, SLDBLK, SYSOPN, NBUFS, gt1, gt3, ZFILL, BLKADR, ABSADR, SYSBUF, RDSYS,
      WRSYS, PADBUF, sevens, Flat.runs, Flat.step, addr, File.content, File.bytes]
  · simp [runs, step, SGETB, SLDBLK, SYSOPN, NBUFS, gt1, gt3, ZFILL, BLKADR, ABSADR, RDSYS, WRSYS,
      PADBUF, sevens, Flat.runs, Flat.step, File.content, File.bytes, SYSCLS]

end RSX280.Vmem
