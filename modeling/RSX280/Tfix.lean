import RSX280.Tload
import RSX280.VmemRuns

/-!
# Fixing a task

The virtual MCR fixes a task in memory: its `TLOAD` copies the image of the task to the system image, as the
loader does to memory. It computes the number of records with 16 bits and the bank with 8 (`fixes_iff`).
-/

namespace RSX280.Tfix

open Tload (Tcb World Copy STRT END CHKHDR MCOPY Loadable twice past NXTBL ldend wanted placed byteHeader byteTask blank)
open Vmem (Op Flat Sys addr)

/-! ### The routine -/

/-- The code size in records. The carry of the sum is lost. -/
def records (hdr : List UInt8) : ℕ := ((END hdr + 65536 - STRT hdr) % 65536 + 255) % 65536 / 256

/-- The flag C of `CPHLDE` -/
def CPHLDE (hl de : ℕ) : Bool := de < hl

/-- Up to `ld1`: not more records than the file has behind the header. -/
def ld1 (NBLK de : ℕ) : ℕ :=
  if 65536 ≤ 2 * NBLK then de
  else
    let hl := (2 * NBLK + 65535) % 65536
    if CPHLDE de hl then hl else de

/-- Up to `ld2`: not more than the partition has. -/
def ld2 (SIZE de : ℕ) : ℕ :=
  let hl := twice (twice (twice SIZE))
  if 65536 ≤ 2 * hl then de else if CPHLDE de (twice hl) then twice hl else de

/-- `SPUTM` of the 256 bytes at `hl` in `IBUF`, to `de` in the partition. `TBASE` is a byte. -/
def put (t : Tcb) (IBUF : List UInt8) (hl de : ℕ) : Op :=
  .putm (t.BASE % 256) ⟨256, de, hl, 0⟩ ((IBUF.drop hl).take 256)

/-- The loop `load`, with `BC` records to go. Does it get to `ldend`? -/
def load (disk : ℕ → Option (List UInt8)) (t : Tcb) : ℕ → ℕ → ℕ → List Op → Bool × List Op
  | 0, _, _, out => (true, out)
  | 1, blk, de, out =>
    match disk (NXTBL blk) with
    | none => (false, out)
    | some IBUF => (true, out ++ [put t IBUF 0 de])
  | bc + 2, blk, de, out =>
    match disk (NXTBL blk) with
    | none => (false, out)
    | some IBUF => load disk t bc (NXTBL blk) (past (past de)) (out ++ [put t IBUF 0 de, put t IBUF 256 (past de)])

def TLOAD (disk : ℕ → Option (List UInt8)) (t : Tcb) : Bool × List Op :=
  match disk t.SBLK with
  | none => (false, [])
  | some IBUF =>
    let hdr := IBUF.take 256
    if CHKHDR hdr then
      let bc := ld2 t.SIZE (ld1 t.NBLK (records hdr))
      load disk t ((bc + 65535) % 65536) t.SBLK (past t.STRT) [put t IBUF 256 t.STRT]
    else (false, [])

/-! ### What should be stored -/

/-- Where a call stores, and what. -/
def stored : Op → Option Copy
  | .putm a r l => some ⟨addr a r.DE, l⟩
  | _ => none

def stores (ops : List Op) : List Copy := ops.filterMap stored

/-- The memory behind some copies. -/
def copied (m : Flat) (copies : List Copy) : Flat := copies.foldl (fun m c => m.put c.dst c.data) m

/-- The blocks have 512 bytes. -/
def Sized (w : World) : Prop := ∀ b IBUF, w.disk b = some IBUF → IBUF.length = 512

/-- A task is fixed as it is loaded, with the records that are wanted, and both reject a header without an
address. -/
structure Right (w : World) (t : Tcb) (hdr : List UInt8) : Prop where
  same : stores (TLOAD w.disk t).2 = (Tload.TLOAD w t).copies
  bytes : Sized w → ∀ g (s : Sys), s.Good g →
    (Vmem.runs s (TLOAD w.disk t).2).1.flat = copied s.flat (Tload.TLOAD w t).copies
  image : (TLOAD w.disk t).1 = true → STRT hdr ≤ END hdr ∧ stores (TLOAD w.disk t).2 =
    (List.range (wanted t hdr)).map fun k => ⟨4096 * t.BASE + (t.STRT + 256 * k), w.record t (k + 1)⟩
  rejects : ∀ copies, Tload.TLOAD w t = .started copies → STRT hdr ≤ END hdr
  inside : ∀ c ∈ stores (TLOAD w.disk t).2, 4096 * t.BASE ≤ c.dst ∧ c.dst + 256 ≤ 4096 * (t.BASE + t.SIZE)

/-- The loader loads it, the code size can be rounded with 16 bits, and the base has 8 bits. -/
structure Fixable (t : Tcb) (hdr : List UInt8) : Prop where
  loadable : Loadable t hdr
  short : END hdr - STRT hdr ≤ 65280
  base : t.BASE < 256

section

variable {w : World} {t : Tcb} {hdr IBUF : List UInt8} {disk : ℕ → Option (List UInt8)}

/-! ### The loops -/

/-- The task with the base as it is in `TBASE`. -/
def banked (t : Tcb) : Tcb := { t with BASE := t.BASE % 256 }

theorem stored_put (t : Tcb) (IBUF : List UInt8) (hl de : ℕ) :
    stored (put t IBUF hl de) = some (MCOPY (banked t) IBUF hl de) := by
  rw [put, stored, addr, MCOPY, Nat.mul_comm]
  rfl

theorem stores_one (out : List Op) (hl de : ℕ) :
    stores (out ++ [put t IBUF hl de]) = stores out ++ [MCOPY (banked t) IBUF hl de] := by
  rw [stores, List.filterMap_append, List.filterMap_cons_some (stored_put t IBUF hl de)]
  rfl

/-- Both loops read the same blocks, and so they fail at the same one. -/
theorem load_eq (w : World) (t : Tcb) (bc blk de : ℕ) (out : List Op) :
    Tload.load w (banked t) bc blk de (stores out) =
      if (load w.disk t bc blk de out).1 then ldend w (stores (load w.disk t bc blk de out).2)
      else .aborted .LDR (stores (load w.disk t bc blk de out).2) := by
  induction bc using Nat.twoStepInduction generalizing blk de out with
  | zero => rfl
  | one =>
    rw [Tload.load, load]
    cases w.disk (NXTBL blk) with
    | none => rfl
    | some IBUF =>
      dsimp only
      rw [if_pos rfl, stores_one]
  | more bc ih _ =>
    rw [Tload.load, load]
    cases w.disk (NXTBL blk) with
    | none => rfl
    | some IBUF =>
      have both : stores out ++ [MCOPY (banked t) IBUF 0 de, MCOPY (banked t) IBUF 256 (past de)]
          = stores (out ++ [put t IBUF 0 de, put t IBUF 256 (past de)]) := by
        rw [stores, stores, List.filterMap_append, List.filterMap_cons_some (stored_put t IBUF 0 de),
          List.filterMap_cons_some (stored_put t IBUF 256 (past de)), List.filterMap_nil]
      dsimp only
      rw [both]
      exact ih (NXTBL blk) (past (past de)) (out ++ [put t IBUF 0 de, put t IBUF 256 (past de)])

/-- The records that are stored: none are 65536. -/
def count (t : Tcb) (hdr : List UInt8) : ℕ := (ld2 t.SIZE (ld1 t.NBLK (records hdr)) + 65535) % 65536 + 1

/-- The image of the task is stored, or a block cannot be read. -/
theorem TLOAD_ends (h : disk t.SBLK = some IBUF) (valid : CHKHDR (IBUF.take 256) = true) :
    ((TLOAD disk t).1 = true ∧
        stores (TLOAD disk t).2 = placed ⟨disk, true, true⟩ (banked t) (count t (IBUF.take 256))) ∨
      ((TLOAD disk t).1 = false ∧ (∃ b, disk b = none) ∧ ∃ k ≤ count t (IBUF.take 256),
        stores (TLOAD disk t).2 = placed ⟨disk, true, true⟩ (banked t) k) := by
  generalize hw : (⟨disk, true, true⟩ : World) = w
  have hd : w.disk = disk := by rw [← hw]
  have first : stores [put t IBUF 256 t.STRT] = placed w (banked t) (2 * 0 + 1) := by
    have block : (t.SBLK + 1 / 2) % 2 ^ 32 = t.SBLK := Nat.mod_eq_of_lt t.sblk
    have address : (t.STRT + 256 * 0) % 65536 = t.STRT := Nat.mod_eq_of_lt t.strt
    rw [Tload.placed_succ, World.record, hd]
    change _ = [] ++ [(⟨4096 * (banked t).BASE + (t.STRT + 256 * 0) % 65536,
      (((disk ((t.SBLK + 1 / 2) % 2 ^ 32)).getD []).drop (256 * 1)).take 256⟩ : Copy)]
    rw [address, block, h]
    exact stores_one [] 256 t.STRT
  have block : (t.SBLK + 0) % 2 ^ 32 = t.SBLK := Nat.mod_eq_of_lt t.sblk
  have ends := Tload.load_ends w (banked t) ((ld2 t.SIZE (ld1 t.NBLK (records (IBUF.take 256))) + 65535) % 65536) 0
  have start : (banked t).SBLK = t.SBLK := rfl
  have address : (banked t).STRT = t.STRT := rfl
  rw [start, address, block, ← first, load_eq, hd, Nat.add_comm (2 * 0 + 1)] at ends
  have run : TLOAD disk t = load disk t ((ld2 t.SIZE (ld1 t.NBLK (records (IBUF.take 256))) + 65535) % 65536)
      t.SBLK (past t.STRT) [put t IBUF 256 t.STRT] := by
    rw [TLOAD, h]
    exact if_pos valid
  have next : (t.STRT + 256 * (2 * 0 + 1)) % 65536 = past t.STRT := rfl
  rw [next, ← run] at ends
  have fine (all : ∀ b, disk b ≠ none) : w.Fine := by
    rw [← hw]
    exact ⟨all, rfl, rfl⟩
  cases done : (TLOAD disk t).1 with
  | true =>
    rw [done, if_pos rfl] at ends
    have started : ldend w (stores (TLOAD disk t).2) = .started (stores (TLOAD disk t).2) := by rw [← hw]; rfl
    rw [started] at ends
    rcases ends with all | ⟨-, e, k, -, fails⟩
    · exact Or.inl ⟨rfl, Tload.Result.started.inj all⟩
    · cases fails
  | false =>
    rw [done, if_neg Bool.false_ne_true] at ends
    rcases ends with all | ⟨fails, e, k, le, same⟩
    · cases all
    · refine Or.inr ⟨rfl, ?_, k, le, (Tload.Result.aborted.inj same).2⟩
      by_contra none
      exact fails (fine fun b hb => none ⟨b, hb⟩)

/-! ### The number of records -/

theorem limits_eq (t : Tcb) (de : ℕ) : ld2 t.SIZE (ld1 t.NBLK de) = Tload.ld4 t.SIZE (Tload.ld1 t.NBLK de) := by
  simp only [ld2, Tload.ld4, ld1, Tload.ld1, CPHLDE, decide_eq_true_eq]

theorem records_short (range : STRT hdr ≤ END hdr) (short : END hdr - STRT hdr ≤ 65280) :
    records hdr = Tload.records hdr := by
  have sum : (END hdr + 65536 - STRT hdr) % 65536 = END hdr - STRT hdr := by
    have small : END hdr < 65536 := Tload.word_lt hdr _
    omega
  rw [records, Tload.records, sum, Nat.mod_eq_of_lt (by omega)]

/-- The carry is lost, and it is no record. -/
theorem count_long (range : STRT hdr ≤ END hdr) (long : 65280 < END hdr - STRT hdr) : count t hdr = 65536 := by
  have small : END hdr < 65536 := Tload.word_lt hdr _
  have none : records hdr = 0 := by
    rw [records]
    omega
  have file : ld1 t.NBLK 0 = 0 := by
    simp only [ld1, CPHLDE, Nat.not_lt_zero, decide_false, Bool.false_eq_true, if_false, ite_self]
  have part : ld2 t.SIZE 0 = 0 := by
    simp only [ld2, CPHLDE, Nat.not_lt_zero, decide_false, Bool.false_eq_true, if_false, ite_self]
  rw [count, none, file, part]

theorem Fixable.count (h : Fixable t hdr) : count t hdr = Tload.count t hdr := by
  rw [Tfix.count, Tload.count, limits_eq, records_short h.loadable.range h.short]

theorem banked_eq (base : t.BASE < 256) : banked t = t := by
  rw [banked, Nat.mod_eq_of_lt base]

/-! ### The system image -/

/-- A call of `SPUTM` for a record. -/
def Puts (t : Tcb) (op : Op) : Prop := ∃ IBUF hl de, op = put t IBUF hl de ∧ op.Valid

theorem puts_put (full : IBUF.length = 512) {hl de : ℕ} (half : hl ≤ 256) (small : de < 65536) :
    Puts t (put t IBUF hl de) := by
  refine ⟨IBUF, hl, de, rfl, Nat.mod_lt _ (by decide), ⟨?_, small, by dsimp only; omega⟩, ?_, ?_⟩
  · exact (by decide : 256 < 65536)
  · exact (by decide : 256 ≤ 32768)
  · rw [List.length_take, List.length_drop, full]
    dsimp only
    omega

theorem past_lt (de : ℕ) : past de < 65536 := Nat.mod_lt _ (by decide)

theorem load_puts (sized : ∀ b IBUF, disk b = some IBUF → IBUF.length = 512) (bc blk de : ℕ) (out : List Op)
    (small : de < 65536) (puts : ∀ op ∈ out, Puts t op) : ∀ op ∈ (load disk t bc blk de out).2, Puts t op := by
  have more {IBUF : List UInt8} {hl de : ℕ} {out : List Op} (full : IBUF.length = 512) (half : hl ≤ 256)
      (small : de < 65536) (puts : ∀ op ∈ out, Puts t op) : ∀ op ∈ out ++ [put t IBUF hl de], Puts t op := by
    intro op member
    rcases List.mem_append.mp member with old | new
    · exact puts op old
    · rw [List.mem_singleton.mp new]
      exact puts_put full half small
  induction bc using Nat.twoStepInduction generalizing blk de out with
  | zero => exact puts
  | one =>
    rw [load]
    cases read : disk (NXTBL blk) with
    | none => exact puts
    | some IBUF => exact more (sized _ _ read) (Nat.zero_le _) small puts
  | more bc ih _ =>
    rw [load]
    cases read : disk (NXTBL blk) with
    | none => exact puts
    | some IBUF =>
      have full := sized _ _ read
      have both := more full (Nat.le_refl 256) (past_lt de) (more full (Nat.zero_le _) small puts)
      rw [List.append_assoc] at both
      exact ih _ _ _ (past_lt _) both

theorem TLOAD_puts (sized : ∀ b IBUF, disk b = some IBUF → IBUF.length = 512) :
    ∀ op ∈ (TLOAD disk t).2, Puts t op := by
  rw [TLOAD]
  cases read : disk t.SBLK with
  | none => exact fun _ member => absurd member List.not_mem_nil
  | some IBUF =>
    dsimp only
    split
    · refine load_puts sized _ _ _ _ (past_lt _) fun op member => ?_
      rw [List.mem_singleton.mp member]
      exact puts_put (sized _ _ read) (Nat.le_refl 256) t.strt
    · exact fun _ member => absurd member List.not_mem_nil

theorem runs_copied {ops : List Op} (puts : ∀ op ∈ ops, Puts t op) (m : Flat) :
    (m.runs ops).1 = copied m (stores ops) := by
  induction ops generalizing m with
  | nil => rfl
  | cons op ops ih =>
    obtain ⟨⟨IBUF, hl, de, rfl, -⟩, rest⟩ := List.forall_mem_cons.mp puts
    rw [stores, List.filterMap_cons_some (stored_put t IBUF hl de), ← stores, copied, List.foldl_cons, ← copied]
    refine (ih rest _).trans (congrArg (fun m => copied m (stores ops)) ?_)
    have dst := stored_put t IBUF hl de
    rw [put, stored] at dst
    rw [← Option.some.inj dst]
    rfl

/-- The image behind the calls. -/
theorem TLOAD_bytes (sized : Sized w) {g : Vmem.Bytes} {s : Sys} (h : s.Good g) :
    (Vmem.runs s (TLOAD w.disk t).2).1.flat = copied s.flat (stores (TLOAD w.disk t).2) := by
  have puts := TLOAD_puts (t := t) sized
  have valid : ∀ op ∈ (TLOAD w.disk t).2, op.Valid := by
    intro op member
    obtain ⟨-, -, -, -, valid⟩ := puts op member
    exact valid
  rw [← runs_copied puts]
  exact congrArg Prod.fst (Vmem.runs_spec h valid rfl).2

/-! ### The task -/

theorem copies_ldend (w : World) (out : List Copy) : (ldend w out).copies = out := by
  rw [ldend]
  split_ifs <;> rfl

/-- Both do the same when the counts and the bases are. -/
theorem TLOAD_copies (h : w.disk t.SBLK = some IBUF) (valid : CHKHDR (IBUF.take 256) = true)
    (base : banked t = t) (same : count t (IBUF.take 256) = Tload.count t (IBUF.take 256)) :
    (Tload.TLOAD w t).copies = stores (TLOAD w.disk t).2 := by
  have first : [MCOPY t IBUF 256 t.STRT] = stores [put t IBUF 256 t.STRT] := by
    have one : stores ([] ++ [put t IBUF 256 t.STRT]) = stores [] ++ [MCOPY (banked t) IBUF 256 t.STRT] :=
      stores_one [] 256 t.STRT
    rw [base] at one
    exact one.symm
  have number := Nat.succ.inj same
  have loads := load_eq w t ((ld2 t.SIZE (ld1 t.NBLK (records (IBUF.take 256))) + 65535) % 65536) t.SBLK
    (past t.STRT) [put t IBUF 256 t.STRT]
  rw [base, number] at loads
  have loader : Tload.TLOAD w t = Tload.load w t ((Tload.ld4 t.SIZE (Tload.ld1 t.NBLK
      (Tload.records (IBUF.take 256))) + 65535) % 65536) t.SBLK (past t.STRT) [MCOPY t IBUF 256 t.STRT] := by
    rw [Tload.TLOAD, h]
    dsimp only
    rw [if_pos valid]
    exact if_neg Bool.false_ne_true
  have fixes : TLOAD w.disk t = load w.disk t ((Tload.ld4 t.SIZE (Tload.ld1 t.NBLK
      (Tload.records (IBUF.take 256))) + 65535) % 65536) t.SBLK (past t.STRT) [put t IBUF 256 t.STRT] := by
    rw [TLOAD, h]
    dsimp only
    rw [if_pos valid, number]
  rw [loader, first, loads, fixes]
  generalize load w.disk t _ t.SBLK _ _ = r
  obtain ⟨done, ops⟩ := r
  cases done with
  | true => exact copies_ldend w _
  | false => rfl

theorem TLOAD_invalid (h : disk t.SBLK = some IBUF) (valid : CHKHDR (IBUF.take 256) = false) :
    TLOAD disk t = (false, []) := by
  rw [TLOAD, h]
  dsimp only
  rw [if_neg (by rw [valid]; exact Bool.false_ne_true)]

/-- With such a header both do what they should. -/
theorem Fixable.right (fixable : Fixable t (IBUF.take 256)) (h : w.disk t.SBLK = some IBUF)
    (valid : CHKHDR (IBUF.take 256) = true) : Right w t (IBUF.take 256) := by
  have base := banked_eq fixable.base
  have same := TLOAD_copies h valid base fixable.count
  have loads := fixable.loadable.right (Tload.TLOAD_ends h valid)
  refine ⟨same.symm, fun sized g s good => ?_, fun done => ?_, fun copies started => (loads.image _ started).1, ?_⟩
  · rw [same]
    exact TLOAD_bytes sized good
  · rcases TLOAD_ends h valid with ⟨-, all⟩ | ⟨fails, -⟩
    · rw [base, fixable.count] at all
      have right : Tload.Right ⟨w.disk, true, true⟩ t (IBUF.take 256) _ := fixable.loadable.right (Or.inl rfl)
      rw [all]
      exact right.image _ rfl
    · cases done.symm.trans fails
  · rw [← same]
    exact loads.inside

/-- A header with which all goes right. -/
theorem fixable_of_right (valid : CHKHDR (IBUF.take 256) = true)
    (right : ∀ w, w.disk t.SBLK = some IBUF → Right w t (IBUF.take 256)) : Fixable t (IBUF.take 256) := by
  have fine := Tload.blank_fine t.SBLK IBUF
  have h : (Tload.blank t.SBLK IBUF).disk t.SBLK = some IBUF := if_pos rfl
  have fixes := right _ h
  have ends := TLOAD_ends h valid
  have loads := Tload.TLOAD_ends h valid
  generalize Tload.blank t.SBLK IBUF = w at fine h fixes ends loads
  have started := loads.resolve_right fun failed => failed.1 fine
  obtain ⟨done, all⟩ := ends.resolve_right fun failed => failed.2.1.elim fine.disk
  obtain ⟨range, image⟩ := fixes.image done
  have same := fixes.same
  rw [started, Tload.Result.copies] at same
  have counts : count t (IBUF.take 256) = Tload.count t (IBUF.take 256) := by
    have lengths := congrArg List.length (all.symm.trans same)
    rwa [Tload.length_placed, Tload.length_placed] at lengths
  have wants : Tload.count t (IBUF.take 256) = wanted t (IBUF.take 256) := by
    have lengths := congrArg List.length (same.symm.trans image)
    rwa [Tload.length_placed, List.length_map, List.length_range] at lengths
  have loadable : Loadable t (IBUF.take 256) := by
    refine Tload.Right.loadable (w := w) ⟨fun copies hc => ⟨range, ?_⟩, ?_, ?_⟩
    · rw [← Tload.Result.started.inj hc, ← same]
      exact image
    · rw [Tload.Result.copies, ← same]
      exact fixes.inside
    · rw [Tload.Result.copies, Tload.length_placed, wants]
      exact (Nat.min_le_right _ _).trans (Nat.min_le_left _ _)
  refine ⟨loadable, ?_, ?_⟩
  · by_contra long
    have many := counts.symm.trans (count_long range (Nat.lt_of_not_le long))
    have few : wanted t (IBUF.take 256) ≤ (END (IBUF.take 256) + 1 - STRT (IBUF.take 256) + 255) / 256 :=
      Nat.min_le_left _ _
    have small : END (IBUF.take 256) < 65536 := Tload.word_lt _ _
    omega
  · -- the first record
    have first := all.symm.trans image
    obtain ⟨n, hn⟩ : ∃ n, count t (IBUF.take 256) = n + 1 := ⟨_, rfl⟩
    rw [← wants, ← counts, hn] at first
    have dst := congrArg Copy.dst (List.map_inj_left.mp first 0 (List.mem_range.mpr (Nat.succ_pos n)))
    have address : 4096 * (t.BASE % 256) + (t.STRT + 256 * 0) % 65536 = 4096 * t.BASE + (t.STRT + 256 * 0) := dst
    have strt := t.strt
    omega

/-- The task is fixed as it is loaded, whatever fails, if and only if the header fits. -/
theorem fixes_iff (t : Tcb) (IBUF : List UInt8) : (∀ w, w.disk t.SBLK = some IBUF → Right w t (IBUF.take 256)) ↔
    (CHKHDR (IBUF.take 256) = true → Fixable t (IBUF.take 256)) := by
  constructor
  · exact fun right valid => fixable_of_right valid right
  · intro fixable w h
    cases valid : CHKHDR (IBUF.take 256) with
    | true => exact (fixable valid).right h valid
    | false =>
      have none := TLOAD_invalid h valid
      have loader := Tload.TLOAD_invalid h valid
      refine ⟨?_, fun _ g s good => ?_, fun done => ?_, fun copies started => ?_, fun c hc => ?_⟩
      · rw [none, loader]
        rfl
      · rw [none, loader]
        rfl
      · rw [none] at done
        cases done
      · rw [loader] at started
        cases started
      · rw [none] at hc
        cases hc

end

/-- A header with `TH.END` 255 bytes behind `TH.STRT`. -/
def recordHeader : List UInt8 := byteHeader.take 0x2A ++ [255] ++ List.replicate 213 0

/-- A record is fixed. -/
theorem fixes_record : Right (blank 0 recordHeader) byteTask (recordHeader.take 256) := by
  refine (fixes_iff byteTask recordHeader).mpr (fun _ => ?_) (blank 0 recordHeader) rfl
  exact ⟨⟨by decide, by decide, by decide, by decide, by decide, by decide⟩, by decide, by decide⟩

/-- A task of 65300 bytes in a file with one record. -/
def longHeader : List UInt8 := byteHeader.take 0x2A ++ [0x14, 0xFF] ++ List.replicate 212 0

/-- The loader stores one record, and the virtual MCR 65536. -/
theorem long_not_fixed : ¬∀ (t : Tcb) (IBUF : List UInt8) (w : World), w.disk t.SBLK = some IBUF →
    CHKHDR (IBUF.take 256) = true → Right w t (IBUF.take 256) := by
  intro h
  have fixable : Fixable byteTask (longHeader.take 256) := fixable_of_right rfl fun w hw => h byteTask longHeader w hw rfl
  exact absurd fixable.short (by decide)

end RSX280.Tfix
