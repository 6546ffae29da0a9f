import RSX280.Fileio

/-!
# The clusters of a file that is deleted or truncated

`FDEL` walks through the block map of the file and calls `FREECL` for each cluster, then for
each allocation block. `FTRUNC` does so for the end of a contiguous file. The definitions here
list the clusters in the order of the calls.
-/

namespace RSX280.Fileio

open Bitmap (bk2cl)

/-! ## `FDEL` -/

/-- Clusters that follow each other (`fdl3`, `ftrn3`) -/
def fdl3 (bhl : ℕ) : ℕ → List ℕ
  | 0 => []
  | cde + 1 => bhl :: fdl3 (inc24 bhl) cde

theorem fdl3_zero (s : ℕ) : fdl3 s 0 = [] := rfl

theorem fdl3_succ (s k : ℕ) : fdl3 s (k + 1) = s :: fdl3 (inc24 s) k := rfl

theorem mem_fdl3 {s k n : ℕ} (h : s + k ≤ 16777216) : n ∈ fdl3 s k ↔ s ≤ n ∧ n < s + k := by
  induction k generalizing s with
  | zero =>
    rw [fdl3_zero]
    exact iff_of_false List.not_mem_nil (by omega)
  | succ k ih =>
    rw [fdl3_succ, List.mem_cons]
    rcases Nat.eq_zero_or_pos k with rfl | hk
    · rw [fdl3_zero]
      constructor
      · rintro (rfl | hn)
        · omega
        · exact absurd hn List.not_mem_nil
      · exact fun hn => .inl (by omega)
    · rw [inc24, Nat.mod_eq_of_lt (by omega), ih (by omega)]
      omega

/-- The cluster of an entry of the map, unless there is none -/
def entry (lbn clf : ℕ) : List ℕ := if lbn = 0 then [] else [bk2cl lbn clf]

/-- The clusters in the index file entry (`fdl40`), from number `i` on, when `b` entries and
`cde` clusters are left. The loop is left early when there are no more clusters. -/
def fdl40 (clf : ℕ) (bmap : ℕ → ℕ) (i : ℕ) : ℕ → ℕ → List ℕ × Option ℕ
  | 0, cde => ([], some cde)
  | b + 1, cde =>
    if cde = 0 then ([], none)
    else
      let r := fdl40 clf bmap (i + 1) b (cde - 1)
      (entry (bmap i) clf ++ r.1, r.2)

/-- The clusters in an allocation block (`fdl6`), from number `i` on, when `b` entries are
left. The count goes down through zero; it is the upper byte that ends the loop. -/
def fdl6 (clf : ℕ) (blk : Block) (i : ℕ) : ℕ → ℕ → List ℕ × ℕ
  | 0, cblks => ([], cblks)
  | b + 1, cblks =>
    if cblks = 65536 then (entry (blk.get (6 + 3 * i)) clf, cblks)
    else
      let r := fdl6 clf blk (i + 1) b (dec24 cblks)
      (entry (blk.get (6 + 3 * i)) clf ++ r.1, r.2)

/-- The chain of allocation blocks (`fdl5`), as far as `n` of them -/
def fdl5 (clf : ℕ) (disk : ℕ → Block) : ℕ → ℕ → ℕ → Option (List ℕ)
  | 0, _, _ => none
  | n + 1, bhl, cde =>
    if cde = 0 then some (entry bhl clf)
    else if bhl = 0 then some []
    else
      let r := fdl6 clf (disk bhl) 0 168 cde
      (fdl5 clf disk n ((disk bhl).get 3) r.2).map (r.1 ++ bk2cl bhl clf :: ·)

/-- All clusters of a file (`fdl2` to `fdl9`) -/
def fdl2 (n : ℕ) (v : Volume) (ino : Inode) : Option (List ℕ) :=
  let cde := bk2clUp ino.aloc v.clf
  if ino.ctg then some (fdl3 (bk2cl (ino.bmap 0) v.clf) cde)
  else
    match fdl40 v.clf ino.bmap 0 5 cde with
    | (l, none) => some l
    | (l, some cde) => (fdl5 v.clf v.disk n (ino.bmap 5) cde).map (l ++ ·)

/-! ## `FTRUNC` -/

/-- The new number of blocks -/
def ftop (bhl de : ℕ) : ℕ := if de = 0 then bhl else inc24 bhl

/-- The clusters from the new end on. The upper byte of the first one is lost when the number of
them is popped into `BC`. -/
def ftrn3 (clf : ℕ) (f : Fcb) (top : ℕ) : List ℕ :=
  let count := sub24 (bk2clUp f.naloc clf) (bk2clUp top clf)
  let first := add24 (bk2cl (f.bmap 0) clf) (bk2clUp top clf)
  fdl3 (count / 65536 * 65536 + first % 65536) count

/-- The clusters that `FTRUNC` releases -/
def ftrn (clf : ℕ) (f : Fcb) (bhl de : ℕ) : List ℕ :=
  if f.ctg ∧ ftop bhl de < f.naloc then ftrn3 clf f (ftop bhl de) else []

/-- `FTRUNC`: truncate a file to block `bhl` and `de` bytes of it. What is stored in `F.LBCNT`
when blocks are released is the old `F.NUSED`. -/
def ftrunc (v : Volume) (f : Fcb) (bhl de : ℕ) : Except Err Unit × Fcb × Volume :=
  let top := ftop bhl de
  if ¬f.ctg then (.error .badop, f, v)
  else if f.naloc = top then
    let f := { f with lbcnt := min f.lbcnt de, modf := true }
    (.ok (), f, v.updino f)
  else if f.naloc < top then (.ok (), f, v)
  else
    let v := v.freecls (ftrn3 v.clf f top)
    let f := { f with naloc := top, nused := min f.nused top, lbcnt := f.nused % 65536, modf := true }
    (.ok (), f, v.updino f)

/-- The index file apart, `FTRUNC` changes nothing else on the volume. -/
theorem toVcb_ftrunc (v : Volume) (f : Fcb) (bhl de : ℕ) :
    (ftrunc v f bhl de).2.2.toVcb = (v.freecls (ftrn v.clf f bhl de)).toVcb := by
  rw [ftrunc, ftrn]
  by_cases hctg : f.ctg
  · rw [if_neg (not_not.mpr hctg)]
    rcases Nat.lt_trichotomy (ftop bhl de) f.naloc with h | h | h
    · rw [if_neg (by omega), if_neg (by omega), if_pos ⟨hctg, h⟩, Volume.toVcb_updino]
    · rw [if_pos h.symm, if_neg (by omega), Volume.toVcb_updino, Volume.freecls, List.foldl_nil]
    · rw [if_neg (by omega), if_pos h, if_neg (by omega), Volume.freecls, List.foldl_nil]
  · rw [if_pos hctg, if_neg fun h => hctg h.1, Volume.freecls, List.foldl_nil]

end RSX280.Fileio
