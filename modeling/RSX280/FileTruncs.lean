import RSX280.FileMaps
import RSX280.FreeCountRuns

/-!
# Truncated files (`FTRUNC`)

`FTRUNC` is there for contiguous files. It keeps the clusters with a block before the new end and
gives up the others, so that what is before the new end is found where it was
(`ftrunc_contiguous`). The number of blocks allocated is counted in blocks, here as for `FMAKE` and
`FEXTND`, and need not fill the last cluster.
-/

namespace RSX280.Fileio

open Bitmap (bk2cl)

/-! ## Clusters -/

/-- The clusters that `k` blocks need -/
theorem lt_bk2clUp {k clf : ℕ} (hk : k < 16777216) (i : ℕ) :
    i < bk2clUp k clf ↔ i * 2 ^ clf < k := by
  have hpos : 0 < 2 ^ clf := Nat.two_pow_pos clf
  have hdiv : bk2cl k clf * 2 ^ clf + k % 2 ^ clf = k := by
    rw [bk2cl_eq]
    exact Nat.div_add_mod' k (2 ^ clf)
  rw [bk2clUp, rem]
  split
  · next h₀ =>
    rw [h₀, Nat.add_zero] at hdiv
    rw [← Nat.mul_lt_mul_right hpos, hdiv]
  · next h₀ =>
    have hlt : bk2cl k clf + 1 < 16777216 := by
      have hclf : clf ≠ 0 := fun hc => h₀ (by rw [hc, pow_zero, Nat.mod_one])
      have h₂ : 2 ≤ 2 ^ clf := Nat.le_self_pow hclf 2
      have h₃ : bk2cl k clf * 2 ≤ k := (Nat.mul_le_mul_left _ h₂).trans (by omega)
      omega
    rw [inc24, Nat.mod_eq_of_lt hlt, Nat.lt_succ_iff]
    constructor
    · intro hi
      have := Nat.mul_le_mul_right (2 ^ clf) hi
      omega
    · intro hi
      rw [bk2cl_eq, Nat.le_div_iff_mul_le hpos]
      exact hi.le

theorem bk2clUp_mono {j k clf : ℕ} (hk : k < 16777216) (h : j ≤ k) :
    bk2clUp j clf ≤ bk2clUp k clf := by
  by_contra hn
  have h₁ := (lt_bk2clUp (by omega) _).mp (Nat.lt_of_not_le hn)
  exact Nat.lt_irrefl _ ((lt_bk2clUp hk _).mpr (h₁.trans_le h))

/-! ## Contiguous files -/

namespace Fcb

/-- The number of bytes of a file -/
def size (f : Fcb) : ℕ := if f.nused = 0 then 0 else 512 * (f.nused - 1) + f.lbcnt

/-- The number behind the last cluster of the file -/
def clend (v : Volume) (f : Fcb) : ℕ := bk2cl (f.bmap 0) v.clf + bk2clUp f.naloc v.clf

/-- A contiguous file that starts with a cluster and is within the volume -/
structure Extent (v : Volume) (f : Fcb) : Prop where
  ctg : f.ctg = true
  blks : v.blks < 16777216
  /-- cluster 0 has the boot block -/
  boot : bk2cl (f.bmap 0) v.clf ≠ 0
  /-- the remainder that `BK2CL` returns is a byte -/
  clf : v.clf ≤ 8
  start : rem (f.bmap 0) v.clf = 0
  fits : f.clend v ≤ v.clusters
  naloc : f.naloc < 16777216
  nused : f.nused ≤ f.naloc
  lbcnt : f.lbcnt ≤ 512

/-- Cluster `n` has one of the first `k` blocks of the file. -/
def Holds (v : Volume) (f : Fcb) (k n : ℕ) : Prop :=
  ∃ vbn, vbn < k ∧ bk2cl (f.bmap 0 + vbn) v.clf = n

/-- The cluster is wholly beyond a new end of `top` blocks. -/
def Beyond (v : Volume) (f : Fcb) (top n : ℕ) : Prop := f.Holds v f.naloc n ∧ ¬f.Holds v top n

variable {v : Volume} {f : Fcb}

theorem holds_iff (h : rem (f.bmap 0) v.clf = 0) {k : ℕ} (hk : k < 16777216) (n : ℕ) :
    f.Holds v k n ↔ bk2cl (f.bmap 0) v.clf ≤ n ∧
      n < bk2cl (f.bmap 0) v.clf + bk2clUp k v.clf := by
  have hpos : 0 < 2 ^ v.clf := Nat.two_pow_pos v.clf
  have hadd (vbn : ℕ) : bk2cl (f.bmap 0 + vbn) v.clf = bk2cl (f.bmap 0) v.clf + vbn / 2 ^ v.clf := by
    rw [bk2cl_eq, bk2cl_eq, Nat.add_div_of_dvd_right (Nat.dvd_of_mod_eq_zero h)]
  constructor
  · rintro ⟨vbn, hvbn, rfl⟩
    rw [hadd]
    have hlt := (lt_bk2clUp hk (vbn / 2 ^ v.clf)).mpr
      ((Nat.div_mul_le_self vbn (2 ^ v.clf)).trans_lt hvbn)
    exact ⟨Nat.le_add_right _ _, Nat.add_lt_add_left hlt _⟩
  · rintro ⟨h₁, h₂⟩
    -- the first block of the cluster is one of them
    obtain ⟨i, rfl⟩ := Nat.exists_eq_add_of_le h₁
    refine ⟨i * 2 ^ v.clf, (lt_bk2clUp hk i).mp (by omega), ?_⟩
    rw [hadd, Nat.mul_div_cancel _ hpos]

theorem beyond_iff (h : f.Extent v) {top : ℕ} (ht : top ≤ f.naloc) (n : ℕ) :
    f.Beyond v top n ↔ bk2cl (f.bmap 0) v.clf + bk2clUp top v.clf ≤ n ∧ n < f.clend v := by
  rw [Beyond, holds_iff h.start h.naloc, holds_iff h.start (ht.trans_lt h.naloc), clend]
  omega

/-- What is read of a contiguous file within its end -/
theorem fread_contiguous (hc : f.ctg = true) (hr : f.rd = true) {vbn offset len : ℕ}
    (hv : vbn + 1 < 16777216) (hn : vbn + 1 ≤ f.nused) (hl : len ≠ 0)
    (hs : offset + len ≤ if vbn + 1 = f.nused then f.lbcnt else 512) (hb : offset + len ≤ 512) :
    (f.fread v vbn offset len).1 = .ok ((v.disk (add24 (f.bmap 0) vbn)).fetch offset len) := by
  rw [fread, if_neg hl, if_neg (by simp [hr])]
  dsimp only
  rw [inc24, Nat.mod_eq_of_lt hv, if_neg (by omega)]
  generalize (if vbn + 1 = f.nused then f.lbcnt else 512) = size at hs ⊢
  rw [if_neg (by omega), v2lbn1, if_pos hc]
  dsimp only
  rw [trim, if_neg (by omega)]

/-- The clusters that are given up are those beyond the new end, when the upper byte of the first
one is zero, and the upper byte of their number too. -/
theorem mem_ftrn3 (h : f.Extent v) (hlow : f.clend v ≤ 65536) {top : ℕ} (ht : top ≤ f.naloc)
    (n : ℕ) : n ∈ ftrn3 v.clf f top ↔ f.Beyond v top n := by
  have hup : bk2clUp top v.clf ≤ bk2clUp f.naloc v.clf := bk2clUp_mono h.naloc ht
  have hboot := h.boot
  rw [beyond_iff h ht]
  rw [clend] at hlow ⊢
  rw [ftrn3, sub24, add24]
  generalize bk2cl (f.bmap 0) v.clf = c at hlow hboot ⊢
  generalize bk2clUp f.naloc v.clf = a at hlow hup ⊢
  generalize bk2clUp top v.clf = b at hup ⊢
  have hcount : (a + 16777216 - b) % 16777216 = a - b := by
    rw [Nat.sub_add_comm hup, Nat.add_mod_right, Nat.mod_eq_of_lt (by omega)]
  have hfirst : (a - b) / 65536 * 65536 + (c + b) % 16777216 % 65536 = (c + b) % 65536 := by
    rw [Nat.div_eq_of_lt (by omega), Nat.zero_mul, Nat.zero_add, Nat.mod_mod_of_dvd _ (by decide)]
  rw [hcount, hfirst]
  rcases Nat.eq_zero_or_pos (a - b) with h₀ | h₀
  · rw [h₀, fdl3]
    exact iff_of_false List.not_mem_nil (by omega)
  · rw [Nat.mod_eq_of_lt (by omega), mem_fdl3 (by omega)]
    omega

/-- What a file is cut down to: `top` blocks, those of them that have data as before -/
structure Truncated (v : Volume) (f : Fcb) (bhl de top : ℕ) (v' : Volume) (f' : Fcb) : Prop where
  nused : f'.nused = top
  naloc : f'.naloc = top
  disk : v'.disk = v.disk
  inode : (v'.inodes f.inode).used = top ∧ (v'.inodes f.inode).aloc = top
  others : ∀ i, i ≠ f.inode → v'.inodes i = v.inodes i
  /-- what is before the new end, as far as `F.LBCNT` lets it be read -/
  reads : ∀ vbn offset len, 512 * vbn + offset + len ≤ 512 * bhl + de → offset + len ≤ 512 →
    (vbn + 1 = top → offset + len ≤ f'.lbcnt) →
    (f'.fread v' vbn offset len).1 = (f.fread v vbn offset len).1

theorem truncated (h : f.Extent v) {bhl de top : ℕ} (ht : top ≤ f.nused)
    (hn : 512 * bhl + de ≤ 512 * top) (hend : 512 * bhl + de ≤ f.size) {v' : Volume} {f' : Fcb}
    (hd : v'.disk = v.disk) (hi : v'.inodes = v.inodes)
    (hf : f' = { f with naloc := top, nused := top, lbcnt := f'.lbcnt, modf := true }) :
    Truncated v f bhl de top (v'.updino f') f' := by
  have hino : f'.inode = f.inode := by rw [hf]
  have hnus : f'.nused = top := by rw [hf]
  have hnal : f'.naloc = top := by rw [hf]
  have hup : (v'.updino f').inodes f.inode = { v'.inodes f.inode with
      bmap := f'.bmap, aloc := f'.naloc, used := f'.nused, lbcn := f'.lbcnt
      user := f'.user, grp := f'.group, prot := f'.prot } := by
    rw [Volume.updino, hino]
    exact Function.update_self ..
  refine ⟨hnus, hnal, hd, ?_, fun i hne => ?_, fun vbn offset len hb hs hlb => ?_⟩
  · rw [hup]
    exact ⟨hnus, hnal⟩
  · rw [Volume.updino, hino]
    exact (Function.update_of_ne hne _ _).trans (congrFun hi i)
  · have hctg : f'.ctg = true := by rw [hf]; exact h.ctg
    have hrd : f'.rd = f.rd := by rw [hf]
    by_cases hl : len = 0
    · rw [fread, fread, if_pos hl, if_pos hl]
    by_cases hr : f.rd
    · have hnaloc := h.naloc
      have hnused := h.nused
      have hv : vbn + 1 ≤ top := by omega
      rw [fread_contiguous h.ctg hr (by omega) (by omega) hl ?_ hs,
        fread_contiguous hctg (hrd.trans hr) (by omega) (by omega) hl ?_ hs]
      · rw [show (v'.updino f').disk = v'.disk from rfl, hd, show f'.bmap = f.bmap by rw [hf]]
      · rw [hnus]
        split
        · next he => exact hlb he
        · exact hs
      · split
        · next he =>
          -- the last block before is within the old end
          rw [size, if_neg (by omega), ← he] at hend
          omega
        · exact hs
    · rw [fread, fread, if_neg hl, if_neg hl, 
        if_pos (by rw [hrd]; exact hr), if_pos hr]

end Fcb

/-- `FTRUNC` refuses a file that is not contiguous. A contiguous file is cut down to the blocks up
to a new end that is not beyond the old one, of which as many stay allocated. With the clusters of
the file below 65536 it is those wholly beyond the new end that are free then. -/
theorem ftrunc_contiguous (v : Volume) (f : Fcb) (bhl de : ℕ) :
    (f.ctg = false → ftrunc v f bhl de = (.error .badop, f, v)) ∧
    (f.Extent v → de ≤ 512 → 512 * bhl + de ≤ f.size → ∃ f' v',
      ftrunc v f bhl de = (.ok (), f', v') ∧ f.Truncated v bhl de (ftop bhl de) v' f' ∧
      (ftop bhl de = f.naloc → f'.lbcnt = de) ∧
      (f.clend v ≤ 65536 → ∀ n, v'.bm.used n = true ↔
        v.bm.used n = true ∧ ¬f.Beyond v (ftop bhl de) n)) := by
  refine ⟨fun hc => ?_, fun h hde hend => ?_⟩
  · rw [ftrunc]
    dsimp only
    rw [if_pos (by simp [hc])]
  · have hnused := h.nused
    have hnaloc := h.naloc
    have hlbcnt := h.lbcnt
    -- the new number of blocks, and what it says of the new end
    obtain ⟨ht, hn⟩ : ftop bhl de ≤ f.nused ∧ 512 * bhl + de ≤ 512 * ftop bhl de := by
      rw [Fcb.size] at hend
      rw [ftop]
      split
      · split at hend
        · omega
        · omega
      · split at hend
        · omega
        · rw [inc24, Nat.mod_eq_of_lt (by omega)]
          omega
    -- at the end of what is allocated, the byte count is within the old one
    have hlast : ftop bhl de = f.naloc → min f.lbcnt de = de := by
      rw [Fcb.size] at hend
      rw [ftop]
      intro he
      split at he
      · omega
      · split at hend
        · omega
        · rw [inc24, Nat.mod_eq_of_lt (by omega)] at he
          omega
    rw [ftrunc]
    generalize ftop bhl de = top at ht hn hlast ⊢
    rw [if_neg (by simp [h.ctg])]
    by_cases he : f.naloc = top
    · rw [if_pos he]
      refine ⟨_, _, rfl, Fcb.truncated h ht hn hend rfl rfl ?_, fun _ => hlast he.symm, fun _ n => ?_⟩
      · have hu : f.nused = top := by omega
        subst he
        rw [← hu]
      · refine (and_iff_left ?_).symm
        rw [Fcb.beyond_iff h (by omega), Fcb.clend, he]
        omega
    · rw [if_neg he, if_neg (by omega)]
      refine ⟨_, _, rfl, Fcb.truncated h ht hn hend (Volume.disk_freecls ..)
        (Volume.inodes_freecls ..) ?_, fun h => absurd h.symm he, fun hlow n => ?_⟩
      · rw [Nat.min_eq_right ht]
      · have hmem (m : ℕ) : m ∈ ftrn3 v.clf f top ↔ f.Beyond v top m :=
          Fcb.mem_ftrn3 h hlow (by omega) m
        have hin : n < v.clusters ∧ n ∈ ftrn3 v.clf f top ↔ f.Beyond v top n := by
          rw [hmem]
          refine and_iff_right_of_imp fun hb => ?_
          exact ((Fcb.beyond_iff h (by omega) n).mp hb).2.trans_le h.fits
        rw [Volume.toVcb_updino, Volume.used_freecls, hin]

/-- A volume of eight clusters with two blocks each, the first four of them in use -/
def pack : Volume where
  blks := 16
  clf := 1
  free := 4
  bm := fun _ hl => if hl = Bitmap.bmhsz then 0xF0 else 0
  disk := fun _ _ => 0
  inodes := fun _ => ⟨1, true, 0, 0, 0, 4, 4, 512, fun _ => 4⟩

/-- A file of four blocks, in clusters 2 and 3 -/
def report : Fcb := ⟨true, true, true, false, 0, 0, 0, 1, 4, 4, 512, fun _ => 4, 0, 0⟩

theorem report_extent : report.Extent pack :=
  ⟨rfl, by decide, by decide, by decide, by decide, by decide, by decide, by decide, by decide⟩

/-- Cut down to 100 bytes, the file keeps cluster 2. -/
theorem ftrunc_contiguous_report : ∃ f' v', ftrunc pack report 0 100 = (.ok (), f', v') ∧
    report.Truncated pack 0 100 1 v' f' ∧
    ∀ n, v'.bm.used n = true ↔ pack.bm.used n = true ∧ ¬report.Beyond pack 1 n := by
  obtain ⟨f', v', h, ht, -, hu⟩ :=
    (ftrunc_contiguous pack report 0 100).2 report_extent (by decide) (by decide)
  exact ⟨f', v', h, ht, hu (by decide)⟩

/-- Of the two blocks of that cluster, one stays allocated. -/
theorem naloc_within_cluster : (ftrunc pack report 0 100).2.1.naloc = 1 ∧
    ¬∀ (v : Volume) (f : Fcb) (bhl de : ℕ), f.Extent v → de ≤ 512 → 512 * bhl + de ≤ f.size →
      (ftrunc v f bhl de).1 = .ok () →
      (ftrunc v f bhl de).2.1.naloc = cl2bk (bk2clUp (ftop bhl de) v.clf) v.clf := by
  refine ⟨by decide, fun h => ?_⟩
  have hn := h pack report 0 100 report_extent (by decide) (by decide) rfl
  exact absurd hn (by decide)

end RSX280.Fileio
