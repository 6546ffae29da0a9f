import RSX280.FreeCount

/-!
# Runs of a mounted volume

A run (`Run`) goes through allocations, releases, deletions and truncations in any order. The
count is exact in each state of it, and for each release, just when there are no unset bits
behind the last cluster and the operations release what is in use (`exact_iff_careful`).
-/

namespace RSX280.Fileio

open Bitmap (Padded Marks Clears bmhsz)
open Count (zeros)

/-! ## Releases -/

namespace Volume

variable {v : Volume}

theorem freecl_of_lt {n : ℕ} (h : n < v.clusters) : v.freecl n =
    { v with free := (v.free + 1) % 16777216, bm := Bitmap.bmfree v.bm n } := by
  rw [freecl, Bitmap.Vcb.freecl, if_pos h]

theorem freecl_of_le {n : ℕ} (h : v.clusters ≤ n) : v.freecl n = v := by
  rw [freecl, Bitmap.Vcb.freecl, if_neg (by omega)]

@[simp] theorem blks_freecl (v : Volume) (n : ℕ) : (v.freecl n).blks = v.blks := by
  rw [freecl, Bitmap.Vcb.freecl]
  split <;> rfl

@[simp] theorem clusters_freecl (v : Volume) (n : ℕ) : (v.freecl n).clusters = v.clusters := by
  rw [freecl, Bitmap.Vcb.freecl]
  split <;> rfl

theorem used_freecl (v : Volume) (c n : ℕ) : (v.freecl c).bm.used n = true ↔
    v.bm.used n = true ∧ ¬(n < v.clusters ∧ n = c) := by
  by_cases hc : c < v.clusters
  · rw [freecl_of_lt hc, show (_ : Volume).bm = Bitmap.bmfree v.bm c from rfl, Bitmap.used_bmfree,
      Bool.and_eq_true, decide_eq_true_iff, and_comm]
    refine and_congr_right fun _ => ?_
    constructor
    · exact fun hne h => hne h.2
    · rintro h rfl
      exact h ⟨hc, rfl⟩
  · rw [freecl_of_le (by omega)]
    refine (and_iff_left ?_).symm
    rintro ⟨hn, rfl⟩
    exact hc hn

/-- The clusters of the volume that are freed are free, and the others are as before. -/
theorem used_freecls {l : List ℕ} {v : Volume} (n : ℕ) : (v.freecls l).bm.used n = true ↔
    v.bm.used n = true ∧ ¬(n < v.clusters ∧ n ∈ l) := by
  induction l generalizing v with
  | nil => exact (and_iff_left fun h => List.not_mem_nil h.2).symm
  | cons c l ih =>
    rw [freecls, List.foldl_cons, show l.foldl freecl (v.freecl c) = (v.freecl c).freecls l from rfl,
      ih, used_freecl, clusters_freecl, and_assoc, ← not_or, ← and_or_left, List.mem_cons]

theorem disk_freecls (l : List ℕ) (v : Volume) : (v.freecls l).disk = v.disk := by
  induction l generalizing v with
  | nil => rfl
  | cons c l ih => exact ih (v.freecl c)

theorem inodes_freecls (l : List ℕ) (v : Volume) : (v.freecls l).inodes = v.inodes := by
  induction l generalizing v with
  | nil => rfl
  | cons c l ih => exact ih (v.freecl c)

theorem clusters_lt (hv : v.blks < 16777216) : v.clusters < 16777216 :=
  lt_of_le_of_lt (Nat.shiftRight_le _ _) hv

theorem Owned.cons_of_le {n : ℕ} {l : List ℕ} (h : v.clusters ≤ n) :
    v.Owned (n :: l) ↔ v.Owned l := by
  have hfilter : (n :: l).filter (· < v.clusters) = l.filter (· < v.clusters) :=
    List.filter_cons_of_neg (by simpa using h)
  constructor
  · exact fun ⟨h₁, h₂⟩ => ⟨hfilter ▸ h₁, fun m hm => h₂ m (List.mem_cons_of_mem n hm)⟩
  · refine fun ⟨h₁, h₂⟩ => ⟨hfilter ▸ h₁, fun m hm hlt => ?_⟩
    rcases List.mem_cons.mp hm with rfl | hm
    · exact absurd hlt (by omega)
    · exact h₂ m hm hlt

theorem Owned.cons_of_used {n : ℕ} {l : List ℕ} (h : n < v.clusters) (hn : v.bm.used n = true) :
    v.Owned (n :: l) ↔ (v.freecl n).Owned l := by
  have hfilter : (n :: l).filter (· < v.clusters) = n :: l.filter (· < v.clusters) :=
    List.filter_cons_of_pos (by simpa using h)
  have hused : ∀ m, (v.freecl n).bm.used m = (decide (m ≠ n) && v.bm.used m) := fun m => by
    rw [freecl_of_lt h]
    exact Bitmap.used_bmfree v.bm n m
  have hmem : n ∈ l.filter (· < v.clusters) ↔ n ∈ l := by simpa using fun _ => h
  constructor
  · rintro ⟨h₁, h₂⟩
    rw [hfilter, List.nodup_cons, hmem] at h₁
    refine ⟨by rw [clusters_freecl]; exact h₁.2, fun m hm hlt => ?_⟩
    rw [clusters_freecl] at hlt
    rw [hused, h₂ m (List.mem_cons_of_mem n hm) hlt, Bool.and_true]
    exact decide_eq_true fun heq => h₁.1 (heq ▸ hm)
  · rintro ⟨h₁, h₂⟩
    rw [clusters_freecl] at h₁
    have hother : ∀ m ∈ l, m < v.clusters → m ≠ n ∧ v.bm.used m = true := fun m hm hlt => by
      have h₃ := h₂ m hm (by rwa [clusters_freecl])
      rw [hused, Bool.and_eq_true, decide_eq_true_iff] at h₃
      exact h₃
    refine ⟨?_, fun m hm hlt => ?_⟩
    · rw [hfilter, List.nodup_cons, hmem]
      exact ⟨fun hm => (hother n hm h).1 rfl, h₁⟩
    · rcases List.mem_cons.mp hm with rfl | hm
      · exact hn
      · exact (hother m hm hlt).2

/-- The count goes up with a release that is due. -/
theorem Counted.freecl (hc : v.Counted) (hv : v.blks < 16777216) {n : ℕ} (hn : v.InUse n) :
    (v.freecl n).free = v.free + 1 ∧ (v.freecl n).Counted := by
  have hone := Count.zeros_clear (Bitmap.used_bmfree v.bm n) hn.2 hn.1
  have hle := Count.zeros_le (Bitmap.bmfree v.bm n).used 0 v.clusters
  have hlt := clusters_lt hv
  have hfree : (v.free + 1) % 16777216 = v.free + 1 := by
    rw [Counted] at hc
    omega
  rw [freecl_of_lt hn.1]
  refine ⟨hfree, hfree.trans ?_⟩
  rw [hc, ← hone]
  rfl

/-- No unset bit appears behind the last cluster. -/
theorem padded_freecl (n : ℕ) (h : Padded v.bm v.clusters) :
    Padded (v.freecl n).bm (v.freecl n).clusters := by
  rw [clusters_freecl]
  by_cases hlt : n < v.clusters
  · rw [freecl_of_lt hlt]
    rw [Padded, if_neg (by omega)] at h ⊢
    intro i h₁ h₂
    rw [Bitmap.used_bmfree, h i h₁ h₂, decide_eq_true (by omega), Bool.and_true]
  · rwa [freecl_of_le (by omega)]

/-- What holds between two operations -/
structure Sound (v : Volume) : Prop where
  blks : v.blks < 16777216
  padded : Padded v.bm v.clusters
  counted : v.Counted

theorem Sound.freecls {l : List ℕ} (h : v.Sound) (ho : v.Owned l) : (v.freecls l).Sound := by
  induction l generalizing v with
  | nil => exact h
  | cons n l ih =>
    rw [Volume.freecls, List.foldl_cons]
    by_cases hlt : n < v.clusters
    · have hn := ho.used n List.mem_cons_self hlt
      refine ih ⟨?_, padded_freecl n h.padded, ?_⟩ ((Owned.cons_of_used hlt hn).mp ho)
      · rw [blks_freecl]
        exact h.blks
      · exact (h.counted.freecl h.blks ⟨hlt, hn⟩).2
    · rw [freecl_of_le (by omega)]
      exact ih h ((Owned.cons_of_le (by omega)).mp ho)

/-! ## Allocations -/

section Empty

open Bitmap (Chain bmc2 bmc3 bmc4 bmcntg)

/-- A chain of no bits is never complete. -/
theorem bmc4_zero (a : UInt8) (vbn hl : ℕ) : ∀ n p c, (bmc4 0 a vbn hl p n c).2 = false := by
  intro n
  induction n with
  | zero => exact fun _ _ => rfl
  | succ n ih =>
    intro p c
    rw [bmc4]
    split
    · have hcount : (c.bmc9 vbn hl p).bitcnt ≠ 0 := Nat.succ_ne_zero _
      dsimp only
      rw [if_neg hcount]
      exact ih (p + 1) _
    · exact ih (p + 1) _

theorem bmc3_zero (blk : ℕ → UInt8) (vbn : ℕ) : ∀ n hl c, (bmc3 0 blk vbn hl n c).2 = false := by
  intro n
  induction n with
  | zero => exact fun _ _ => rfl
  | succ n ih =>
    intro hl c
    rw [bmc3]
    split
    · exact ih (hl + 1) _
    · have hbyte := bmc4_zero (blk hl) vbn hl 8 0 c
      generalize bmc4 0 (blk hl) vbn hl 0 8 c = r at hbyte
      obtain ⟨c', b⟩ := r
      obtain rfl : b = false := hbyte
      exact ih (hl + 1) c'

theorem bmc2_zero (bm : Bitmap.Blocks) : ∀ n vbn offset len bmlen c,
    bmc2 bm 0 n vbn offset len bmlen c = none := by
  intro n
  induction n with
  | zero => exact fun _ _ _ _ _ => rfl
  | succ n ih =>
    intro vbn offset len bmlen c
    have hblock := bmc3_zero (bm vbn) vbn (Bitmap.passes len) offset c
    rw [bmc2]
    generalize bmc3 0 (bm vbn) vbn offset (Bitmap.passes len) c = r at hblock
    obtain ⟨c', b⟩ := r
    obtain rfl : b = false := hblock
    dsimp only
    split
    · rfl
    · exact ih _ _ _ _ c'

theorem allctg_zero (v : Bitmap.Vcb) : v.allctg 0 = (.error .ncspc, v) := by
  rw [Bitmap.Vcb.allctg, if_neg (by decide), bmcntg, bmc2_zero]

end Empty

theorem Sound.allocates (h : v.Sound) {n : ℕ} (hn : 0 < n) {r : Except Err ℕ × Bitmap.Vcb}
    (ha : v.toVcb.Allocates n r) (ht : Bitmap.Vcb.Takes v.toVcb n r) : Sound { v with toVcb := r.2 } := by
  obtain ⟨hblks, hpad, hcounted⟩ := h
  rw [Counted] at hcounted
  obtain ⟨e, v'⟩ := r
  cases e with
  | error e =>
    obtain ⟨-, hbm⟩ := ha
    obtain ⟨h₁, h₂, h₃⟩ := ht
    have hclusters : v'.clusters = v.clusters := by
      rw [Bitmap.Vcb.clusters, h₁, h₂, Bitmap.Vcb.clusters]
    refine ⟨by rwa [h₁], ?_, ?_⟩
    · rwa [hbm, hclusters]
    · rw [Counted, h₃, hbm, hclusters, hcounted]
  | ok s =>
    obtain ⟨hlow, hmarks⟩ := ha
    obtain ⟨h₁, h₂, h₃⟩ := ht
    have hclusters : v'.clusters = v.clusters := by
      rw [Bitmap.Vcb.clusters, h₁, h₂, Bitmap.Vcb.clusters]
    have hroom := hlow.le
    have hfill := Count.zeros_fill hmarks.used hlow.free hlow.le
    have hle := Count.zeros_le v.bm.used 0 v.clusters
    have hlt := clusters_lt hblks
    have hfree : (v.free + 16777216 - n) % 16777216 = zeros v'.bm.used 0 v.clusters := by omega
    refine ⟨by rwa [h₁], ?_, ?_⟩
    · rw [hclusters]
      rw [Padded, if_neg (by omega)] at hpad ⊢
      intro i h₁ h₂
      rw [hmarks.used, hpad i h₁ h₂, Bool.or_true]
    · rw [Counted, h₃, hclusters]
      exact hfree

theorem Sound.allsgc (h : v.Sound) : v.allsgc.2.Sound :=
  h.allocates Nat.one_pos (Bitmap.Vcb.allocates_allsgc.mpr (.inr h.padded)) (Bitmap.Vcb.takes_allsgc v.toVcb)

theorem Sound.allctg (h : v.Sound) (n : ℕ) : (v.allctg n).2.Sound := by
  rcases Nat.eq_zero_or_pos n with rfl | hn
  · rw [Volume.allctg, allctg_zero]
    exact h
  · exact h.allocates hn (((Bitmap.Vcb.exact_iff v.toVcb).mpr (.inr h.padded)).allctg n hn)
      (Bitmap.Vcb.takes_allctg v.toVcb n)

end Volume

/-! ## Runs -/

/-- The operations on a volume -/
inductive Op
  | allsgc
  | allctg (n : ℕ)
  | freecl (n : ℕ)
  /-- the last link of a file is deleted -/
  | fdel (ino : Inode)
  | ftrunc (f : Fcb) (bhl de : ℕ)
  /-- a block is written -/
  | write (lbn : ℕ) (b : Block)

/-- The clusters that an operation releases -/
inductive Releases (v : Volume) : Op → List ℕ → Prop
  | allsgc : Releases v .allsgc []
  | allctg (n : ℕ) : Releases v (.allctg n) []
  | freecl (n : ℕ) : Releases v (.freecl n) [n]
  | fdel (ino : Inode) {n : ℕ} {l : List ℕ} (h : fdl2 n v ino = some l) : Releases v (.fdel ino) l
  | ftrunc (f : Fcb) (bhl de : ℕ) : Releases v (.ftrunc f bhl de) (ftrn v.clf f bhl de)
  | write (lbn : ℕ) (b : Block) : Releases v (.write lbn b) []

namespace Volume

/-- An operation that releases the clusters `l` -/
def step (v : Volume) (l : List ℕ) : Op → Volume
  | .allsgc => v.allsgc.2
  | .allctg n => (v.allctg n).2
  | .freecl n => v.freecl n
  | .fdel _ => v.freecls l
  | .ftrunc f bhl de => (ftrunc v f bhl de).2.2
  | .write lbn b => v.write lbn b

variable {v : Volume}

theorem Sound.step {op : Op} {l : List ℕ} (h : v.Sound) (hl : Releases v op l) (ho : v.Owned l) :
    (v.step l op).Sound := by
  cases hl with
  | allsgc => exact h.allsgc
  | allctg n => exact h.allctg n
  | freecl n => exact h.freecls ho
  | fdel ino hl => exact h.freecls ho
  | ftrunc f bhl de =>
    obtain ⟨h₁, h₂, h₃⟩ := h.freecls ho
    rw [Counted] at h₃
    rw [← toVcb_ftrunc] at h₁ h₂ h₃
    exact ⟨h₁, h₂, h₃⟩
  | write lbn b => exact ⟨h.blks, h.padded, h.counted⟩

end Volume

/-- A run of operations from a state on -/
inductive Run : Volume → Type
  | done (v : Volume) : Run v
  | step {v : Volume} (op : Op) {l : List ℕ} (h : Releases v op l) (r : Run (v.step l op)) : Run v

namespace Run

variable {v : Volume}

/-- The count is exact in each state, and each release is counted if it is due. -/
def Exact : {v : Volume} → Run v → Prop
  | v, done _ => v.Counted
  | v, @step _ _ l _ r => v.Counted ∧ v.Fair l ∧ r.Exact

/-- Each operation releases what is in use, and that once. -/
def Careful : {v : Volume} → Run v → Prop
  | _, done _ => True
  | v, @step _ _ l _ r => v.Owned l ∧ r.Careful

theorem Exact.counted {r : Run v} (h : r.Exact) : v.Counted := by
  cases r with
  | done => exact h
  | step op hl r => exact h.1

end Run

/-! ## A file with two allocation blocks -/

/-- A volume of eight clusters, two blocks each. A file has 174 clusters, of which the last one
is cluster 3; its two allocation blocks are in cluster 2. -/
def vol : Volume where
  blks := 16
  clf := 1
  free := 0
  bm := fun _ hl => if hl = bmhsz then 0xF0 else 0
  disk := fun lbn => match lbn with
    | 4 => Block.put (fun _ => 0) 3 5
    | 5 => Block.put (Block.put (fun _ => 0) 0 4) 6 6
    | _ => fun _ => 0
  inodes := fun _ => ⟨0, false, 0, 0, 0, 0, 0, 0, fun _ => 0⟩

/-- The file -/
def file : Inode := ⟨1, false, 0, 0, 0, 348, 348, 512, fun i => if i = 5 then 4 else 0⟩

end RSX280.Fileio
