import RSX280.Vol180Clusters

/-!
# Allocation in vol180

`Right` is what `alloc_cluster` and `alloc_clusters` are there for: the lowest free clusters, as the ACP
finds them, and nothing at all when there are none. They are right when what they find among `nblocks` bits
is below the number of clusters (`clusters_right_iff`).
-/

namespace RSX280.Vol180

open Bitmap (Blocks Vcb Marks Outside bmhsz vb hp used_eq_false)
open Search (Free first firstRun)

/-- Free the `n` clusters from `c` on. -/
def free_all (v : Vol) : ℕ → ℕ → St → Bool × St
  | 0, _, s => (true, s)
  | n + 1, c, s =>
    let r := free_cluster v c s
    let r' := free_all v n (c + 1) r.2
    (r.1 && r'.1, r'.2)

/-- The clusters from `c` on can be freed, and then all is as before. -/
structure Undone (v : Vol) (s s' : St) (n c : ℕ) : Prop where
  freed : (free_all v n c s').1 = true
  used : ∀ i, ((free_all v n c s').2.bits v).used i = (s.bits v).used i
  rest : ∀ k o, Outside k o → (free_all v n c s').2.bits v k o = s.bits v k o
  below : Below v s (free_all v n c s').2
  held : (free_all v n c s').2.held = s.held

/-- The lowest `n` free clusters in a row were found, marked and can be freed again. -/
structure Takes (v : Vol) (s : St) (n : ℕ) (r : ℕ × St) (c : ℕ) : Prop where
  lowest : (s.vcb v).Lowest n c
  block : r.1 = c <<< v.clfactor
  marks : Marks (s.bits v) (r.2.bits v) c n
  below : Below v s r.2
  held : r.2.held = s.held
  undone : Undone v s r.2 n c

/-- The result of the ACP as a block number. -/
def blockOf (v : Vol) : Except Err ℕ → ℕ
  | .ok c => c <<< v.clfactor
  | .error _ => 0

/-- Clusters are allocated, or there are none and nothing is changed; and the ACP finds the same. -/
structure Right (v : Vol) (s : St) (n : ℕ) (r : ℕ × St) : Prop where
  allocates : (r.1 ≠ 0 ∧ ∃ c, Takes v s n r c) ∨
    (r.1 = 0 ∧ r.2 = s ∧ ∀ c, c + n ≤ v.clusters → ¬Free (s.bits v).used c n)
  acp : r.1 = blockOf v ((s.vcb v).allctg n).1

/-- The first `n` free bits in a row that the search meets, among `nblocks` bits as far as the volume
goes. -/
structure Meets (v : Vol) (s : St) (n c : ℕ) : Prop where
  le : c + n ≤ v.nblocks
  there : v.bmblock + vb (c + n - 1) < v.nblocks
  free : Free (s.bits v).used c n
  min : ∀ c' < c, ¬Free (s.bits v).used c' n

/-- They are clusters, not the first one, and can be named with 12 bits for the block of the bitmap. -/
structure Named (v : Vol) (n c : ℕ) : Prop where
  pos : 0 < c
  le : c + n ≤ v.clusters
  low : c + n ≤ 16777088

section

variable {v : Vol} {s : St} {n c i : ℕ} {h : List ℕ} {r : ℕ × St}

/-! ### `free_cluster` -/

theorem bit_blk_low (hc : c < 16777088) : bit_blk v c = v.bmblock + vb c := by
  have small : vb c < 4096 := by
    simp only [vb, bmhsz]
    omega
  exact congrArg (v.bmblock + ·) (Nat.mod_eq_of_lt small)

theorem bit_blk_le (v : Vol) (c : ℕ) : v.bmblock ≤ bit_blk v c ∧ bit_blk v c ≤ v.bmblock + vb c :=
  ⟨Nat.le_add_right _ _, Nat.add_le_add_left (Nat.mod_le _ _) _⟩

theorem Vol.clusters_le (v : Vol) : v.clusters ≤ v.nblocks := Nat.shiftRight_le _ _

/-- The blocks of the bitmap are on the volume. -/
theorem Vol.there (v : Vol) (hc : c ≤ v.clusters) : v.bmblock + vb c < v.nblocks :=
  Nat.lt_of_le_of_lt (Nat.add_le_add_left (vb_mono hc) _) v.inside

theorem free_cluster_eq (hc : c < v.clusters) (room : s.held.dedup.length < NBUFFERS) :
    free_cluster v c s = (true, s.put (bit_blk v c) (bit_offs c)
      (s.data (bit_blk v c) (bit_offs c) &&& ~~~bit_mask c)) := by
  have there : bit_blk v c < v.nblocks := Nat.lt_of_le_of_lt (bit_blk_le v c).2 (v.there (Nat.le_of_lt hc))
  rw [free_cluster, get_block_some there room]
  dsimp only
  rw [release_put]

/-- The bit of the cluster is cleared; from cluster 16777088 on it is another byte. -/
theorem used_free_cluster (hc : c < v.clusters) (room : s.held.dedup.length < NBUFFERS) (i : ℕ) :
    ((free_cluster v c s).2.bits v).used i = (decide (i ≠ c ∨ 16777088 ≤ c) && (s.bits v).used i) := by
  rw [free_cluster_eq hc room]
  rcases Nat.lt_or_ge c 16777088 with low | high
  · have clear := Bitmap.used_bmfree (s.bits v) c i
    rw [decide_eq_decide.mpr (or_iff_left (Nat.not_le_of_lt low)), ← clear, bit_blk_low low, bits_put rfl]
    rfl
  · have small : c < 16777216 := Nat.lt_of_lt_of_le hc (v.clusters_le.trans (Nat.le_of_lt v.size))
    have first : bit_blk v c = v.bmblock + 0 := by
      simp only [bit_blk, bmhsz]
      omega
    have header : Outside 0 (bit_offs c) := by
      left
      simp only [bit_offs, bmhsz]
      omega
    rw [decide_eq_true (Or.inr high), Bool.true_and, first, bits_put rfl, Blocks.used, Blocks.used]
    by_cases zero : vb i = 0
    · rw [zero, Function.update_self, Function.update_of_ne (header.ne i zero.symm).symm]
    · rw [Function.update_of_ne zero]

theorem rest_free_cluster (hc : c < v.clusters) (low : c < 16777088) (room : s.held.dedup.length < NBUFFERS)
    {k o : ℕ} (outside : Outside k o) : (free_cluster v c s).2.bits v k o = s.bits v k o := by
  have clears := (Bitmap.clears_bmfree (s.bits v) c).rest k o outside
  rw [free_cluster_eq hc room, ← clears, bit_blk_low low, bits_put rfl]
  rfl

theorem free_all_spec (n c : ℕ) (s : St) (hc : c + n ≤ v.clusters) (room : s.held.dedup.length < NBUFFERS) :
    (free_all v n c s).1 = true ∧ Below v s (free_all v n c s).2 ∧ (free_all v n c s).2.held = s.held ∧
      (∀ i, ((free_all v n c s).2.bits v).used i
        = (decide (¬(c ≤ i ∧ i < c + n ∧ i < 16777088)) && (s.bits v).used i)) ∧
      (c + n ≤ 16777088 → ∀ k o, Outside k o → (free_all v n c s).2.bits v k o = s.bits v k o) := by
  induction n generalizing c s with
  | zero =>
    refine ⟨rfl, below_refl v s, rfl, fun i => ?_, fun _ _ _ _ => rfl⟩
    rw [decide_eq_true (by omega), Bool.true_and]
    rfl
  | succ n ih =>
    have cluster : c < v.clusters := by omega
    have freed := free_cluster_eq cluster room
    have used := used_free_cluster cluster room
    have held : (free_cluster v c s).2.held = s.held := by
      rw [freed]
      rfl
    have below : Below v s (free_cluster v c s).2 := by
      rw [freed]
      exact below_put (bit_blk_le v c).1
    obtain ⟨done, below', held', used', rest'⟩ := ih (c + 1) (free_cluster v c s).2 (by omega) (held ▸ room)
    rw [free_all]
    refine ⟨?_, below.trans below', held'.trans held, fun i => ?_, fun low k o outside => ?_⟩
    · rw [done, freed]
      rfl
    · dsimp only
      rw [used', used, ← Bool.and_assoc, ← Bool.decide_and]
      congr 2
      exact propext (by omega)
    · exact (rest' (by omega) k o outside).trans (rest_free_cluster cluster (by omega) room outside)

/-- What was marked is undone, unless the bits cannot be named. -/
theorem undone_iff {s' : St} (hn : 0 < n) (free : Free (s.bits v).used c n) (hc : c + n ≤ v.clusters)
    (marks : Marks (s.bits v) (s'.bits v) c n) (below : Below v s s') (held : s'.held = s.held)
    (room : s.held.dedup.length < NBUFFERS) : Undone v s s' n c ↔ c + n ≤ 16777088 := by
  obtain ⟨done, below', held', used', rest'⟩ := free_all_spec n c s' hc (held.symm ▸ room)
  constructor
  · intro undone
    by_contra high
    have last := undone.used (c + n - 1)
    rw [used', marks.used, free (c + n - 1) (by omega) (by omega), decide_eq_true (by omega),
      decide_eq_true (by omega)] at last
    cases last
  · intro low
    refine ⟨done, fun i => ?_, fun k o outside => ?_, below.trans below', held'.trans held⟩
    · rw [used', marks.used]
      by_cases marked : c ≤ i ∧ i < c + n
      · rw [decide_eq_false (by omega), Bool.false_and, free i marked.1 marked.2]
      · rw [decide_eq_true (by omega), decide_eq_false marked, Bool.true_and, Bool.false_or]
    · exact (rest' low k o outside).trans (marks.rest k o outside)

/-! ### The ACP -/

/-- What `ALLCTG` returns. -/
theorem allctg_spec (w : Vcb) (hn : 0 < n) : (∃ c, (w.allctg n).1 = .ok c ∧ w.Lowest n c) ∨
    ((∃ e, (w.allctg n).1 = .error e) ∧ ∀ c, c + n ≤ w.clusters → ¬Free w.bm.used c n) := by
  rcases Nat.eq_or_lt_of_le (Nat.succ_le_of_lt hn) with rfl | more
  · have single : w.allctg (Nat.succ 0) = w.allsgc := if_pos rfl
    have le := Bitmap.bbytes_le w.clusters
    rw [single]
    rcases Nat.eq_zero_or_pos w.clusters with none | some_clusters
    · right
      refine ⟨?_, fun c hc => absurd hc (by omega)⟩
      rcases result : w.allsgc with ⟨e | c, w'⟩
      · exact ⟨e, rfl⟩
      · have := (Vcb.allsgc_eq_ok result).1
        omega
    · rw [Vcb.allsgc, Bitmap.bmsngl_eq w.bm some_clusters]
      cases here : first w.bm.used 0 (8 * Bitmap.bbytes w.clusters) with
      | none =>
        refine Or.inr ⟨⟨.dskf, rfl⟩, fun c hc free => ?_⟩
        have used := Search.first_eq_none here c (Nat.zero_le c) (by omega)
        cases used.symm.trans (free c (Nat.le_refl c) (Nat.lt_succ_self c))
      | some c =>
        obtain ⟨-, -, free, min⟩ := Search.first_eq_some here
        have lowest (c' : ℕ) (hc : c' < c) : ¬Free w.bm.used c' 1 := by
          intro free'
          cases (min c' (Nat.zero_le c') hc).symm.trans (free' c' (Nat.le_refl _) (Nat.lt_succ_self _))
        rw [Bitmap.settle]
        by_cases inside : c < w.clusters
        · rw [if_pos inside]
          exact Or.inl ⟨c, rfl, inside, Vcb.free_one.mpr free, lowest⟩
        · rw [if_neg inside]
          exact Or.inr ⟨⟨.dskf, rfl⟩, fun c' hc => lowest c' (by omega)⟩
  · have allocates := Vcb.allocates_bmcntg (v := w) more
    rcases result : w.allctg n with ⟨e | c, w'⟩
    · rw [result] at allocates
      exact Or.inr ⟨⟨e, rfl⟩, allocates.1⟩
    · rw [result] at allocates
      exact Or.inl ⟨c, rfl, allocates.1⟩

theorem lowest_unique {w : Vcb} {c c' : ℕ} (h : w.Lowest n c) (h' : w.Lowest n c') : c = c' := by
  rcases Nat.lt_trichotomy c c' with lt | rfl | lt
  · exact absurd h.free (h'.min c lt)
  · rfl
  · exact absurd h'.free (h.min c' lt)

theorem acp_lowest (hn : 0 < n) (h : (s.vcb v).Lowest n c) :
    blockOf v ((s.vcb v).allctg n).1 = c <<< v.clfactor := by
  rcases allctg_spec (s.vcb v) hn with ⟨c', ok, lowest⟩ | ⟨-, none⟩
  · rw [ok, lowest_unique h lowest]
    rfl
  · exact absurd h.free (none c h.le)

theorem acp_none (hn : 0 < n) (h : ∀ c, c + n ≤ v.clusters → ¬Free (s.bits v).used c n) :
    blockOf v ((s.vcb v).allctg n).1 = 0 := by
  rcases allctg_spec (s.vcb v) hn with ⟨c, -, lowest⟩ | ⟨⟨e, error⟩, -⟩
  · exact absurd lowest.free (h c lowest.le)
  · rw [error]
    rfl

/-! ### What the search meets -/

theorem Meets.unique {c' : ℕ} (h : Meets v s n c) (h' : Meets v s n c') : c = c' := by
  rcases Nat.lt_trichotomy c c' with lt | rfl | lt
  · exact absurd h.free (h'.min c lt)
  · rfl
  · exact absurd h'.free (h.min c' lt)

/-- It is the lowest run of the volume, if there is one. -/
theorem Meets.lowest {c' : ℕ} (h : Meets v s n c) (h' : (s.vcb v).Lowest n c') : c' = c := by
  rcases Nat.lt_trichotomy c c' with lt | rfl | lt
  · exact absurd h.free (h'.min c lt)
  · rfl
  · exact absurd h'.free (h.min c' lt)

theorem meets_some (hn : 0 < n) (hc : c + n ≤ v.clusters) (free : Free (s.bits v).used c n) :
    ∃ c', Meets v s n c' := by
  classical
  have exists_run : ∃ c, Free (s.bits v).used c n := ⟨c, free⟩
  have le : Nat.find exists_run ≤ c := Nat.find_min' exists_run free
  have clusters := v.clusters_le
  refine ⟨Nat.find exists_run, by omega, v.there (by omega), Nat.find_spec exists_run, fun c' lt => ?_⟩
  exact Nat.find_min exists_run lt

theorem shift_eq_zero (c k : ℕ) : c <<< k = 0 ↔ c = 0 := by
  rw [Nat.shiftLeft_eq, Nat.mul_eq_zero, or_iff_left (Nat.pow_pos (by decide)).ne']

/-- An allocation that is right. -/
theorem Named.right (hn : 0 < n) (named : Named v n c) (meets : Meets v s n c)
    (room : s.held.dedup.length < NBUFFERS) (block : r.1 = c <<< v.clfactor)
    (marks : Marks (s.bits v) (r.2.bits v) c n) (below : Below v s r.2) (held : r.2.held = s.held) :
    Right v s n r := by
  have lowest : (s.vcb v).Lowest n c := ⟨named.le, meets.free, meets.min⟩
  refine ⟨Or.inl ⟨?_, c, lowest, block, marks, below, held, ?_⟩, block.trans (acp_lowest hn lowest).symm⟩
  · rw [block, ne_eq, shift_eq_zero]
    exact named.pos.ne'
  · exact (undone_iff hn meets.free named.le marks below held room).mpr named.low

/-- And what is necessary for that. -/
theorem Right.named (hn : 0 < n) (right : Right v s n r) (meets : Meets v s n c)
    (room : s.held.dedup.length < NBUFFERS) (zero : c = 0 → r.1 = 0) (changed : r.1 = 0 → r.2 ≠ s) :
    Named v n c := by
  rcases right.allocates with ⟨some_block, c', takes⟩ | ⟨no_block, same, -⟩
  · obtain rfl := meets.lowest takes.lowest
    refine ⟨Nat.pos_of_ne_zero fun h => some_block (zero h), takes.lowest.le, ?_⟩
    exact (undone_iff hn meets.free takes.lowest.le takes.marks takes.below takes.held room).mp takes.undone
  · exact absurd same (changed no_block)

theorem right_none (hn : 0 < n) (none : ∀ c, ¬Meets v s n c) : Right v s n (0, s) := by
  have no_run : ∀ c, c + n ≤ v.clusters → ¬Free (s.bits v).used c n := by
    intro c hc free
    obtain ⟨c', meets⟩ := meets_some hn hc free
    exact none c' meets
  exact ⟨Or.inr ⟨rfl, rfl, no_run⟩, (acp_none hn no_run).symm⟩

/-- What is marked is changed. -/
theorem Marks.changed {s' : St} (hn : 0 < n) (free : Free (s.bits v).used c n)
    (marks : Marks (s.bits v) (s'.bits v) c n) : s' ≠ s := by
  rintro rfl
  have used := marks.used c
  rw [free c (Nat.le_refl c) (by omega), decide_eq_true (by omega)] at used
  cases used

/-! ### `alloc_cluster` -/

/-- When `alloc_cluster` is right: it meets a cluster, or there is nothing free up to the end of the
volume, and that comes first. -/
def OneRight (v : Vol) (s : St) : Prop :=
  (∃ c, Meets v s 1 c ∧ Named v 1 c) ∨ ((∀ c, ¬Meets v s 1 c) ∧ v.nblocks ≤ v.bmblock + vb v.nblocks)

theorem alloc_cluster_scanned (room : s.held.dedup.length < NBUFFERS) :
    Scanned v s.data s.held 0 v.nblocks (alloc_cluster v s) := by
  have inside : v.bmblock < v.nblocks := v.there (Nat.zero_le _)
  rw [alloc_cluster, get_block_some inside room]
  exact alloc_loop_spec v s.data room v.nblocks 0 inside

theorem alloc_cluster_iff (room : s.held.dedup.length < NBUFFERS) :
    Right v s 1 (alloc_cluster v s) ↔ OneRight v s := by
  have scanned := alloc_cluster_scanned (v := v) room
  generalize alloc_cluster v s = r at scanned
  cases scanned with
  | @found c here there =>
    obtain ⟨-, lt, free, min⟩ := Search.first_eq_some here
    have meets : Meets v s 1 c := by
      refine ⟨by omega, there, Vcb.free_one.mpr free, fun c' lt' free' => ?_⟩
      cases (min c' (Nat.zero_le c') lt').symm.trans (Vcb.free_one.mp free')
    have marked := mark_put v s c (s.data (v.bmblock + vb c) (hp c))
    rw [put_self] at marked
    have marks : Marks (s.bits v) ((s.put (v.bmblock + vb c) (hp c)
        (s.data (v.bmblock + vb c) (hp c) ||| Bitmap.mask (c % 8))).bits v) c 1 := by
      rw [← marked]
      exact Bitmap.marks_markAll (s.bits v) c 1
    constructor
    · intro right
      refine Or.inl ⟨c, meets, right.named Nat.one_pos meets room (fun zero => ?_) fun _ => ?_⟩
      · rw [zero]
        exact Nat.zero_shiftLeft _
      · exact Marks.changed Nat.one_pos meets.free marks
    · rintro (⟨c', meets', named⟩ | ⟨none, -⟩)
      · obtain rfl := meets.unique meets'
        exact named.right Nat.one_pos meets room rfl marks (below_put (Nat.le_add_right _ _)) rfl
      · exact absurd meets (none c)
  | full none there =>
    rw [Nat.zero_add] at there
    refine iff_of_false (fun right => ?_) ?_
    · rcases right.allocates with ⟨some_block, -⟩ | ⟨-, same, -⟩
      · exact some_block rfl
      · exact List.cons_ne_self _ _ (congrArg St.held same)
    · rintro (⟨c, meets, -⟩ | ⟨-, outside⟩)
      · have used := Search.first_eq_none none c (Nat.zero_le c) (by have := meets.le; omega)
        cases used.symm.trans (Vcb.free_one.mp meets.free)
      · exact absurd there (Nat.not_lt_of_le outside)
  | @ends m le none outside =>
    rw [Nat.zero_add] at outside
    have nothing (c : ℕ) : ¬Meets v s 1 c := by
      intro meets
      have there := meets.there
      have before : c < m := by
        by_contra behind
        have mono : vb m ≤ vb (c + 1 - 1) := vb_mono (by omega)
        omega
      have used := Search.first_eq_none none c (Nat.zero_le c) (by omega)
      cases used.symm.trans (Vcb.free_one.mp meets.free)
    have mono : vb m ≤ vb v.nblocks := vb_mono le
    exact iff_of_true (right_none Nat.one_pos nothing) (Or.inr ⟨nothing, by omega⟩)

/-! ### `alloc_clusters` -/

theorem alloc_clusters_spec (hn : 0 < n) (room : s.held.dedup.length < NBUFFERS) :
    (∃ c, Meets v s n c ∧ (16777088 ≤ c → (alloc_clusters v n s).1 = c <<< v.clfactor) ∧
      (c < 16777088 → Marks (s.bits v) ((alloc_clusters v n s).2.bits v) c n ∧
        Below v s (alloc_clusters v n s).2 ∧ (alloc_clusters v n s).2.held = s.held ∧
        (alloc_clusters v n s).1 = if v.bmblock + vb (c + n) < v.nblocks then c <<< v.clfactor else 0)) ∨
    ((∀ c, ¬Meets v s n c) ∧ alloc_clusters v n s = (0, s)) := by
  have inside : v.bmblock < v.nblocks := v.there (Nat.zero_le _)
  have searched : Searched v s.data s.held n 0 v.nblocks none
      (search_loop v n v.nblocks 0 bmhsz v.bmblock 0x80 (s.data v.bmblock bmhsz) 0 0
        ⟨s.data, v.bmblock :: s.held⟩) := search_loop_spec v s.data room v.nblocks 0 inside (.none 0) hn
  rcases result : alloc_clusters v n s with ⟨blk, s'⟩
  rw [alloc_clusters, get_block_some inside room] at result
  dsimp only at result
  generalize search_loop v n v.nblocks 0 bmhsz v.bmblock 0x80 (s.data v.bmblock bmhsz) 0 0
    ⟨s.data, v.bmblock :: s.held⟩ = q at searched result
  cases searched with
  | @found c here there =>
    obtain ⟨free, le, min⟩ := Search.firstRun_some hn here
    have mono : vb c ≤ vb (c + n - 1) := vb_mono (by omega)
    have blk_there : bit_blk v c < v.nblocks := by
      have := (bit_blk_le v c).2
      omega
    dsimp only at result
    rw [if_neg (Nat.lt_irrefl n), get_block_some blk_there room] at result
    obtain ⟨rfl, rfl⟩ := Prod.mk.inj result
    refine Or.inl ⟨c, ⟨le, there, free, min⟩, fun high => ?_, fun low => ?_⟩
    · have size := v.size
      have header : bit_offs c < 16 := by
        simp only [bit_offs, bmhsz]
        omega
      exact if_pos (mark_loop_short v n (bit_offs c) _ _ _ (mod_lt c) (by omega))
    · have marked := mark_loop_spec v room n c s.data (s.data (v.bmblock + vb c) (hp c)) (by omega)
        (fun _ => there) (fun _ => rfl)
      have self := put_self s (v.bmblock + vb c) (hp c)
      rw [bit_blk_low low]
      refine ⟨?_, marked.below, marked.held, if_congr marked.done rfl rfl⟩
      have bits := marked.bits.trans (congrArg (fun s => Blocks.markAll (St.bits v s) c n) self)
      have marks := Bitmap.marks_markAll (s.bits v) c n
      rw [← bits] at marks
      exact marks
  | full none there short =>
    dsimp only at result
    rw [if_pos short] at result
    refine Or.inr ⟨fun c meets => ?_, result.symm⟩
    exact Search.firstRun_none hn none c meets.le meets.free
  | @ends m le none outside =>
    rw [Nat.zero_add] at outside
    refine Or.inr ⟨fun c meets => ?_, result.symm⟩
    have there := meets.there
    have before : c + n ≤ m := by
      by_contra behind
      have mono : vb m ≤ vb (c + n - 1) := vb_mono (by omega)
      omega
    exact Search.firstRun_none hn none c before meets.free

theorem alloc_clusters_iff (hn : 0 < n) (room : s.held.dedup.length < NBUFFERS) :
    Right v s n (alloc_clusters v n s) ↔ ∀ c, Meets v s n c → Named v n c := by
  rcases alloc_clusters_spec (v := v) hn room with ⟨c, meets, high, low⟩ | ⟨none, result⟩
  · constructor
    · intro right c' meets'
      obtain rfl := meets.unique meets'
      refine right.named hn meets room (fun zero => ?_) fun no_block => ?_
      · obtain ⟨-, -, -, block⟩ := low (by omega)
        rw [block, zero, Nat.zero_shiftLeft, ite_self]
      · rcases Nat.lt_or_ge c 16777088 with lt | ge
        · exact Marks.changed hn meets.free (low lt).1
        · rw [high ge, shift_eq_zero] at no_block
          omega
    · intro named
      have here := named c meets
      have below := here.low
      obtain ⟨marks, frame, held, block⟩ := low (by omega)
      rw [if_pos (v.there here.le)] at block
      exact here.right hn meets room block marks frame held
  · rw [result]
    exact iff_of_true (right_none hn none) fun c meets => absurd meets (none c)

/-- With a buffer to spare, both are right when what they meet are clusters of the volume; `alloc_cluster`
has to meet one. -/
theorem clusters_right_iff (v : Vol) (s : St) (room : s.held.dedup.length < NBUFFERS) :
    (Right v s 1 (alloc_cluster v s) ↔ OneRight v s) ∧
      ∀ n, 0 < n → (Right v s n (alloc_clusters v n s) ↔ ∀ c, Meets v s n c → Named v n c) :=
  ⟨alloc_cluster_iff room, fun _ hn => alloc_clusters_iff hn room⟩

end

/-- A volume of three blocks, the last one with the bitmap. -/
def small : Vol := { nblocks := 3, bmblock := 2, clfactor := 0, size := by decide, inside := by decide }

/-- Its blocks, with `x` in all bytes. -/
def filled (x : UInt8) : St := ⟨fun _ _ => x, []⟩

/-- Cluster 0 is in use. -/
theorem clusters_right_small : Right small (filled 0x80) 1 (alloc_cluster small (filled 0x80)) := by
  have free : Free ((filled 0x80).bits small).used 1 1 := Vcb.free_one.mpr rfl
  have meets : Meets small (filled 0x80) 1 1 := by
    refine ⟨by decide, by decide, free, fun c lt free' => ?_⟩
    obtain rfl : c = 0 := by omega
    cases Vcb.free_one.mp free'
  exact (clusters_right_iff small (filled 0x80) (by decide)).1.mpr
    (Or.inl ⟨1, meets, by decide, by decide, by decide⟩)

/-- All clusters are in use, and the buffer of the bitmap is not released. -/
theorem full_keeps_buffer : ¬∀ (v : Vol) (s : St), s.held.dedup.length < NBUFFERS →
    Right v s 1 (alloc_cluster v s) ∧ ∀ n, 0 < n → Right v s n (alloc_clusters v n s) := by
  intro h
  have right := (h small (filled 0xFF) (by decide)).1
  rcases right.allocates with ⟨some_block, -⟩ | ⟨-, same, -⟩
  · exact some_block rfl
  · exact absurd (congrArg St.held same) (by decide)

end RSX280.Vol180
