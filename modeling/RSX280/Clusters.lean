import RSX280.BitmapSpec

/-!
# Allocation of clusters

`ALLSGC`, `ALLCTG` and `FREECL` allocate and free what they should (`Vcb.Exact`), except that
`BMSNGL` marks the unset bit it finds before it compares its number with the limit: when the
volume is full it sets a bit behind the last cluster, if one is unset there.
-/

namespace RSX280.Bitmap

open Search (Free first firstRun)

/-! ## Marking -/

/-- Set the `n` bits from `i` on. -/
def Blocks.markAll (bm : Blocks) (i : ℕ) : ℕ → Blocks
  | 0 => bm
  | n + 1 => Blocks.markAll (bm.mark i) (i + 1) n

theorem used_markAll (bm : Blocks) (i n j : ℕ) :
    (bm.markAll i n).used j = (decide (i ≤ j ∧ j < i + n) || bm.used j) := by
  induction n generalizing bm i with
  | zero =>
    rw [Blocks.markAll, decide_eq_false (by omega), Bool.false_or]
  | succ n ih =>
    rw [Blocks.markAll, ih, used_mark, ← Bool.or_assoc, ← Bool.decide_or]
    congr 2
    exact propext (by omega)

/-- The bytes that hold no bits: the header, and what is behind the block. -/
def Outside (vbn hl : ℕ) : Prop := vbn * 512 + hl < bmhsz ∨ 512 ≤ hl

theorem Outside.ne {vbn hl : ℕ} (h : Outside vbn hl) (i : ℕ) : vbn = vb i → hl ≠ hp i := by
  unfold Outside at h
  unfold vb hp bmhsz at *
  omega

theorem markAll_of_outside (bm : Blocks) (i n : ℕ) {vbn hl : ℕ} (h : Outside vbn hl) :
    bm.markAll i n vbn hl = bm vbn hl := by
  induction n generalizing bm i with
  | zero => rfl
  | succ n ih =>
    rw [Blocks.markAll, ih, Blocks.mark]
    exact set_of_ne bm _ (h.ne i)

/-- The bits of the `n` clusters from `s` on are set, and nothing else is changed. -/
structure Marks (bm bm' : Blocks) (s n : ℕ) : Prop where
  used : ∀ i, bm'.used i = (decide (s ≤ i ∧ i < s + n) || bm.used i)
  rest : ∀ vbn hl, Outside vbn hl → bm' vbn hl = bm vbn hl

/-- The bit of one cluster is cleared, and nothing else is changed. -/
structure Clears (bm bm' : Blocks) (n : ℕ) : Prop where
  used : ∀ i, bm'.used i = (decide (i ≠ n) && bm.used i)
  rest : ∀ vbn hl, Outside vbn hl → bm' vbn hl = bm vbn hl

theorem marks_markAll (bm : Blocks) (s n : ℕ) : Marks bm (bm.markAll s n) s n :=
  ⟨used_markAll bm s n, fun _ _ => markAll_of_outside bm s n⟩

theorem clears_bmfree (bm : Blocks) (n : ℕ) : Clears bm (bmfree bm n) n :=
  ⟨used_bmfree bm n, fun _ _ h => reset_of_ne bm _ (h.ne n)⟩

/-- `set3` sets one bit after another. -/
theorem set3_eq (bm : Blocks) (n i : ℕ) :
    set3 n (vb i) (hp i) (512 - hp i) (i % 8) bm = bm.markAll i n := by
  induction n generalizing bm i with
  | zero => rfl
  | succ n ih =>
    rw [set3, Blocks.markAll, ← ih]
    split
    · have h₁ : vb (i + 1) = vb i ∧ hp (i + 1) = hp i ∧ (i + 1) % 8 = i % 8 + 1 := by
        unfold vb hp bmhsz
        omega
      rw [h₁.1, h₁.2.1, h₁.2.2]
      rfl
    split
    · have h₁ : vb (i + 1) = vb i ∧ hp (i + 1) = hp i + 1 ∧ (i + 1) % 8 = 0 := by
        unfold vb hp bmhsz at *
        omega
      rw [h₁.1, h₁.2.1, h₁.2.2, Nat.sub_sub]
      rfl
    · have h₁ : vb (i + 1) = vb i + 1 ∧ hp (i + 1) = 0 ∧ (i + 1) % 8 = 0 := by
        unfold vb hp bmhsz at *
        omega
      rw [h₁.1, h₁.2.1, h₁.2.2]
      rfl

/-! ## The ends of the bitmap -/

theorem bbytes_le (bits : ℕ) : bits ≤ 8 * bbytes bits := by
  unfold bbytes
  split <;> omega

/-- Behind the last bit all that `BMSNGL` looks at is set: the rest of the last byte. Where
there is no bit at all, its byte counter starts at zero and it looks at 64 KB. -/
def Padded (bm : Blocks) (bits : ℕ) : Prop :=
  if bits = 0 then ∀ hl, bmhsz ≤ hl → hl < bmhsz + 65536 → bm 0 hl = 0xFF
  else ∀ i, bits ≤ i → i < 8 * bbytes bits → bm.used i = true

theorem bma3_eq_none {blk : ℕ → UInt8} {hl n : ℕ} (h : bma3 blk hl n = none) :
    ∀ o, hl ≤ o → o < hl + n → blk o = 0xFF := by
  induction n generalizing hl with
  | zero => exact fun o h₁ h₂ => absurd h₁ (by omega)
  | succ n ih =>
    rw [bma3] at h
    split at h
    · next heq =>
      intro o h₁ h₂
      rcases eq_or_lt_of_le h₁ with rfl | h₁
      · exact heq
      · exact ih h o h₁ (by omega)
    · cases h

/-- Setting an unset bit changes the block. -/
theorem set_ne {bm : Blocks} {vbn hl p : ℕ} (hp' : p < 8) (h : bm vbn hl &&& mask p = 0) :
    bm.set vbn hl (mask p) ≠ bm := by
  intro heq
  have hself := set_self bm vbn hl (mask p)
  rw [heq] at hself
  have hor := or_mask (a := bm vbn hl) hp' hp'
  rw [← hself] at hor
  exact absurd rfl (hor.mp h).1

/-- The bit that `bma4` stops at. -/
theorem bma4_spec {a : UInt8} (h : a ≠ 0xFF) : bma4 a 0 8 < 8 ∧ a &&& mask (bma4 a 0 8) = 0 := by
  -- the byte as the first one behind the header
  have hbyte := @first_bma4 (fun _ _ => a) 0 bmhsz (by decide) (by decide) h
  refine ⟨hbyte.1, ?_⟩
  have hfree := (Search.first_eq_some hbyte.2).2.2.1
  rw [used_bitno _ (by decide) (by decide) hbyte.1] at hfree
  simpa using hfree

/-! ## The allocators -/

namespace Vcb

variable {v : Vcb}

/-- `s` is the lowest run of `n` free clusters of the volume. -/
structure Lowest (v : Vcb) (n s : ℕ) : Prop where
  le : s + n ≤ v.clusters
  free : Free v.bm.used s n
  min : ∀ s', s' < s → ¬Free v.bm.used s' n

/-- The lowest run of `n` clusters is returned and marked; or there is none, and the bitmap
remains as it is. -/
def Allocates (v : Vcb) (n : ℕ) : Except Err ℕ × Vcb → Prop
  | (.ok s, v') => v.Lowest n s ∧ Marks v.bm v'.bm s n
  | (.error _, v') => (∀ s, s + n ≤ v.clusters → ¬Free v.bm.used s n) ∧ v'.bm = v.bm

/-- There is a free cluster. -/
def Room (v : Vcb) : Prop := ∃ n, n < v.clusters ∧ v.bm.used n = false

theorem free_one {f : ℕ → Bool} {s : ℕ} : Free f s 1 ↔ f s = false :=
  ⟨fun h => h s le_rfl (by omega), fun h j h₁ h₂ => by rwa [show j = s by omega]⟩

/-- `ALLCTG` of more than one cluster. -/
theorem allocates_bmcntg {n : ℕ} (hn : 1 < n) : v.Allocates n (v.allctg n) := by
  rw [allctg, if_neg (by omega)]
  have hnone : v.clusters = 0 → ∀ s, s + n ≤ v.clusters → ¬Free v.bm.used s n :=
    fun h s hs => by omega
  rcases Nat.eq_zero_or_pos v.clusters with h₀ | h₀
  · rw [bmcntg, h₀]
    cases bmc2 v.bm n _ _ _ _ _ _ with
    | none => exact ⟨hnone h₀, rfl⟩
    | some c => exact ⟨hnone h₀, rfl⟩
  have hfinds := finds_bmc2 v.bm n (bbytes v.clusters + 1) 0 bmhsz (bbytes v.clusters)
    ⟨true, 0, 0, 0, 0⟩ none (by decide) (by decide)
    (by unfold bbytes; split <;> omega) (by omega) ⟨rfl, fun _ hs => nomatch hs⟩
  have hle := bbytes_le v.clusters
  rw [bmcntg]
  dsimp only
  cases hc : bmc2 v.bm n _ _ _ _ _ _ with
  | none =>
    rw [hc] at hfinds
    exact ⟨fun s hs => Search.firstRun_none (by omega) hfinds s (by omega), rfl⟩
  | some c =>
    rw [hc] at hfinds
    obtain ⟨s, hs, hvbn, hpos, hmask⟩ := hfinds
    obtain ⟨hfree, -, hmin⟩ := Search.firstRun_some (by omega) hs
    dsimp only
    rw [hvbn, hpos, hmask, bitno_pos, set3_eq]
    by_cases hlim : s + n - 1 < v.clusters
    · rw [if_pos hlim]
      exact ⟨⟨by omega, hfree, hmin⟩, marks_markAll v.bm s n⟩
    · rw [if_neg hlim]
      refine ⟨fun s' hs' => hmin s' (by omega), rfl⟩

/-- The limit is checked after the bit is marked. -/
theorem allocates_bmsngl (h₀ : 0 < v.clusters) :
    v.Allocates 1 v.allsgc ↔ v.Room ∨ Padded v.bm v.clusters := by
  have hle := bbytes_le v.clusters
  rw [allsgc, bmsngl_eq v.bm h₀, Padded, if_neg (by omega)]
  cases hf : first v.bm.used 0 (8 * bbytes v.clusters) with
  | none =>
    have hused := Search.first_eq_none hf
    refine iff_of_true ⟨fun s hs hfree => ?_, rfl⟩ (.inr fun i _ hi => hused i (by omega) (by omega))
    have h := hused s (by omega) (by omega)
    rw [free_one.mp hfree] at h
    cases h
  | some i =>
    obtain ⟨-, hi, hfree, hmin⟩ := Search.first_eq_some hf
    rw [settle]
    by_cases hlim : i < v.clusters
    · rw [if_pos hlim]
      refine iff_of_true ⟨⟨by omega, free_one.mpr hfree, fun s' hs' h => ?_⟩, ?_⟩ (.inl ⟨i, hlim, hfree⟩)
      · have hused := hmin s' (by omega) hs'
        rw [free_one.mp h] at hused
        cases hused
      · exact marks_markAll v.bm i 1
    · rw [if_neg hlim]
      refine iff_of_false (fun ⟨_, hbm⟩ => ?_) ?_
      · have hmark := used_mark v.bm i i
        rw [show v.bm.mark i = v.bm from hbm, hfree] at hmark
        simp at hmark
      · rintro (⟨n, hn, hroom⟩ | hpad)
        · have hused := hmin n (by omega) (by omega)
          rw [hroom] at hused
          cases hused
        · have hused := hpad i (by omega) (by omega)
          rw [hfree] at hused
          cases hused

/-- A volume of less than one cluster. -/
theorem allocates_none (h₀ : v.clusters = 0) : v.Allocates 1 v.allsgc ↔ Padded v.bm 0 := by
  rw [allsgc, h₀, Padded, if_pos rfl]
  have hscan : bmsngl v.bm 0 = bma2 v.bm 0 1 0 bmhsz 0 0 := rfl
  rw [hscan, bma2, show passes 0 = 65536 from rfl]
  cases hb : bma3 (v.bm 0) bmhsz 65536 with
  | none =>
    refine iff_of_true ⟨fun s hs => absurd hs (by omega), rfl⟩ ?_
    exact bma3_eq_none hb
  | some hl =>
    obtain ⟨h₁, h₂, hne⟩ := bma3_eq_some hb
    obtain ⟨hp', hbit⟩ := bma4_spec hne
    refine iff_of_false (fun hall => set_ne hp' hbit hall.2) fun hpad => hne (hpad hl h₁ h₂)

theorem allocates_allsgc : v.Allocates 1 v.allsgc ↔ v.Room ∨ Padded v.bm v.clusters := by
  rcases Nat.eq_zero_or_pos v.clusters with h₀ | h₀
  · have hroom : ¬v.Room := fun ⟨n, hn, _⟩ => by omega
    rw [allocates_none h₀, h₀, or_iff_right hroom]
  · exact allocates_bmsngl h₀

/-- The clusters are allocated from the lowest one on, and freed again. -/
structure Exact (v : Vcb) : Prop where
  allsgc : v.Allocates 1 v.allsgc
  allctg : ∀ n, 1 ≤ n → v.Allocates n (v.allctg n)
  freecl : ∀ n, n < v.clusters →
    (v.freecl n).1 = .ok () ∧ Clears v.bm (v.freecl n).2.bm n

/-- The allocation is exact unless the volume is full and a bit behind the last cluster is
unset. -/
theorem exact_iff (v : Vcb) : v.Exact ↔ v.Room ∨ Padded v.bm v.clusters := by
  refine ⟨fun h => allocates_allsgc.mp h.allsgc, fun h => ⟨allocates_allsgc.mpr h, fun n hn => ?_,
    fun n hn => ?_⟩⟩
  · rcases eq_or_lt_of_le hn with rfl | hn
    · rw [Vcb.allctg, if_pos rfl]
      exact allocates_allsgc.mpr h
    · exact allocates_bmcntg hn
  · rw [Vcb.freecl, if_pos hn]
    exact ⟨rfl, clears_bmfree v.bm n⟩

/-! ## What else is known of an allocation -/

/-- What an allocation does to the rest of the volume -/
def Takes (v : Vcb) (n : ℕ) : Except Err ℕ × Vcb → Prop
  | (.ok _, v') => v'.blks = v.blks ∧ v'.clf = v.clf ∧ v'.free = (v.free + 16777216 - n) % 16777216
  | (.error _, v') => v'.blks = v.blks ∧ v'.clf = v.clf ∧ v'.free = v.free

theorem takes_allsgc (v : Vcb) : Takes v 1 v.allsgc := by
  have hone : v.free + 16777216 - 1 = v.free + 16777215 := by omega
  rw [allsgc]
  generalize bmsngl v.bm v.clusters = r
  obtain ⟨e, bm⟩ := r
  cases e with
  | ok n =>
    rw [Takes, hone]
    exact ⟨rfl, rfl, rfl⟩
  | error e => exact ⟨rfl, rfl, rfl⟩

theorem takes_allctg (v : Vcb) (n : ℕ) : Takes v n (v.allctg n) := by
  rw [allctg]
  split
  · next h =>
    rw [h]
    exact takes_allsgc v
  · generalize bmcntg v.bm v.clusters n = r
    obtain ⟨e, bm⟩ := r
    cases e with
    | ok s => exact ⟨rfl, rfl, rfl⟩
    | error e => exact ⟨rfl, rfl, rfl⟩

/-- `ALLSGC` marks the free cluster that it returns. -/
theorem allsgc_eq_ok {w : Vcb} {n : ℕ} (h : v.allsgc = (.ok n, w)) :
    n < v.clusters ∧ v.bm.used n = false ∧ w.bm = v.bm.mark n := by
  have hbm : bmsngl v.bm v.clusters = (.ok n, w.bm) := by
    rw [allsgc] at h
    generalize bmsngl v.bm v.clusters = r at h
    obtain ⟨e, bm⟩ := r
    cases e with
    | ok m =>
      obtain ⟨hn, rfl⟩ := Prod.mk.inj h
      rw [Except.ok.inj hn]
    | error e => cases h
  rcases Nat.eq_zero_or_pos v.clusters with h₀ | h₀
  · rw [h₀, show bmsngl v.bm 0 = bma2 v.bm 0 1 0 bmhsz 0 0 from rfl, bma2] at hbm
    cases hb : bma3 (v.bm 0) bmhsz (passes 0) with
    | none =>
      rw [hb] at hbm
      cases hbm
    | some hl =>
      rw [hb] at hbm
      cases hbm
  · rw [bmsngl_eq v.bm h₀] at hbm
    cases hf : first v.bm.used 0 (8 * bbytes v.clusters) with
    | none =>
      rw [hf] at hbm
      cases hbm
    | some i =>
      rw [hf, settle] at hbm
      by_cases hlim : i < v.clusters
      · rw [if_pos hlim] at hbm
        obtain ⟨hn, hmark⟩ := Prod.mk.inj hbm
        obtain rfl := Except.ok.inj hn
        exact ⟨hlim, (Search.first_eq_some hf).2.2.1, hmark.symm⟩
      · rw [if_neg hlim] at hbm
        cases hbm

/-- A volume of one cluster, which is in use; the seven bits behind it are unset. -/
def full : Vcb := ⟨1, 0, 0, fun _ hl => if hl = bmhsz then 0x80 else 0xFF⟩

/-- No cluster is allocated, but a bit is set. -/
theorem not_exact_full : ¬full.Exact := by
  intro h
  obtain ⟨-, hbm⟩ : _ ∧ full.allsgc.2.bm = full.bm := h.allsgc
  exact absurd (congrFun (congrFun hbm 0) bmhsz) (by decide)

end Vcb

end RSX280.Bitmap
