import RSX280.Records

/-!
# The buffers of the text editor

Each block has one buffer at most, and the map names it. A record is in the buffer of its block, or
else in the file, and what is done to the buffers changes no record.
-/

namespace RSX280.Ted

open Numbered

variable {β : Type}

/-! ### The invariant -/

/-- The map is behind the program and the buffers are behind the map. Each buffer but `c` has a block
of its own that the map finds, and one that is not 'dirty' has what the file has. The map has `m`
bytes. -/
structure Sys.Good (c m : ℕ) (s : Sys β) : Prop where
  program : BUFSIZ ≤ s.MEMBOT
  word : s.MEMTOP < 65536
  endmap : s.ENDMAP = s.MEMBOT + m
  pool : s.BFPOOL + BUFSIZ * s.NUMBUF = s.MEMTOP
  apart : s.ENDMAP ≤ s.BFPOOL
  blks : s.NBLKS ≤ m
  named : ∀ n, 0 < n → n ≤ s.NUMBUF → n ≠ c →
    (s.buf n).blk < s.NBLKS ∧ s.map (s.MEMBOT + (s.buf n).blk) = n
  held : ∀ blk < s.NBLKS, s.map (s.MEMBOT + blk) ≠ 0 → s.map (s.MEMBOT + blk) ≤ s.NUMBUF ∧
    s.map (s.MEMBOT + blk) ≠ c ∧ (s.buf (s.map (s.MEMBOT + blk))).blk = blk
  clean : ∀ n, 0 < n → n ≤ s.NUMBUF → n ≠ c → (s.buf n).dirty = false →
    ∀ i < 32, (s.buf n).recs i = s.file (s.buf n).blk i

variable {s t : Sys β} {c m n r k blk : ℕ} {b : Bool} {x : Buf β}

/-- A buffer is used, or its block is written to. -/
theorem touch_spec (h : s.Good 0 m) (hpos : 0 < n) (hn : n ≤ s.NUMBUF) {y : ℕ}
    (hx : x.blk = (s.buf n).blk)
    (hclean : x.dirty = false → (s.buf n).dirty = false ∧ x.recs = (s.buf n).recs) :
    ({ s with USECNT := y, buf := Function.update s.buf n x } : Sys β).Good 0 m := by
  have hbuf : ∀ k ≠ n, Function.update s.buf n x k = s.buf k :=
    fun k hk => Function.update_of_ne hk _ _
  have hself : Function.update s.buf n x n = x := Function.update_self _ _ _
  have hblk : ∀ k, (Function.update s.buf n x k).blk = (s.buf k).blk := by
    intro k
    by_cases hk : k = n
    · rw [hk, hself, hx]
    · rw [hbuf k hk]
  refine ⟨h.program, h.word, h.endmap, h.pool, h.apart, h.blks, fun k hp hk hne => ?_,
    fun blk hb hz => ?_, fun k hp hk hne hd i hi => ?_⟩
  · rw [hblk]
    exact h.named k hp hk hne
  · rw [hblk]
    exact h.held blk hb hz
  · rw [hblk]
    by_cases hkn : k = n
    · subst hkn
      dsimp only at hd ⊢
      rw [hself] at hd ⊢
      rw [(hclean hd).2]
      exact h.clean k hp hk hne (hclean hd).1 i hi
    · dsimp only at hd ⊢
      rw [hbuf k hkn] at hd ⊢
      exact h.clean k hp hk hne hd i hi

/-- The search stays among the buffers. -/
theorem nb1_range {buf : ℕ → Buf β} (hpos : 0 < c) (hc : c ≤ n) (hk : k ≤ n) :
    0 < nb1 buf k c ∧ nb1 buf k c ≤ n := by
  induction k generalizing c with
  | zero => exact ⟨hpos, hc⟩
  | succ k ih =>
    unfold nb1
    split
    · exact ⟨hpos, hc⟩
    · split
      · exact ih hpos hc (by omega)
      · split
        · exact ih hpos hc (by omega)
        · exact ih (by omega) (by omega) (by omega)

theorem Sys.Good.vars (h : s.Good c m) {x y : ℕ} :
    ({ s with FSTFRE := x, NUMFRE := y } : Sys β).Good c m :=
  ⟨h.program, h.word, h.endmap, h.pool, h.apart, h.blks, h.named, h.held, h.clean⟩

/-- The invariant between two calls. There is a buffer if there is a block. -/
structure Sys.Ok (s : Sys β) : Prop where
  good : s.Good 0 s.NBLKS
  some : 0 < s.NBLKS → 0 < s.NUMBUF
  size : s.NBLKS ≤ s.WFBLKS
  most : s.WFBLKS ≤ 2048

theorem Sys.Ok.vars (h : s.Ok) {x y : ℕ} : ({ s with FSTFRE := x, NUMFRE := y } : Sys β).Ok :=
  ⟨h.good.vars, h.some, h.size, h.most⟩

/-! ### The array -/

variable [Inhabited β]

/-- A record is in the buffer of its block, or else in the file. -/
def Sys.recs (s : Sys β) (r : ℕ) : Rec β :=
  if r < 32 * s.NBLKS then
    if s.map (s.MEMBOT + r / 32) = 0 then s.file (r / 32) (r % 32)
    else (s.buf (s.map (s.MEMBOT + r / 32))).recs (r % 32)
  else ⟨0, default⟩

def Sys.flat (s : Sys β) : Flat β := ⟨s.recs, s.FSTFRE, s.NUMFRE, s.NBLKS, s.WFBLKS⟩

/-- Nothing of the array was changed. -/
structure Same (s t : Sys β) : Prop where
  flat : t.flat = s.flat
  MEMBOT : t.MEMBOT = s.MEMBOT
  MEMTOP : t.MEMTOP = s.MEMTOP

theorem Same.trans {u : Sys β} (h : Same s t) (h' : Same t u) : Same s u :=
  ⟨h'.flat.trans h.flat, h'.MEMBOT.trans h.MEMBOT, h'.MEMTOP.trans h.MEMTOP⟩

theorem Same.NBLKS (h : Same s t) : t.NBLKS = s.NBLKS := congrArg Flat.NBLKS h.flat

theorem Same.WFBLKS (h : Same s t) : t.WFBLKS = s.WFBLKS := congrArg Flat.WFBLKS h.flat

theorem flat_ext (h₁ : t.FSTFRE = s.FSTFRE) (h₂ : t.NUMFRE = s.NUMFRE) (h₃ : t.NBLKS = s.NBLKS)
    (h₄ : t.WFBLKS = s.WFBLKS) (h : ∀ r < 32 * s.NBLKS, t.recs r = s.recs r) : t.flat = s.flat := by
  have hrecs : t.recs = s.recs := by
    funext r
    by_cases hr : r < 32 * s.NBLKS
    · exact h r hr
    · unfold Sys.recs
      rw [h₃, if_neg hr, if_neg hr]
  unfold Sys.flat
  rw [hrecs, h₁, h₂, h₃, h₄]

theorem recs_congr (h₁ : t.NBLKS = s.NBLKS) (h₂ : t.MEMBOT = s.MEMBOT) (h₃ : t.map = s.map)
    (h₄ : t.file = s.file) (h₅ : ∀ n, (t.buf n).recs = (s.buf n).recs) : t.recs = s.recs := by
  funext r
  unfold Sys.recs
  rw [h₁, h₂, h₃, h₄, h₅]

/-- The array does not depend on the other variables. -/
theorem Same.of_vars (h₁ : t.FSTFRE = s.FSTFRE) (h₂ : t.NUMFRE = s.NUMFRE) (h₃ : t.NBLKS = s.NBLKS)
    (h₄ : t.WFBLKS = s.WFBLKS) (h₅ : t.MEMBOT = s.MEMBOT) (h₆ : t.MEMTOP = s.MEMTOP)
    (h₇ : t.map = s.map) (h₈ : t.file = s.file) (h₉ : ∀ n, (t.buf n).recs = (s.buf n).recs) :
    Same s t :=
  ⟨flat_ext h₁ h₂ h₃ h₄ fun r _ => congrFun (recs_congr h₃ h₅ h₇ h₈ h₉) r, h₅, h₆⟩

theorem recs_of_map (h : r < 32 * s.NBLKS) (hm : s.map (s.MEMBOT + r / 32) ≠ 0) :
    s.recs r = (s.buf (s.map (s.MEMBOT + r / 32))).recs (r % 32) := by
  rw [Sys.recs, if_pos h, if_neg hm]

theorem recs_of_file (h : r < 32 * s.NBLKS) (hm : s.map (s.MEMBOT + r / 32) = 0) :
    s.recs r = s.file (r / 32) (r % 32) := by
  rw [Sys.recs, if_pos h, if_pos hm]

/-! ### Buffers -/

/-- A buffer is swapped out. -/
theorem SWPOUT_spec (h : s.Good 0 m) (hpos : 0 < n) (hn : n ≤ s.NUMBUF) :
    (SWPOUT s n).Good n m ∧ Same s (SWPOUT s n) := by
  obtain ⟨hblk, hmap⟩ := h.named n hpos hn hpos.ne'
  -- the other blocks and buffers are as they were
  have hmap' : ∀ blk ≠ (s.buf n).blk, (SWPOUT s n).map (s.MEMBOT + blk) = s.map (s.MEMBOT + blk) :=
    fun blk hne => Function.update_of_ne (by omega) _ _
  have hbuf : ∀ k ≠ n, (SWPOUT s n).buf k = s.buf k := fun k hk => Function.update_of_ne hk _ _
  have hfile : ∀ blk ≠ (s.buf n).blk, (SWPOUT s n).file blk = s.file blk := by
    intro blk hne
    change (if (s.buf n).dirty then _ else _ : ℕ → ℕ → Rec β) blk = _
    split
    · exact Function.update_of_ne hne _ _
    · rfl
  have hother : ∀ k, 0 < k → k ≤ s.NUMBUF → k ≠ n → (s.buf k).blk ≠ (s.buf n).blk := by
    intro k hk hle hne heq
    rw [← (h.named k hk hle hk.ne').2, heq, hmap] at hne
    exact hne rfl
  have hheld : ∀ blk < s.NBLKS, blk ≠ (s.buf n).blk → s.map (s.MEMBOT + blk) ≠ 0 →
      s.map (s.MEMBOT + blk) ≠ n := by
    intro blk hlt hne hz heq
    exact hne ((heq ▸ (h.held blk hlt hz).2.2).symm)
  have hgone : (SWPOUT s n).map (s.MEMBOT + (s.buf n).blk) = 0 := Function.update_self _ _ _
  refine ⟨⟨h.program, h.word, h.endmap, h.pool, h.apart, h.blks, fun k hk hle hne => ?_,
    fun blk hlt hz => ?_, fun k hk hle hne hd i hi => ?_⟩, ⟨?_, rfl, rfl⟩⟩
  · rw [hbuf k hne]
    obtain ⟨hkb, hkm⟩ := h.named k hk hle hk.ne'
    exact ⟨hkb, (hmap' _ (hother k hk hle hne)).trans hkm⟩
  · change (SWPOUT s n).map (s.MEMBOT + blk) ≤ _ ∧ (SWPOUT s n).map (s.MEMBOT + blk) ≠ n ∧
      ((SWPOUT s n).buf ((SWPOUT s n).map (s.MEMBOT + blk))).blk = blk
    change (SWPOUT s n).map (s.MEMBOT + blk) ≠ 0 at hz
    have hne : blk ≠ (s.buf n).blk := fun heq => hz (heq ▸ hgone)
    rw [hmap' blk hne] at hz ⊢
    obtain ⟨hle, -, hb⟩ := h.held blk hlt hz
    have hkn := hheld blk hlt hne hz
    exact ⟨hle, hkn, by rw [hbuf _ hkn, hb]⟩
  · rw [hbuf k hne] at hd ⊢
    rw [hfile _ (hother k hk hle hne)]
    exact h.clean k hk hle hk.ne' hd i hi
  · refine flat_ext rfl rfl rfl rfl fun r hr => ?_
    by_cases hb : r / 32 = (s.buf n).blk
    · rw [recs_of_file (s := SWPOUT s n) hr (hb ▸ hgone), recs_of_map hr (by rw [hb, hmap]; omega),
        hb, hmap]
      change (if (s.buf n).dirty then _ else _ : ℕ → ℕ → Rec β) (s.buf n).blk (r % 32) = _
      split
      · rw [Function.update_self]
      · rename_i hd
        exact (h.clean n hpos hn hpos.ne' (Bool.not_eq_true _ ▸ hd) _ (Nat.mod_lt _ (by omega))).symm
    · unfold Sys.recs
      change (if _ then if (SWPOUT s n).map (s.MEMBOT + r / 32) = 0 then _ else
        ((SWPOUT s n).buf ((SWPOUT s n).map (s.MEMBOT + r / 32))).recs _ else _) = _
      rw [hmap' _ hb, hfile _ hb]
      by_cases hz : s.map (s.MEMBOT + r / 32) = 0
      · rw [if_pos hz, if_pos hz]
        rfl
      · rw [if_neg hz, if_neg hz, hbuf _ (hheld _ (by omega) hb hz)]
        rfl

/-- `NEWBUF` finds a buffer, unless there is none and no space for one. -/
theorem NEWBUF_spec (h : s.Good 0 m) :
    (NEWBUF s = none → s.NUMBUF = 0 ∧ s.BFPOOL < s.ENDMAP + BUFSIZ) ∧
      ∀ t c, NEWBUF s = some (t, c) → t.Good c m ∧ Same s t ∧ 0 < c ∧ c ≤ t.NUMBUF ∧
        ∀ a, s.map a = 0 → t.map a = 0 := by
  have hpool : (s.BFPOOL + 65536 - BUFSIZ) % 65536 = s.BFPOOL - BUFSIZ := by
    have h₁ := h.program
    have h₂ := h.word
    have h₃ := h.endmap
    have h₄ := h.pool
    have h₅ := h.apart
    unfold BUFSIZ at *
    omega
  have hbot : BUFSIZ ≤ s.BFPOOL := by
    have h₁ := h.program
    have h₃ := h.endmap
    have h₅ := h.apart
    omega
  unfold NEWBUF
  dsimp only
  rw [hpool]
  by_cases hroom : s.ENDMAP ≤ s.BFPOOL - BUFSIZ
  · rw [if_pos hroom]
    refine ⟨(by rintro ⟨⟩), fun t c ht => ?_⟩
    obtain ⟨rfl, rfl⟩ := Prod.mk.inj (Option.some.inj ht)
    refine ⟨⟨h.program, h.word, h.endmap, ?_, hroom, h.blks, fun n hp hn hc => ?_,
      fun blk hb hz => ?_, fun n hp hn hc => ?_⟩, Same.of_vars rfl rfl rfl rfl rfl rfl rfl rfl
        fun _ => rfl, Nat.succ_pos _, Nat.le_refl _, fun _ ha => ha⟩
    · have h₄ := h.pool
      dsimp only
      unfold BUFSIZ at *
      omega
    · exact h.named n hp (Nat.le_of_lt_succ (Nat.lt_of_le_of_ne hn hc)) hp.ne'
    · obtain ⟨hle, -, hblk⟩ := h.held blk hb hz
      refine ⟨Nat.le_succ_of_le hle, ?_, hblk⟩
      exact fun heq => absurd (heq ▸ hle) (by omega)
    · exact h.clean n hp (Nat.le_of_lt_succ (Nat.lt_of_le_of_ne hn hc)) hp.ne'
  · rw [if_neg hroom]
    by_cases hz : s.NUMBUF = 0
    · rw [if_pos hz]
      exact ⟨fun _ => ⟨hz, by omega⟩, by rintro _ _ ⟨⟩⟩
    · rw [if_neg hz]
      refine ⟨(by rintro ⟨⟩), fun t c ht => ?_⟩
      obtain ⟨rfl, rfl⟩ := Prod.mk.inj (Option.some.inj ht)
      obtain ⟨hpos, hle⟩ := nb1_range (c := s.NUMBUF) (k := s.NUMBUF)
        (Nat.pos_of_ne_zero hz) (Nat.le_refl _) (Nat.le_refl _)
      obtain ⟨hgood, hsame⟩ := SWPOUT_spec h hpos hle
      refine ⟨hgood, hsame, hpos, hle, fun a ha => ?_⟩
      change Function.update s.map _ 0 a = 0
      by_cases hab : a = s.MEMBOT + (s.buf (nb1 s.buf s.NUMBUF s.NUMBUF)).blk
      · rw [hab, Function.update_self]
      · rw [Function.update_of_ne hab, ha]

/-- A block is given to a buffer. -/
def assign (s : Sys β) (c k : ℕ) (b : Buf β) : Sys β :=
  { s with
    buf := Function.update s.buf c b
    map := Function.update s.map (s.MEMBOT + b.blk) c
    NBLKS := k }

/-- It is a block that no other buffer has, and `k` is the number of blocks then. -/
theorem assign_spec (h : s.Good c m) (hpos : 0 < c) (hc : c ≤ s.NUMBUF) (hx : x.blk < k)
    (hlow : s.NBLKS ≤ k) (hm : k ≤ m) (hk : ∀ j < k, j ≠ x.blk → j < s.NBLKS)
    (hfree : ∀ n, 0 < n → n ≤ s.NUMBUF → n ≠ c → (s.buf n).blk ≠ x.blk)
    (hclean : x.dirty = false → ∀ i < 32, x.recs i = s.file x.blk i) :
    (assign s c k x).Good 0 m ∧ ∀ r < 32 * k, (assign s c k x).recs r =
      if r / 32 = x.blk then x.recs (r % 32) else s.recs r := by
  have hmap : ∀ blk ≠ x.blk, (assign s c k x).map (s.MEMBOT + blk) = s.map (s.MEMBOT + blk) :=
    fun blk hne => Function.update_of_ne (by omega) _ _
  have hself : (assign s c k x).map (s.MEMBOT + x.blk) = c := Function.update_self _ _ _
  have hbuf : ∀ n ≠ c, (assign s c k x).buf n = s.buf n := fun n hn => Function.update_of_ne hn _ _
  have hbself : (assign s c k x).buf c = x := Function.update_self _ _ _
  refine ⟨⟨h.program, h.word, h.endmap, h.pool, h.apart, hm, fun n hp hn _ => ?_,
    fun blk hb hz => ?_, fun n hp hn _ hd i hi => ?_⟩, fun r hr => ?_⟩
  · by_cases hnc : n = c
    · subst hnc
      rw [hbself]
      exact ⟨hx, hself⟩
    · rw [hbuf n hnc]
      obtain ⟨hlt, hnm⟩ := h.named n hp hn hnc
      exact ⟨Nat.lt_of_lt_of_le hlt hlow, (hmap _ (hfree n hp hn hnc)).trans hnm⟩
  · change (assign s c k x).map (s.MEMBOT + blk) ≤ s.NUMBUF ∧
      (assign s c k x).map (s.MEMBOT + blk) ≠ 0 ∧
        ((assign s c k x).buf ((assign s c k x).map (s.MEMBOT + blk))).blk = blk
    change (assign s c k x).map (s.MEMBOT + blk) ≠ 0 at hz
    by_cases hbx : blk = x.blk
    · subst hbx
      rw [hself, hbself]
      exact ⟨hc, hpos.ne', rfl⟩
    · rw [hmap blk hbx] at hz ⊢
      obtain ⟨hle, hne, hblk⟩ := h.held blk (hk blk hb hbx) hz
      exact ⟨hle, hz, by rw [hbuf _ hne, hblk]⟩
  · by_cases hnc : n = c
    · subst hnc
      rw [hbself] at hd ⊢
      exact hclean hd i hi
    · rw [hbuf n hnc] at hd ⊢
      exact h.clean n hp hn hnc hd i hi
  · unfold Sys.recs
    change (if r < 32 * k then if (assign s c k x).map (s.MEMBOT + r / 32) = 0 then
      s.file (r / 32) (r % 32) else ((assign s c k x).buf
        ((assign s c k x).map (s.MEMBOT + r / 32))).recs (r % 32) else _) = _
    rw [if_pos hr]
    by_cases hrx : r / 32 = x.blk
    · rw [if_pos hrx, hrx, hself, if_neg hpos.ne', hbself]
    · have hlt := hk (r / 32) (by omega) hrx
      rw [if_neg hrx, hmap _ hrx, if_pos (show r < 32 * s.NBLKS by omega)]
      by_cases hz : s.map (s.MEMBOT + r / 32) = 0
      · rw [if_pos hz, if_pos hz]
      · rw [if_neg hz, if_neg hz, hbuf _ (h.held _ (hk _ (by omega) hrx) hz).2.1]

/-! ### Records -/

theorem lr5_spec (h : s.Good 0 m) (hpos : 0 < n) (hn : n ≤ s.NUMBUF) :
    (lr5 s n b).Good 0 m ∧ Same s (lr5 s n b) := by
  refine ⟨touch_spec h hpos hn rfl fun hd => ?_, Same.of_vars rfl rfl rfl rfl rfl rfl rfl rfl ?_⟩
  · exact ⟨(Bool.or_eq_false_iff.mp hd).1, rfl⟩
  · intro k
    change (Function.update s.buf n _ k).recs = _
    by_cases hk : k = n
    · rw [hk, Function.update_self]
    · rw [Function.update_of_ne hk]

/-- The record at an address. -/
structure At (s : Sys β) (n r : ℕ) : Prop where
  pos : 0 < n
  le : n ≤ s.NUMBUF
  map : s.map (s.MEMBOT + r / 32) = n
  blk : r < 32 * s.NBLKS

theorem At.get (h : At s n r) : s.get n r = s.recs r := by
  rw [recs_of_map h.blk (h.map ▸ h.pos.ne'), h.map]
  rfl

/-- `LDREC` finds a record of the file. -/
theorem LDREC_spec (h : s.Ok) (hr : r ≠ 0) (hlt : r < 32 * s.NBLKS) (b : Bool) :
    ∃ t n, LDREC s r b = some (t, n) ∧ t.Ok ∧ Same s t ∧ At t n r ∧
      (b = true → (t.buf n).dirty = true) := by
  have hsome := h.some (by omega)
  -- a buffer that has the block is used
  have huse : ∀ {u : Sys β} {n : ℕ}, u.Good 0 u.NBLKS → Same s u → 0 < n → n ≤ u.NUMBUF →
      u.map (u.MEMBOT + r / 32) = n → (lr5 u n b).Ok ∧ Same s (lr5 u n b) ∧ At (lr5 u n b) n r ∧
        (b = true → ((lr5 u n b).buf n).dirty = true) := by
    intro u n hu hsame hpos hn hmap
    obtain ⟨hgood, hsame'⟩ := lr5_spec (b := b) hu hpos hn
    have hsame'' := hsame.trans hsame'
    refine ⟨⟨hgood, fun _ => Nat.lt_of_lt_of_le hpos hn, ?_, ?_⟩, hsame'', ⟨hpos, hn, hmap, ?_⟩,
      fun hb => ?_⟩
    · rw [hsame''.NBLKS, hsame''.WFBLKS]
      exact h.size
    · rw [hsame''.WFBLKS]
      exact h.most
    · rw [hsame''.NBLKS]
      exact hlt
    · change (Function.update u.buf n _ n).dirty = true
      rw [Function.update_self, hb, Bool.or_true]
  unfold LDREC
  dsimp only
  rw [if_neg (by omega : ¬(r = 0 ∨ s.NBLKS ≤ r / 32))]
  by_cases hz : s.map (s.MEMBOT + r / 32) = 0
  · rw [if_pos hz]
    obtain ⟨hnone, hget⟩ := NEWBUF_spec h.good
    generalize hnew : NEWBUF s = o at hnone hget
    cases o with
    | none => exact absurd (hnone rfl).1 hsome.ne'
    | some tc =>
      obtain ⟨t, c⟩ := tc
      obtain ⟨hgood, hsame, hpos, hc, hzero⟩ := hget t c rfl
      have hmap : t.map (t.MEMBOT + r / 32) = 0 := hzero _ (hsame.MEMBOT ▸ hz)
      obtain ⟨hgood', hrecs⟩ := assign_spec (k := t.NBLKS)
        (x := ⟨(t.buf c).count, false, r / 32, t.file (r / 32)⟩) hgood hpos hc
        (by rw [hsame.NBLKS]; dsimp only; omega) (Nat.le_refl _) hgood.blks (fun j hj _ => hj)
        (fun n hp hn hne hb => hp.ne' (by rw [← (hgood.named n hp hn hne).2, hb, hmap]))
        fun _ i _ => rfl
      refine ⟨_, c, rfl, huse (hsame.NBLKS ▸ hgood') (hsame.trans ⟨?_, rfl, rfl⟩) hpos hc
        (Function.update_self _ _ _)⟩
      refine flat_ext rfl rfl rfl rfl fun q hq => (hrecs q hq).trans ?_
      split
      · rename_i hqr
        rw [recs_of_file hq (hqr ▸ hmap), hqr]
      · rfl
  · rw [if_neg hz]
    obtain ⟨hle, -, hblk⟩ := h.good.held _ (by omega) hz
    exact ⟨_, _, rfl, huse h.good ⟨rfl, rfl, rfl⟩ (Nat.pos_of_ne_zero hz) hle rfl⟩

/-- A record of a 'dirty' buffer is written. -/
theorem set_spec (h : s.Ok) (ha : At s n r) (hd : (s.buf n).dirty = true) {y : Rec β} :
    (s.set n r y).Ok ∧ (s.set n r y).recs = Function.update s.recs r y := by
  obtain ⟨hpos, hle, hmap, hlt⟩ := ha
  have hbuf : ∀ k ≠ n, (s.set n r y).buf k = s.buf k := fun k hk => Function.update_of_ne hk _ _
  have hself : ((s.set n r y).buf n).recs = Function.update (s.buf n).recs (r % 32) y := by
    change (Function.update s.buf n _ n).recs = _
    rw [Function.update_self]
  refine ⟨⟨touch_spec h.good hpos hle rfl fun hf => ?_, h.some, h.size, h.most⟩, ?_⟩
  · exact absurd (hd.symm.trans hf) (by decide)
  · funext q
    by_cases hqr : q = r
    · subst hqr
      rw [Function.update_self, recs_of_map (s := s.set n q y) hlt (hmap.trans_ne hpos.ne')]
      change ((s.set n q y).buf (s.map (s.MEMBOT + q / 32))).recs (q % 32) = y
      rw [hmap, hself, Function.update_self]
    · rw [Function.update_of_ne hqr]
      unfold Sys.recs
      change (if q < 32 * s.NBLKS then if s.map (s.MEMBOT + q / 32) = 0 then
        s.file (q / 32) (q % 32) else ((s.set n r y).buf (s.map (s.MEMBOT + q / 32))).recs (q % 32)
          else _) = _
      by_cases hlt' : q < 32 * s.NBLKS
      · rw [if_pos hlt', if_pos hlt']
        by_cases hz : s.map (s.MEMBOT + q / 32) = 0
        · rw [if_pos hz, if_pos hz]
        · rw [if_neg hz, if_neg hz]
          by_cases hm : s.map (s.MEMBOT + q / 32) = n
          · have hq : (s.buf n).blk = q / 32 := hm ▸ (h.good.held _ (by omega) hz).2.2
            have hr : (s.buf n).blk = r / 32 :=
              hmap ▸ (h.good.held (r / 32) (by omega) (hmap.trans_ne hpos.ne')).2.2
            rw [hm, hself, Function.update_of_ne (by omega)]
          · rw [hbuf _ hm]
      · rw [if_neg hlt', if_neg hlt']

end RSX280.Ted
