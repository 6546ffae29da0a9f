import RSX280.Bitmap
import RSX280.Search
import Mathlib.Data.Nat.Bitwise
import Mathlib.Tactic.IntervalCases

/-!
# What the bitmap routines do

Seen as a whole the bitmap file is a sequence of bits. `bmsngl_eq` and `bmcntg_eq` say that the
nested loops over blocks, bytes and bits are the searches of `Search` in that sequence.
-/

namespace RSX280.Bitmap

/-! ## Bits of a byte -/

variable {a : UInt8} {p q : ℕ}

theorem toNat_mask (hp : p < 8) : (mask p).toNat = 2 ^ (7 - p) := by
  interval_cases p <;> decide

/-- Bit `p` is unset. -/
theorem and_mask (hp : p < 8) : a &&& mask p = 0 ↔ a.toNat.testBit (7 - p) = false := by
  rw [← UInt8.toNat_inj, UInt8.toNat_and, toNat_mask hp, Nat.and_two_pow]
  cases a.toNat.testBit (7 - p) <;> simp

theorem or_mask (hp : p < 8) (hq : q < 8) :
    (a ||| mask p) &&& mask q = 0 ↔ q ≠ p ∧ a &&& mask q = 0 := by
  rw [and_mask hq, and_mask hq, UInt8.toNat_or, toNat_mask hp, Nat.testBit_or,
    Nat.testBit_two_pow, Bool.or_eq_false_iff, decide_eq_false_iff_not, and_comm]
  exact and_congr_left fun _ => by omega

theorem reset_mask (hp : p < 8) (hq : q < 8) :
    (a &&& ~~~mask p) &&& mask q = 0 ↔ q = p ∨ a &&& mask q = 0 := by
  have hnot : (~~~mask p).toNat.testBit (7 - q) = decide (q ≠ p) := by
    interval_cases p <;> interval_cases q <;> decide
  rw [and_mask hq, and_mask hq, UInt8.toNat_and, Nat.testBit_and, hnot, Bool.and_eq_false_iff,
    decide_eq_false_iff_not, not_not, or_comm]

/-- A byte that is not full has an unset bit. -/
theorem eq_full (h : ∀ p, p < 8 → a &&& mask p ≠ 0) : a = 0xFF := by
  have hbit : ∀ i, a.toNat.testBit i = (2 ^ 8 - 1).testBit i := by
    intro i
    rw [Nat.testBit_two_pow_sub_one]
    by_cases hi : i < 8
    · have := h (7 - i) (by omega)
      rw [ne_eq, and_mask (by omega), show 7 - (7 - i) = i by omega] at this
      simpa [hi] using this
    · have hlt : a.toNat < 2 ^ i := a.toNat_lt.trans_le (Nat.pow_le_pow_right (by decide) (by omega))
      simp [hi, Nat.testBit_lt_two_pow hlt]
  exact UInt8.toNat_inj.mp (Nat.eq_of_testBit_eq hbit)

theorem full_and (hp : p < 8) : (0xFF : UInt8) &&& mask p ≠ 0 := by
  interval_cases p <;> decide

/-! ## The bits of the file -/

/-- The block and the byte in which bit `i` is. -/
def vb (i : ℕ) : ℕ := (i / 8 + bmhsz) / 512

def hp (i : ℕ) : ℕ := (i / 8 + bmhsz) % 512

namespace Blocks

/-- Is bit `i` set? -/
def used (bm : Blocks) (i : ℕ) : Bool := decide (bm (vb i) (hp i) &&& mask (i % 8) ≠ 0)

/-- Set bit `i`. -/
def mark (bm : Blocks) (i : ℕ) : Blocks := bm.set (vb i) (hp i) (mask (i % 8))

end Blocks

theorem bitno_pos (i : ℕ) : bitno (vb i) (hp i) (i % 8) = i := by
  unfold bitno vb hp bmhsz
  omega

theorem pos_bitno {vbn hl : ℕ} (h : bmhsz ≤ vbn * 512 + hl) (hhl : hl < 512) (hp' : p < 8) :
    vb (bitno vbn hl p) = vbn ∧ hp (bitno vbn hl p) = hl ∧ bitno vbn hl p % 8 = p := by
  unfold bitno vb hp bmhsz at *
  omega

/-- Different bits are at different places. -/
theorem pos_inj {i j : ℕ} (h₁ : vb i = vb j) (h₂ : hp i = hp j) (h₃ : i % 8 = j % 8) : i = j := by
  rw [← bitno_pos i, ← bitno_pos j, h₁, h₂, h₃]

theorem used_eq_false {bm : Blocks} {i : ℕ} :
    bm.used i = false ↔ bm (vb i) (hp i) &&& mask (i % 8) = 0 := by
  rw [Blocks.used, decide_eq_false_iff_not, not_not]

theorem set_self (bm : Blocks) (vbn hl : ℕ) (m : UInt8) :
    bm.set vbn hl m vbn hl = bm vbn hl ||| m := by
  rw [Blocks.set, Function.update_self, Function.update_self]

theorem set_of_ne (bm : Blocks) {vbn hl v o : ℕ} (m : UInt8) (h : v = vbn → o ≠ hl) :
    bm.set vbn hl m v o = bm v o := by
  rw [Blocks.set]
  rcases eq_or_ne v vbn with rfl | hv
  · rw [Function.update_self, Function.update_of_ne (h rfl)]
  · rw [Function.update_of_ne hv]

theorem reset_self (bm : Blocks) (vbn hl : ℕ) (m : UInt8) :
    bm.reset vbn hl m vbn hl = bm vbn hl &&& ~~~m := by
  rw [Blocks.reset, Function.update_self, Function.update_self]

theorem reset_of_ne (bm : Blocks) {vbn hl v o : ℕ} (m : UInt8) (h : v = vbn → o ≠ hl) :
    bm.reset vbn hl m v o = bm v o := by
  rw [Blocks.reset]
  rcases eq_or_ne v vbn with rfl | hv
  · rw [Function.update_self, Function.update_of_ne (h rfl)]
  · rw [Function.update_of_ne hv]

theorem used_mark (bm : Blocks) (i j : ℕ) : (bm.mark i).used j = (decide (j = i) || bm.used j) := by
  have hlt : ∀ n, n % 8 < 8 := fun n => Nat.mod_lt n (by decide)
  rw [Bool.eq_iff_iff, Bool.or_eq_true, decide_eq_true_iff, ← not_iff_not, not_or, Bool.not_eq_true,
    Bool.not_eq_true, used_eq_false, used_eq_false, Blocks.mark]
  by_cases h : vb j = vb i ∧ hp j = hp i
  · rw [h.1, h.2, set_self, or_mask (hlt i) (hlt j)]
    refine and_congr_left fun _ => not_congr ⟨pos_inj h.1 h.2, fun hij => hij ▸ rfl⟩
  · rw [set_of_ne _ _ fun hv ho => h ⟨hv, ho⟩]
    refine (and_iff_right ?_).symm
    rintro rfl
    exact h ⟨rfl, rfl⟩

theorem used_bmfree (bm : Blocks) (i j : ℕ) :
    (bmfree bm i).used j = (decide (j ≠ i) && bm.used j) := by
  have hlt : ∀ n, n % 8 < 8 := fun n => Nat.mod_lt n (by decide)
  rw [Bool.eq_iff_iff, Bool.and_eq_true, decide_eq_true_iff, ← not_iff_not, not_and_or, not_not,
    Bool.not_eq_true, Bool.not_eq_true, used_eq_false, used_eq_false, bmfree]
  change (bm.reset (vb i) (hp i) (mask (i % 8))) (vb j) (hp j) &&& mask (j % 8) = 0 ↔ _
  by_cases h : vb j = vb i ∧ hp j = hp i
  · rw [h.1, h.2, reset_self, reset_mask (hlt i) (hlt j)]
    exact or_congr_left ⟨pos_inj h.1 h.2, fun hij => hij ▸ rfl⟩
  · rw [reset_of_ne _ _ fun hv ho => h ⟨hv, ho⟩]
    refine (or_iff_right ?_).symm
    rintro rfl
    exact h ⟨rfl, rfl⟩

/-! ## A single bit -/

/-- The bits of byte `hl` of block `vbn`. -/
theorem used_bitno (bm : Blocks) {vbn hl : ℕ} (h : bmhsz ≤ vbn * 512 + hl) (hhl : hl < 512)
    (hp' : p < 8) : bm.used (bitno vbn hl p) = decide (bm vbn hl &&& mask p ≠ 0) := by
  obtain ⟨h₁, h₂, h₃⟩ := pos_bitno h hhl hp'
  rw [Blocks.used, h₁, h₂, h₃]

/-- `bma4` finds the first unset bit of the byte. -/
theorem first_bma4 (bm : Blocks) {vbn hl : ℕ} (h : bmhsz ≤ vbn * 512 + hl) (hhl : hl < 512)
    (hne : bm vbn hl ≠ 0xFF) :
    bma4 (bm vbn hl) 0 8 < 8 ∧
      Search.first bm.used (bitno vbn hl 0) 8 = some (bitno vbn hl (bma4 (bm vbn hl) 0 8)) := by
  have hgen : ∀ n p, p + n = 8 → (∀ q, q < p → bm vbn hl &&& mask q ≠ 0) →
      bma4 (bm vbn hl) p n < 8 ∧
        Search.first bm.used (bitno vbn hl p) n = some (bitno vbn hl (bma4 (bm vbn hl) p n)) := by
    intro n
    induction n with
    | zero => exact fun p hpn hq => absurd (eq_full fun q hq' => hq q (by omega)) hne
    | succ n ih =>
      intro p hpn hq
      rw [bma4, Search.first, used_bitno bm h hhl (by omega)]
      by_cases hbit : bm vbn hl &&& mask p = 0
      · rw [if_pos hbit, if_neg (by simpa using hbit)]
        exact ⟨by omega, rfl⟩
      · rw [if_neg hbit, if_pos (by simpa using hbit)]
        refine ih (p + 1) (by omega) fun q hq' => ?_
        rcases Nat.lt_succ_iff_lt_or_eq.mp hq' with hq' | rfl
        · exact hq q hq'
        · exact hbit
  exact hgen 8 0 rfl fun q hq => absurd hq (Nat.not_lt_zero q)

/-- A full byte has none. -/
theorem first_full (bm : Blocks) {vbn hl : ℕ} (h : bmhsz ≤ vbn * 512 + hl) (hhl : hl < 512)
    (heq : bm vbn hl = 0xFF) : Search.first bm.used (bitno vbn hl 0) 8 = none := by
  cases hf : Search.first bm.used (bitno vbn hl 0) 8 with
  | none => rfl
  | some i =>
    obtain ⟨h₁, h₂, h₃, -⟩ := Search.first_eq_some hf
    obtain ⟨q, hq, rfl⟩ : ∃ q, q < 8 ∧ i = bitno vbn hl q :=
      ⟨i - bitno vbn hl 0, by unfold bitno at *; omega, by unfold bitno at *; omega⟩
    rw [used_bitno bm h hhl hq, heq, decide_eq_false_iff_not, not_not] at h₃
    exact absurd h₃ (full_and hq)

/-- `bma3` finds the byte of the first unset bit. -/
theorem first_bma3 (bm : Blocks) (vbn : ℕ) : ∀ n hl, bmhsz ≤ vbn * 512 + hl → hl + n ≤ 512 →
    Search.first bm.used (bitno vbn hl 0) (8 * n) =
      (bma3 (bm vbn) hl n).map fun h => bitno vbn h (bma4 (bm vbn h) 0 8) := by
  intro n
  induction n with
  | zero => exact fun _ _ _ => rfl
  | succ n ih =>
    intro hl h hhl
    have hnext : bitno vbn hl 0 + 8 = bitno vbn (hl + 1) 0 := by unfold bitno at *; omega
    rw [show 8 * (n + 1) = 8 + 8 * n by omega, Search.first_append, hnext, bma3]
    split
    · next heq =>
      rw [first_full bm h (by omega) heq, Option.none_or]
      exact ih (hl + 1) (by omega) (by omega)
    · next hne =>
      rw [(first_bma4 bm h (by omega) hne).2]
      rfl

theorem bma3_eq_some {blk : ℕ → UInt8} {hl n h : ℕ} (he : bma3 blk hl n = some h) :
    hl ≤ h ∧ h < hl + n ∧ blk h ≠ 0xFF := by
  induction n generalizing hl with
  | zero => cases he
  | succ n ih =>
    rw [bma3] at he
    split at he
    · obtain ⟨h₁, h₂, h₃⟩ := ih he
      exact ⟨by omega, by omega, h₃⟩
    · next hne =>
      obtain rfl := Option.some.inj he
      exact ⟨le_rfl, by omega, hne⟩

theorem bma7_eq (bm : Blocks) {bits vbn hl : ℕ} (h : bmhsz ≤ vbn * 512 + hl) (hhl : hl < 512)
    (hne : bm vbn hl ≠ 0xFF) :
    let i := bitno vbn hl (bma4 (bm vbn hl) 0 8)
    bma7 bm bits vbn hl = (if i < bits then .ok i else .error .dskf, bm.mark i) := by
  obtain ⟨h₁, h₂, h₃⟩ := pos_bitno h hhl (first_bma4 bm h hhl hne).1
  dsimp only
  rw [Blocks.mark, h₁, h₂, h₃]
  rfl

/-- What `BMSNGL` does with the first unset bit, if there is one. -/
def settle (bm : Blocks) (bits : ℕ) : Option ℕ → Except Err ℕ × Blocks
  | none => (.error .dskf, bm)
  | some i => (if i < bits then .ok i else .error .dskf, bm.mark i)

/-- The loop over blocks, when the first `bmlen` bytes from `offset` on are left. -/
theorem bma2_eq (bm : Blocks) (bits : ℕ) : ∀ n vbn offset bmlen, bmhsz ≤ vbn * 512 + offset →
    offset < 512 → 0 < bmlen → bmlen ≤ n →
    bma2 bm bits n vbn offset (min bmlen (512 - offset)) bmlen =
      settle bm bits (Search.first bm.used (bitno vbn offset 0) (8 * bmlen)) := by
  intro n
  induction n with
  | zero => exact fun _ _ _ _ _ h₀ hn => absurd h₀ (by omega)
  | succ n ih =>
    intro vbn offset bmlen h hoff h₀ hn
    have hpass : passes (min bmlen (512 - offset)) = min bmlen (512 - offset) :=
      if_neg (by omega)
    have hfirst := first_bma3 bm vbn (min bmlen (512 - offset)) offset h (by omega)
    rw [bma2, hpass]
    obtain ⟨rest, hrest⟩ : ∃ rest, bmlen = min bmlen (512 - offset) + rest := 
      ⟨bmlen - min bmlen (512 - offset), by omega⟩
    rw [show 8 * bmlen = 8 * min bmlen (512 - offset) + 8 * rest by omega, Search.first_append,
      hfirst]
    cases hb : bma3 (bm vbn) offset (min bmlen (512 - offset)) with
    | some hl =>
      obtain ⟨h₁, h₂, h₃⟩ := bma3_eq_some hb
      exact bma7_eq bm (by omega) (by omega) h₃
    | none =>
      rw [Option.map_none, Option.none_or]
      dsimp only
      split
      · obtain rfl : rest = 0 := by omega
        rfl
      · have hnext : bitno vbn offset 0 + 8 * min bmlen (512 - offset) = bitno (vbn + 1) 0 0 := by
          unfold bitno bmhsz at *
          omega
        rw [hnext, show bmlen - min bmlen (512 - offset) = rest by omega, ← Nat.sub_zero 512]
        exact ih _ _ _ (by unfold bmhsz; omega) (by omega) (by omega) (by omega)

/-- `BMSNGL` looks for the first unset bit of all the bytes of the bitmap. -/
theorem bmsngl_eq (bm : Blocks) {bits : ℕ} (h : 0 < bits) :
    bmsngl bm bits = settle bm bits (Search.first bm.used 0 (8 * bbytes bits)) := by
  have hlen : 0 < bbytes bits := by unfold bbytes; split <;> omega
  exact bma2_eq bm bits _ 0 bmhsz _ (by decide) (by decide) hlen (by omega)

/-! ## A chain of bits -/

/-- The chain starts at bit `s`. -/
def Chain.At (c : Chain) (s : ℕ) : Prop := c.oldvbn = vb s ∧ c.oldpos = hp s ∧ c.mask = s % 8

/-- The variables hold the current run of the search, when it is at bit `i`. -/
structure Chain.Holds (c : Chain) (i : ℕ) (st : Option ℕ) : Prop where
  first : c.first = st.isNone
  start : ∀ s, st = some s → c.At s ∧ s + c.bitcnt = i

/-- Where the search of `m` more bits stands after some of them: it is done, or goes on with
the `rest`. -/
def Stands (used : ℕ → Bool) (nbits i m : ℕ) (st : Option ℕ) (j rest : ℕ) : Chain × Bool → Prop
  | (c, true) => ∃ s, Search.firstRun used nbits i m st = some s ∧ c.At s
  | (c, false) => ∃ st', c.Holds j st' ∧
      Search.firstRun used nbits i m st = Search.firstRun used nbits j rest st'

/-- An unset bit is added to the chain. -/
theorem Chain.Holds.bmc9 {c : Chain} {i : ℕ} {st : Option ℕ} (h : c.Holds i st) {vbn hl p : ℕ}
    (hi : vb i = vbn ∧ hp i = hl ∧ i % 8 = p) :
    (c.bmc9 vbn hl p).Holds (i + 1) (some (st.getD i)) := by
  obtain ⟨rfl, rfl, rfl⟩ := hi
  rw [Chain.bmc9, h.first]
  cases st with
  | none => exact ⟨rfl, fun s hs => by obtain rfl := Option.some.inj hs; exact ⟨⟨rfl, rfl, rfl⟩, rfl⟩⟩
  | some t =>
    obtain ⟨hat, hcnt⟩ := h.start t rfl
    refine ⟨h.first, fun s hs => ?_⟩
    obtain rfl := Option.some.inj hs
    exact ⟨hat, (Nat.add_assoc ..).symm.trans (congrArg (· + 1) hcnt)⟩

theorem Chain.Holds.reset (c : Chain) (i : ℕ) : ({ c with first := true } : Chain).Holds i none :=
  ⟨rfl, fun _ hs => nomatch hs⟩

theorem stands_bmc4 (bm : Blocks) (nbits : ℕ) {vbn hl : ℕ} (h : bmhsz ≤ vbn * 512 + hl) (hhl : hl < 512)
    (rest : ℕ) : ∀ n p c st, p + n = 8 → c.Holds (bitno vbn hl p) st →
    Stands bm.used nbits (bitno vbn hl p) (n + rest) st (bitno vbn hl p + n) rest
      (bmc4 nbits (bm vbn hl) vbn hl p n c) := by
  intro n
  induction n with
  | zero => exact fun p c st _ hc => ⟨st, hc, by rw [Nat.zero_add, Nat.add_zero]⟩
  | succ n ih =>
    intro p c st hpn hc
    have hnext : bitno vbn hl p + 1 = bitno vbn hl (p + 1) := rfl
    have hstep : bitno vbn hl p + (n + 1) = bitno vbn hl (p + 1) + n := by omega
    have hused := used_bitno bm h hhl (p := p) (by omega)
    rw [bmc4, hstep, Nat.add_right_comm]
    by_cases hbit : bm vbn hl &&& mask p = 0
    · have hc' := hc.bmc9 (pos_bitno h hhl (p := p) (by omega))
      obtain ⟨hat, hcnt⟩ := hc'.start _ rfl
      rw [if_pos hbit]
      dsimp only
      split
      · next hlong =>
        refine ⟨st.getD (bitno vbn hl p), ?_, hat⟩
        rw [Search.firstRun, if_neg (by simpa [hused] using hbit), if_pos (by omega)]
      · next hlong =>
        have hgoes := ih (p + 1) _ _ (by omega) hc'
        rw [Stands.eq_def] at hgoes ⊢
        rw [Search.firstRun, if_neg (by simpa [hused] using hbit), if_neg (by omega)]
        exact hgoes
    · have hgoes := ih (p + 1) { c with first := true } none (by omega) (Chain.Holds.reset c _)
      rw [if_neg hbit]
      rw [Stands.eq_def] at hgoes ⊢
      rw [Search.firstRun, if_pos (by simpa [hused] using hbit)]
      exact hgoes

/-- Where the search stands after some bits and some more. -/
theorem Stands.trans {used : ℕ → Bool} {nbits i m j m' l rest : ℕ} {st st' : Option ℕ}
    {r : Chain × Bool} (h : Stands used nbits j m' st' l rest r)
    (he : Search.firstRun used nbits i m st = Search.firstRun used nbits j m' st') :
    Stands used nbits i m st l rest r := by
  obtain ⟨c, b⟩ := r
  cases b with
  | true =>
    obtain ⟨s, hs, hat⟩ := h
    exact ⟨s, he.trans hs, hat⟩
  | false =>
    obtain ⟨st₁, hc, hs⟩ := h
    exact ⟨st₁, hc, he.trans hs⟩

theorem stands_bmc3 (bm : Blocks) (nbits vbn rest : ℕ) : ∀ n hl c st, bmhsz ≤ vbn * 512 + hl →
    hl + n ≤ 512 → c.Holds (bitno vbn hl 0) st →
    Stands bm.used nbits (bitno vbn hl 0) (8 * n + rest) st (bitno vbn hl 0 + 8 * n) rest
      (bmc3 nbits (bm vbn) vbn hl n c) := by
  intro n
  induction n with
  | zero => exact fun hl c st _ _ hc => ⟨st, hc, by rw [Nat.mul_zero, Nat.zero_add, Nat.add_zero]⟩
  | succ n ih =>
    intro hl c st h hhl hc
    have hnext : bitno vbn hl 0 + 8 = bitno vbn (hl + 1) 0 := by unfold bitno at *; omega
    have hend : bitno vbn hl 0 + 8 * (n + 1) = bitno vbn (hl + 1) 0 + 8 * n := by omega
    rw [bmc3, hend, show 8 * (n + 1) + rest = 8 + (8 * n + rest) by omega]
    split
    · next heq =>
      have hused : ∀ j, bitno vbn hl 0 ≤ j → j < bitno vbn hl 0 + (7 + 1) → bm.used j = true :=
        Search.first_eq_none (first_full bm h (by omega) heq)
      refine (ih (hl + 1) _ none (by omega) (by omega) (Chain.Holds.reset c _)).trans ?_
      rw [← hnext]
      exact Search.firstRun_used hused
    · have hbyte := stands_bmc4 bm nbits h (by omega) (8 * n + rest) 8 0 c st rfl hc
      rw [hnext] at hbyte
      generalize bmc4 nbits (bm vbn hl) vbn hl 0 8 c = r at hbyte
      obtain ⟨c', b⟩ := r
      cases b with
      | true => exact hbyte
      | false =>
        obtain ⟨st', hc', he⟩ := hbyte
        exact (ih (hl + 1) c' st' (by omega) (by omega) hc').trans he

/-- What the search finds, as `BMCNTG` has it. -/
def Finds (o : Option ℕ) : Option Chain → Prop
  | some c => ∃ s, o = some s ∧ c.At s
  | none => o = none

/-- The loop over blocks, when the first `bmlen` bytes from `offset` on are left. -/
theorem finds_bmc2 (bm : Blocks) (nbits : ℕ) : ∀ n vbn offset bmlen c st,
    bmhsz ≤ vbn * 512 + offset → offset < 512 → 0 < bmlen → bmlen ≤ n →
    c.Holds (bitno vbn offset 0) st →
    Finds (Search.firstRun bm.used nbits (bitno vbn offset 0) (8 * bmlen) st)
      (bmc2 bm nbits n vbn offset (min bmlen (512 - offset)) bmlen c) := by
  intro n
  induction n with
  | zero => exact fun _ _ _ _ _ _ _ h₀ hn => absurd h₀ (by omega)
  | succ n ih =>
    intro vbn offset bmlen c st h hoff h₀ hn hc
    have hpass : passes (min bmlen (512 - offset)) = min bmlen (512 - offset) :=
      if_neg (by omega)
    obtain ⟨rest, hrest⟩ : ∃ rest, bmlen = min bmlen (512 - offset) + rest :=
      ⟨bmlen - min bmlen (512 - offset), by omega⟩
    have hblock := stands_bmc3 bm nbits vbn (8 * rest) (min bmlen (512 - offset)) offset c st h
      (by omega) hc
    rw [bmc2, hpass, show 8 * bmlen = 8 * min bmlen (512 - offset) + 8 * rest by omega]
    generalize bmc3 nbits (bm vbn) vbn offset (min bmlen (512 - offset)) c = r at hblock
    obtain ⟨c', b⟩ := r
    cases b with
    | true => exact hblock
    | false =>
      obtain ⟨st', hc', he⟩ := hblock
      rw [he]
      dsimp only
      split
      · obtain rfl : rest = 0 := by omega
        exact rfl
      · have hnext : bitno vbn offset 0 + 8 * min bmlen (512 - offset) = bitno (vbn + 1) 0 0 := by
          unfold bitno bmhsz at *
          omega
        rw [hnext] at hc' ⊢
        rw [show bmlen - min bmlen (512 - offset) = rest by omega, ← Nat.sub_zero 512]
        exact ih _ _ _ c' st' (by unfold bmhsz; omega) (by omega) (by omega) (by omega) hc'

end RSX280.Bitmap
