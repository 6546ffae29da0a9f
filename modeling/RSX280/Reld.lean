import RSX280.Genrel

/-!
# The librarian's object file reader

`RELD` of `lbr/lbr.mac` fetches the file bit by bit and dispatches on the type of each item. The
items it comes across are collected in `Genrel.Item`; what `SNBITS` skips is returned with them, so
that the skipped values can be compared with the written ones.

An object file closed by the assembler is read back item by item if and only if no ident has more
than seven characters: the ident shares its three-bit length with the type character, and the
length of nine that an eighth character gives is written as one.
-/

namespace RSX280.Reld

open BitString Genrel

/-- The state of the reader: `BITCNT` bits of `BYTE` are used up, `input` are the bytes to come. -/
structure Rd where
  BITCNT : ℕ
  BYTE : ℕ
  input : List ℕ
  deriving DecidableEq

def rlca (a : ℕ) : ℕ := 2 * a % 256 + a / 128 % 2

/-- `FGETRB`: nothing when the file ends here, which the librarian gives up on. -/
def FGETRB (r : Rd) : Option Rd :=
  match r.input with
  | [] => none
  | b :: input => some { BITCNT := 0, BYTE := b, input }

/-- `GETBIT`. -/
def GETBIT (r : Rd) : Option (ℕ × Rd) :=
  (if r.BITCNT = 8 then FGETRB r else some r).map fun r =>
    (rlca r.BYTE % 2, { r with BITCNT := (r.BITCNT + 1) % 256, BYTE := rlca r.BYTE })

/-- `gn1`: `b` more bits are shifted into `c`. -/
def gn1 : ℕ → ℕ → Rd → Option (ℕ × Rd)
  | 0, c, r => some (c, r)
  | b + 1, c, r => (GETBIT r).bind fun p => gn1 b (p.1 ||| rlca c) p.2

def GNBITS (c : ℕ) (r : Rd) : Option (ℕ × Rd) := gn1 c 0 r

/-- `SNBITS`: the bits skipped are dropped by the code. -/
def SNBITS : ℕ → Rd → Option (List Bool × Rd)
  | 0, r => some ([], r)
  | c + 1, r => (GETBIT r).bind fun p =>
      (SNBITS c p.2).map fun q => ((p.1 == 1) :: q.1, q.2)

/-- `FLD.A`: the segment, which the code keeps in the two upper bits, and the address. -/
def FLDA (r : Rd) : Option ((ℕ × ℕ) × Rd) :=
  (GNBITS 2 r).bind fun seg => (GNBITS 8 seg.2).bind fun l => (GNBITS 8 l.2).map fun h =>
    ((seg.1, l.1 + 256 * h.1), h.2)

/-- `fb1`: characters without their parity bit. -/
def fb1 : ℕ → Rd → Option (List ℕ × Rd)
  | 0, r => some ([], r)
  | b + 1, r => (GNBITS 8 r).bind fun p => (fb1 b p.2).map fun q => (p.1 % 128 :: q.1, q.2)

/-- `FLD.B`: a length of zero stands for eight. -/
def FLDB (r : Rd) : Option (List ℕ × Rd) :=
  (GNBITS 3 r).bind fun len => fb1 ((len.1 + 255) % 8 + 1) len.2

/-- `SGTAB`: the fields the routine of each special item reads. `SEG.E` goes on at the next byte. -/
def SGTAB (t : ℕ) (r : Rd) : Option (Item × Rd) :=
  if t ≤ 4 then (FLDB r).map fun b => (.spec t none (some b.1), b.2)
  else if t ≤ 7 then
    (FLDA r).bind fun a => (FLDB a.2).map fun b => (.spec t (some a.1) (some b.1), b.2)
  else if t ≤ 13 then (FLDA r).map fun a => (.spec t (some a.1) none, a.2)
  else if t = 14 then (FLDA r).map fun a => (.spec t (some a.1) none, { a.2 with BITCNT := 8 })
  else some (.spec t none none, r)

/-- One round of `RELD`. -/
def RELD1 (r : Rd) : Option (Item × Rd) :=
  (GETBIT r).bind fun p =>
    if p.1 = 0 then (SNBITS 8 p.2).map fun q => (.abs (valOf q.1), q.2)
    else (GNBITS 2 p.2).bind fun seg =>
      if seg.1 = 0 then (GNBITS 4 seg.2).bind fun t => SGTAB (t.1 % 16) t.2
      else (SNBITS 16 seg.2).map fun q =>
        (.rel seg.1 (valOf (q.1.take 8) + 256 * valOf (q.1.drop 8)), q.2)

/-- `RELD`: rounds up to the end of the file, which returns, or until the bytes run out. -/
def RELD : ℕ → Rd → List Item × Option Rd
  | 0, _ => ([], none)
  | n + 1, r =>
    match RELD1 r with
    | none => ([], none)
    | some (i, r) => if i = .eof then ([i], some r) else (i :: (RELD n r).1, (RELD n r).2)

/-- What the librarian reads from a file: every round takes a bit at least. `BYTE` is what the file
before left there. -/
def read (byte : ℕ) (file : List ℕ) : List Item × Option Rd :=
  RELD (8 * file.length + 1) { BITCNT := 8, BYTE := byte, input := file }

/-- `SEG.4` enters the ident: it removes the type character and keeps six characters at most. -/
def SEG4 (name : List ℕ) : Option (List ℕ) :=
  if name.head? ≠ some 0x49 then none
  else if name.length = 1 then none
  else some (name.tail.take 6)

/-! ### The string of bits -/

/-- The bits to come: what is left of `BYTE`, and the file. -/
def Rd.bits (r : Rd) : List Bool := bitsOf (8 - r.BITCNT) (r.BYTE / 2 ^ r.BITCNT) ++ ofBytes r.input

/-- Between two bits `BITCNT` is from one to eight. -/
structure Rd.Ok (r : Rd) : Prop where
  pos : 0 < r.BITCNT
  le : r.BITCNT ≤ 8

theorem testBit_rlca (a : ℕ) {i : ℕ} (hi : i < 7) : (rlca a).testBit (i + 1) = a.testBit i := by
  have half : rlca a / 2 = a % 2 ^ 7 := by
    unfold rlca
    omega
  rw [Nat.testBit_succ, half, Nat.testBit_mod_two_pow, decide_eq_true hi, Bool.true_and]

/-- The bit `rlca` brings down is the upper one. -/
theorem rlca_mod (a : ℕ) : rlca a % 2 = (a.testBit 7).toNat := by
  rw [Nat.toNat_testBit]
  unfold rlca
  omega

/-- What is left of a byte `k` bits of which are used, the next one rotated out. -/
theorem bitsOf_rlca (a : ℕ) {k : ℕ} (hk : k < 8) :
    bitsOf (8 - k) (a / 2 ^ k) = a.testBit 7 :: bitsOf (8 - (k + 1)) (rlca a / 2 ^ (k + 1)) := by
  have top : (a / 2 ^ k).testBit (7 - k) = a.testBit 7 := by
    rw [Nat.testBit_div_two_pow]
    congr 1
    omega
  rw [show 8 - k = 7 - k + 1 by omega, show 8 - (k + 1) = 7 - k by omega, bitsOf, top]
  congr 1
  refine bitsOf_congr fun i hi => ?_
  rw [Nat.testBit_div_two_pow, Nat.testBit_div_two_pow, show i + (k + 1) = i + k + 1 by omega,
    testBit_rlca a (by omega)]

/-- `GETBIT` takes the next bit. -/
theorem GETBIT_bits {r : Rd} {b : Bool} {rest : List Bool} (ho : r.Ok) (h : r.bits = b :: rest) :
    ∃ r', GETBIT r = some (b.toNat, r') ∧ r'.bits = rest ∧ r'.Ok := by
  -- the byte the bit is taken from, and its bits
  have taken : ∀ q : Rd, q.BITCNT < 8 → q.bits = b :: rest →
      ∃ r', some (rlca q.BYTE % 2, { q with BITCNT := (q.BITCNT + 1) % 256, BYTE := rlca q.BYTE })
        = some (b.toNat, r') ∧ r'.bits = rest ∧ r'.Ok := by
    intro q hq hb
    have small : (q.BITCNT + 1) % 256 = q.BITCNT + 1 := Nat.mod_eq_of_lt (by omega)
    rw [Rd.bits, bitsOf_rlca q.BYTE hq, List.cons_append, List.cons.injEq] at hb
    refine ⟨_, by rw [rlca_mod, hb.1], ?_, ⟨?_, ?_⟩⟩
    · rw [← hb.2]
      simp only [Rd.bits, small]
    · show 0 < (q.BITCNT + 1) % 256
      omega
    · show (q.BITCNT + 1) % 256 ≤ 8
      omega
  unfold GETBIT
  by_cases full : r.BITCNT = 8
  · rw [if_pos full]
    cases hi : r.input with
    | nil =>
      rw [Rd.bits, full, hi] at h
      cases h
    | cons a input =>
      have fetched : FGETRB r = some { BITCNT := 0, BYTE := a, input } := by rw [FGETRB, hi]
      rw [fetched]
      refine taken _ (Nat.zero_lt_succ 7) ?_
      rw [← h, Rd.bits, Rd.bits, full, hi, Nat.pow_zero, Nat.div_one]
      rfl
  · have hb := ho.le
    rw [if_neg full]
    exact taken r (by omega) h

/-- `gn1` reads the bits behind those of `c`. -/
theorem gn1_bits {bs : List Bool} {c : ℕ} {r : Rd} {rest : List Bool} (ho : r.Ok)
    (hl : bs.length ≤ 8) (hc : c < 2 ^ (8 - bs.length)) (h : r.bits = bs ++ rest) :
    ∃ r', gn1 bs.length c r = some (bs.foldl (fun a b => 2 * a + b.toNat) c, r')
      ∧ r'.bits = rest ∧ r'.Ok := by
  induction bs generalizing c r with
  | nil => exact ⟨r, rfl, h, ho⟩
  | cons b bs ih =>
    rw [List.length_cons] at hl hc
    have room : 2 ^ (8 - bs.length) = 2 * 2 ^ (8 - (bs.length + 1)) := by
      rw [show 8 - bs.length = 8 - (bs.length + 1) + 1 by omega, Nat.pow_succ, Nat.mul_comm]
    have most : 2 ^ (8 - (bs.length + 1)) ≤ 2 ^ 7 := Nat.pow_le_pow_right (by decide) (by omega)
    have or : b.toNat ||| rlca c = 2 * c + b.toNat := by
      have double : rlca c = 2 * c := by
        unfold rlca
        omega
      rw [double, Nat.or_comm]
      cases b
      · rw [Bool.toNat_false, Nat.or_zero, Nat.add_zero]
      · exact (Nat.two_pow_add_eq_or_of_lt (i := 1) (show 1 < 2 ^ 1 by decide) c).symm
    obtain ⟨r₁, got, bits₁, ok₁⟩ := GETBIT_bits ho h
    obtain ⟨r₂, got₂, bits₂, ok₂⟩ := ih (c := 2 * c + b.toNat) ok₁ (by omega)
      (by cases b <;> simp only [Bool.toNat_false, Bool.toNat_true] <;> omega) bits₁
    refine ⟨r₂, ?_, bits₂, ok₂⟩
    rw [List.length_cons, gn1, got, Option.bind_some, or, got₂, List.foldl_cons]

/-- A number of `n` bits. -/
theorem GNBITS_bits {n v : ℕ} {r : Rd} {rest : List Bool} (ho : r.Ok) (hn : n ≤ 8)
    (h : r.bits = bitsOf n v ++ rest) :
    ∃ r', GNBITS n r = some (v % 2 ^ n, r') ∧ r'.bits = rest ∧ r'.Ok := by
  obtain ⟨r', got, bits, ok⟩ := gn1_bits (c := 0) ho (by rwa [bitsOf_length]) (Nat.two_pow_pos _) h
  rw [bitsOf_length, show (bitsOf n v).foldl (fun a b => 2 * a + b.toNat) 0 = valOf (bitsOf n v)
    from rfl, valOf_bitsOf] at got
  exact ⟨r', got, bits, ok⟩

theorem SNBITS_bits {bs : List Bool} {r : Rd} {rest : List Bool} (ho : r.Ok)
    (h : r.bits = bs ++ rest) :
    ∃ r', SNBITS bs.length r = some (bs, r') ∧ r'.bits = rest ∧ r'.Ok := by
  induction bs generalizing r with
  | nil => exact ⟨r, rfl, h, ho⟩
  | cons b bs ih =>
    obtain ⟨r₁, got, bits₁, ok₁⟩ := GETBIT_bits ho h
    obtain ⟨r₂, got₂, bits₂, ok₂⟩ := ih ok₁ bits₁
    refine ⟨r₂, ?_, bits₂, ok₂⟩
    have same : (b.toNat == 1) = b := by cases b <;> rfl
    rw [List.length_cons, SNBITS, got, Option.bind_some, got₂, Option.map_some, same]

/-! ### The fields -/

/-- A word, low byte first. -/
theorem word_bits {v : ℕ} {r : Rd} {rest : List Bool} (ho : r.Ok)
    (h : r.bits = Item.codeWord v ++ rest) (hv : v < 65536) :
    ∃ l r₁ hi r₂, GNBITS 8 r = some (l, r₁) ∧ GNBITS 8 r₁ = some (hi, r₂) ∧ l + 256 * hi = v
      ∧ r₂.bits = rest ∧ r₂.Ok := by
  rw [Item.codeWord, List.append_assoc] at h
  obtain ⟨r₁, got₁, bits₁, ok₁⟩ := GNBITS_bits ho (Nat.le_refl 8) h
  obtain ⟨r₂, got₂, bits₂, ok₂⟩ := GNBITS_bits ok₁ (Nat.le_refl 8) bits₁
  exact ⟨_, r₁, _, r₂, got₁, got₂, by omega, bits₂, ok₂⟩

theorem FLDA_bits {A : ℕ × ℕ} {r : Rd} {rest : List Bool} (ho : r.Ok)
    (h : r.bits = Item.codeA A ++ rest) (hs : A.1 < 4) (hv : A.2 < 65536) :
    ∃ r', FLDA r = some (A, r') ∧ r'.bits = rest ∧ r'.Ok := by
  rw [Item.codeA, List.append_assoc] at h
  obtain ⟨r₁, got, bits₁, ok₁⟩ := GNBITS_bits ho (show 2 ≤ 8 by decide) h
  obtain ⟨l, r₂, hi, r₃, low, high, value, bits₃, ok₃⟩ := word_bits ok₁ bits₁ hv
  have seg : A.1 % 2 ^ 2 = A.1 := Nat.mod_eq_of_lt hs
  refine ⟨r₃, ?_, bits₃, ok₃⟩
  rw [FLDA, got, Option.bind_some, low, Option.bind_some, high, Option.map_some, value, seg]

theorem fb1_bits {B : List ℕ} {r : Rd} {rest : List Bool} (ho : r.Ok)
    (h : r.bits = ofBytes B ++ rest) :
    ∃ r', fb1 B.length r = some (B.map (· % 128), r') ∧ r'.bits = rest ∧ r'.Ok := by
  induction B generalizing r with
  | nil => exact ⟨r, rfl, h, ho⟩
  | cons c B ih =>
    rw [ofBytes_cons, List.append_assoc] at h
    obtain ⟨r₁, got, bits₁, ok₁⟩ := GNBITS_bits ho (Nat.le_refl 8) h
    obtain ⟨r₂, got₂, bits₂, ok₂⟩ := ih ok₁ bits₁
    have char : c % 2 ^ 8 % 128 = c % 128 := by omega
    refine ⟨r₂, ?_, bits₂, ok₂⟩
    rw [List.length_cons, fb1, got, Option.bind_some, got₂, Option.map_some, char, List.map_cons]

/-- `FLD.B` reads as many characters as the three bits of the length say. -/
theorem FLDB_take {B : List ℕ} {l : ℕ} {r : Rd} {rest : List Bool} (ho : r.Ok)
    (h : r.bits = Item.codeB B ++ rest) (hl : (B.length % 8 + 255) % 8 + 1 = l)
    (le : l ≤ B.length) :
    ∃ r', FLDB r = some ((B.take l).map (· % 128), r')
      ∧ r'.bits = ofBytes (B.drop l) ++ rest ∧ r'.Ok := by
  rw [Item.codeB, List.append_assoc] at h
  obtain ⟨r₁, got, bits₁, ok₁⟩ := GNBITS_bits ho (show 3 ≤ 8 by decide) h
  rw [← List.take_append_drop l B, ofBytes_append, List.append_assoc] at bits₁
  obtain ⟨r₂, got₂, bits₂, ok₂⟩ := fb1_bits ok₁ bits₁
  rw [List.length_take, Nat.min_eq_left le] at got₂
  refine ⟨r₂, ?_, bits₂, ok₂⟩
  rw [FLDB, got, Option.bind_some]
  dsimp only
  rw [show B.length % 2 ^ 3 = B.length % 8 from rfl, hl, got₂]

/-- A B field of the format: one to eight characters of seven bits. -/
def Field (B : List ℕ) : Prop := 0 < B.length ∧ B.length ≤ 8 ∧ ∀ c ∈ B, c < 128

theorem FLDB_bits {B : List ℕ} {r : Rd} {rest : List Bool} (ho : r.Ok)
    (h : r.bits = Item.codeB B ++ rest) (hB : Field B) :
    ∃ r', FLDB r = some (B, r') ∧ r'.bits = rest ∧ r'.Ok := by
  obtain ⟨pos, le, chars⟩ := hB
  obtain ⟨r', got, bits, ok⟩ := FLDB_take (l := B.length) ho h (by omega) (Nat.le_refl _)
  rw [List.drop_length, ofBytes_nil, List.nil_append] at bits
  have seven : B.map (· % 128) = B :=
    (List.map_congr_left fun c hc => Nat.mod_eq_of_lt (chars c hc)).trans (List.map_id B)
  rw [List.take_length, seven] at got
  exact ⟨r', got, bits, ok⟩

/-! ### The items -/

/-- The fields an item of the format has. -/
def Sound : Item → Prop
  | .abs a => a < 256
  | .rel seg hl => 0 < seg ∧ seg < 4 ∧ hl < 65536
  | .spec t A B => t < 16
      ∧ (A.isSome ↔ 5 ≤ t ∧ t ≤ 14) ∧ (B.isSome ↔ t ≤ 7)
      ∧ (∀ a ∈ A, a.1 < 4 ∧ a.2 < 65536) ∧ (∀ b ∈ B, Field b)

/-- The type of a special item is dispatched on. -/
theorem RELD1_spec {t : ℕ} {r : Rd} {rest : List Bool} (ho : r.Ok) (ht : t < 16)
    (h : r.bits = Item.codeType t ++ rest) :
    ∃ r', RELD1 r = SGTAB t r' ∧ r'.bits = rest ∧ r'.Ok := by
  rw [Item.codeType, List.cons_append, List.cons_append, List.append_assoc] at h
  obtain ⟨r₁, got₁, bits₁, ok₁⟩ := GETBIT_bits ho h
  obtain ⟨r₂, got₂, bits₂, ok₂⟩ := GNBITS_bits ok₁ (show 2 ≤ 8 by decide) bits₁
  obtain ⟨r₃, got₃, bits₃, ok₃⟩ := GNBITS_bits ok₂ (show 4 ≤ 8 by decide) bits₂
  have type : t % 2 ^ 4 % 16 = t := by omega
  refine ⟨r₃, ?_, bits₃, ok₃⟩
  simp only [RELD1, got₁, Option.bind_some, Bool.toNat_true, Nat.one_ne_zero, if_false, got₂,
    Nat.zero_mod, if_true, got₃, type]

/-- The bits up to the next byte are skipped when fewer than eight are left of this one. -/
theorem skip_bits {r : Rd} {k : ℕ} {file : List ℕ} (ho : r.Ok) (hk : k < 8)
    (h : r.bits = pad k ++ ofBytes file) : ({ r with BITCNT := 8 } : Rd).bits = ofBytes file := by
  have pos := ho.pos
  have le := ho.le
  have len := congrArg List.length h
  rw [Rd.bits, List.length_append, List.length_append, bitsOf_length, ofBytes_length,
    ofBytes_length, pad, List.length_replicate] at len
  have parts := (List.append_inj h (by rw [bitsOf_length, pad, List.length_replicate]; omega)).2
  rw [← parts]
  rfl

/-- One round reads one item, when it is not the end of a module. -/
theorem RELD1_bits {i : Item} {r : Rd} {rest : List Bool} (ho : r.Ok) (hi : Sound i)
    (hne : ∀ A B, i ≠ .spec 14 A B) (h : r.bits = i.code ++ rest) :
    ∃ r', RELD1 r = some (i, r') ∧ r'.bits = rest ∧ r'.Ok := by
  cases i with
  | abs a =>
    obtain ⟨r₁, got₁, bits₁, ok₁⟩ := GETBIT_bits ho h
    obtain ⟨r₂, got₂, bits₂, ok₂⟩ := SNBITS_bits ok₁ bits₁
    have value : valOf (bitsOf 8 a) = a := by
      rw [valOf_bitsOf]
      exact Nat.mod_eq_of_lt hi
    rw [bitsOf_length] at got₂
    refine ⟨r₂, ?_, bits₂, ok₂⟩
    simp only [RELD1, got₁, Option.bind_some, Bool.toNat_false, if_true, got₂, Option.map_some,
      value]
  | rel seg hl =>
    obtain ⟨pos, four, word⟩ := hi
    rw [Item.code, List.cons_append, List.cons_append, List.append_assoc] at h
    obtain ⟨r₁, got₁, bits₁, ok₁⟩ := GETBIT_bits ho h
    obtain ⟨r₂, got₂, bits₂, ok₂⟩ := GNBITS_bits ok₁ (show 2 ≤ 8 by decide) bits₁
    obtain ⟨r₃, got₃, bits₃, ok₃⟩ := SNBITS_bits ok₂ bits₂
    have same : seg % 2 ^ 2 = seg := Nat.mod_eq_of_lt four
    have sixteen : (Item.codeWord hl).length = 16 := by
      rw [Item.codeWord, List.length_append, bitsOf_length, bitsOf_length]
    have value : valOf ((Item.codeWord hl).take 8) + 256 * valOf ((Item.codeWord hl).drop 8)
        = hl := by
      rw [Item.codeWord, List.take_left' (bitsOf_length _ _), List.drop_left' (bitsOf_length _ _),
        valOf_bitsOf, valOf_bitsOf]
      omega
    rw [sixteen] at got₃
    refine ⟨r₃, ?_, bits₃, ok₃⟩
    simp only [RELD1, got₁, Option.bind_some, Bool.toNat_true, Nat.one_ne_zero, if_false, got₂, same,
      Nat.ne_of_gt pos, got₃, Option.map_some, value]
  | spec t A B =>
    obtain ⟨ht, hasA, hasB, okA, okB⟩ := hi
    have head : r.bits = Item.codeType t ++ ((A.map Item.codeA).getD []
        ++ ((B.map Item.codeB).getD [] ++ rest)) := by
      rw [h]
      simp only [Item.code, Item.codeType, List.append_assoc, List.cons_append]
    obtain ⟨r₁, round, bits₁, ok₁⟩ := RELD1_spec ho ht head
    rw [round]
    unfold SGTAB
    rcases A with _ | A <;> rcases B with _ | B
    · -- no field: the end of the file
      have none₁ : ¬ (5 ≤ t ∧ t ≤ 14) := fun c => Bool.false_ne_true (hasA.mpr c)
      have none₂ : ¬ t ≤ 7 := fun c => Bool.false_ne_true (hasB.mpr c)
      rw [if_neg (by omega), if_neg none₂, if_neg (by omega), if_neg (by omega)]
      exact ⟨r₁, rfl, bits₁, ok₁⟩
    · -- the B field alone
      have none₁ : ¬ (5 ≤ t ∧ t ≤ 14) := fun c => Bool.false_ne_true (hasA.mpr c)
      have some₂ : t ≤ 7 := hasB.mp rfl
      obtain ⟨r₂, got, bits₂, ok₂⟩ := FLDB_bits ok₁ bits₁ (okB B rfl)
      rw [if_pos (by omega), got, Option.map_some]
      exact ⟨r₂, rfl, bits₂, ok₂⟩
    · -- the A field alone, of all but the end of a module
      have some₁ : 5 ≤ t ∧ t ≤ 14 := hasA.mp rfl
      have none₂ : ¬ t ≤ 7 := fun c => Bool.false_ne_true (hasB.mpr c)
      have not_end : t ≠ 14 := fun c => hne (some A) none (by rw [c])
      obtain ⟨r₂, got, bits₂, ok₂⟩ := FLDA_bits ok₁ bits₁ (okA A rfl).1 (okA A rfl).2
      rw [if_neg (by omega), if_neg none₂, if_pos (by omega), got, Option.map_some]
      exact ⟨r₂, rfl, bits₂, ok₂⟩
    · -- both
      have some₁ : 5 ≤ t ∧ t ≤ 14 := hasA.mp rfl
      have some₂ : t ≤ 7 := hasB.mp rfl
      obtain ⟨r₂, got, bits₂, ok₂⟩ := FLDA_bits ok₁ bits₁ (okA A rfl).1 (okA A rfl).2
      obtain ⟨r₃, got₃, bits₃, ok₃⟩ := FLDB_bits ok₂ bits₂ (okB B rfl)
      rw [if_neg (by omega), if_pos some₂, got, Option.bind_some, got₃, Option.map_some]
      exact ⟨r₃, rfl, bits₃, ok₃⟩

/-- The end of a module is read with the bits that fill its last byte. -/
theorem RELD1_eom {seg hl k : ℕ} {r : Rd} {file : List ℕ} (ho : r.Ok) (hs : seg < 4)
    (hv : hl < 65536) (hk : k < 8)
    (h : r.bits = (Item.eom seg hl).code ++ (pad k ++ ofBytes file)) :
    ∃ r', RELD1 r = some (.eom seg hl, r') ∧ r'.bits = ofBytes file ∧ r'.Ok := by
  have head : r.bits = Item.codeType 14 ++ (Item.codeA (seg, hl) ++ (pad k ++ ofBytes file)) := by
    rw [h]
    simp only [Item.eom, Item.code, Item.codeType, Option.map_some, Option.map_none,
      Option.getD_some, Option.getD_none, List.append_nil, List.append_assoc, List.cons_append]
  obtain ⟨r₁, round, bits₁, ok₁⟩ := RELD1_spec ho (by decide) head
  obtain ⟨r₂, got, bits₂, ok₂⟩ := FLDA_bits ok₁ bits₁ hs hv
  refine ⟨{ r₂ with BITCNT := 8 }, ?_, skip_bits ok₂ hk bits₂, ⟨Nat.zero_lt_succ 7, Nat.le_refl 8⟩⟩
  rw [round, SGTAB, if_neg (by decide), if_neg (by decide), if_neg (by decide), if_pos rfl, got]
  rfl

/-- An ident of eight characters is read as one without a name. -/
theorem RELD1_long {name : List ℕ} {r : Rd} {rest : List Bool} (ho : r.Ok)
    (hl : name.length = 8) (h : r.bits = (Item.spec 4 none (some (0x49 :: name))).code ++ rest) :
    ∃ r', RELD1 r = some (.spec 4 none (some [0x49]), r') := by
  have head : r.bits = Item.codeType 4 ++ (Item.codeB (0x49 :: name) ++ rest) := by
    rw [h]
    simp only [Item.code, Item.codeType, Option.map_some, Option.map_none, Option.getD_some,
      Option.getD_none, List.append_nil, List.append_assoc, List.cons_append]
  obtain ⟨r₁, round, bits₁, ok₁⟩ := RELD1_spec ho (by decide) head
  obtain ⟨r₂, got, _, _⟩ := FLDB_take (l := 1) ok₁ bits₁ (by rw [List.length_cons, hl])
    (by rw [List.length_cons]; omega)
  refine ⟨r₂, ?_⟩
  rw [round, SGTAB, if_pos (by decide), got]
  rfl

/-! ### The file -/

/-- The items an assembly can put before the end of its module. -/
def Body (i : Item) : Prop := Sound i ∧ (∀ A B, i ≠ .spec 14 A B) ∧ i ≠ .eof

/-- A run over sound items returns them and goes on behind them. -/
theorem RELD_body {is : List Item} {n : ℕ} {r : Rd} {rest : List Bool} (ho : r.Ok)
    (hs : ∀ i ∈ is, Body i) (h : r.bits = is.flatMap Item.code ++ rest) :
    ∃ r', RELD (is.length + n) r = (is ++ (RELD n r').1, (RELD n r').2) ∧ r'.bits = rest
      ∧ r'.Ok := by
  induction is generalizing r with
  | nil => exact ⟨r, by rw [List.length_nil, Nat.zero_add]; rfl, h, ho⟩
  | cons i is ih =>
    obtain ⟨sound, not_end, not_eof⟩ := hs i List.mem_cons_self
    rw [List.flatMap_cons, List.append_assoc] at h
    obtain ⟨r₁, round, bits₁, ok₁⟩ := RELD1_bits ho sound not_end h
    obtain ⟨r₂, more, bits₂, ok₂⟩ := ih ok₁ (fun j hj => hs j (List.mem_cons_of_mem _ hj)) bits₁
    refine ⟨r₂, ?_, bits₂, ok₂⟩
    rw [List.length_cons, Nat.add_right_comm, RELD, round]
    dsimp only
    rw [if_neg not_eof, more]
    rfl

/-- An ident the length field does not hold. -/
def Long (i : Item) : Prop := ∃ name : List ℕ, name.length = 8 ∧ i = .spec 4 none (some (0x49 :: name))

/-- What was returned item by item had no such ident in it. -/
theorem RELD_no_long {is tail : List Item} {n : ℕ} {r : Rd} {rest : List Bool} (ho : r.Ok)
    (hs : ∀ i ∈ is, Body i ∨ Long i) (h : r.bits = is.flatMap Item.code ++ rest)
    (he : (RELD n r).1 = is ++ tail) : ∀ i ∈ is, ¬ Long i := by
  induction is generalizing n r with
  | nil => exact fun i hi => absurd hi List.not_mem_nil
  | cons i is ih =>
    rw [List.flatMap_cons, List.append_assoc] at h
    cases n with
    | zero => cases he
    | succ n =>
      rw [RELD] at he
      rcases hs i List.mem_cons_self with ⟨sound, not_end, not_eof⟩ | ⟨name, len, rfl⟩
      · obtain ⟨r₁, round, bits₁, ok₁⟩ := RELD1_bits ho sound not_end h
        rw [round] at he
        dsimp only at he
        rw [if_neg not_eof, List.cons_append, List.cons.injEq] at he
        have others := ih ok₁ (fun j hj => hs j (List.mem_cons_of_mem _ hj)) bits₁ he.2
        have here : ¬ Long i := by
          rintro ⟨name, len, rfl⟩
          have field := (sound.2.2.2.2 _ rfl).2.1
          rw [List.length_cons, len] at field
          omega
        intro j hj
        rcases List.mem_cons.mp hj with rfl | hj
        · exact here
        · exact others j hj
      · -- the round gives an ident without a name
        obtain ⟨r₁, round⟩ := RELD1_long ho len h
        rw [round] at he
        dsimp only at he
        rw [if_neg (by decide), List.cons_append, List.cons.injEq] at he
        have same := he.1
        injection same with _ _ names
        injection names with chars
        injection chars with _ empty
        rw [← empty] at len
        cases len

theorem field_take {name : List ℕ} {n : ℕ} (h : Name name) (hn : 0 < n) (hm : n ≤ 8) :
    Field (name.take n) := by
  obtain ⟨pos, _, chars⟩ := h
  refine ⟨?_, ?_, fun c hc => chars c (List.mem_of_mem_take hc)⟩ <;> rw [List.length_take] <;> omega

/-- An item that is not a special one. -/
theorem body_plain {i : Item} (hs : Sound i) (h : ∀ t A B, i ≠ .spec t A B) : Body i :=
  ⟨hs, h 14, h 15 none none⟩

section special

variable {t : ℕ} {A : ℕ × ℕ} {B : List ℕ}

theorem body_B (ht : t < 5) (hB : Field B) : Body (.spec t none (some B)) := by
  refine ⟨⟨by omega, ?_, ?_, ?_, ?_⟩, fun a b h => ?_, fun h => nomatch h⟩
  · exact ⟨fun h => absurd h Bool.false_ne_true, fun h => by omega⟩
  · exact ⟨fun _ => by omega, fun _ => rfl⟩
  · rintro a ⟨⟩
  · rintro b ⟨⟩
    exact hB
  · injection h with h
    omega

theorem body_A (ht : 8 ≤ t) (hl : t ≤ 13) (hs : A.1 < 4) (hv : A.2 < 65536) :
    Body (.spec t (some A) none) := by
  refine ⟨⟨by omega, ?_, ?_, ?_, ?_⟩, fun a b h => ?_, fun h => nomatch h⟩
  · exact ⟨fun _ => by omega, fun _ => rfl⟩
  · exact ⟨fun h => absurd h Bool.false_ne_true, fun h => by omega⟩
  · rintro a ⟨⟩
    exact ⟨hs, hv⟩
  · rintro b ⟨⟩
  · injection h with h
    omega

theorem body_AB (ht : 5 ≤ t) (hl : t ≤ 7) (hs : A.1 < 4) (hv : A.2 < 65536) (hB : Field B) :
    Body (.spec t (some A) (some B)) := by
  refine ⟨⟨by omega, ?_, ?_, ?_, ?_⟩, fun a b h => ?_, fun h => nomatch h⟩
  · exact ⟨fun _ => by omega, fun _ => rfl⟩
  · exact ⟨fun _ => hl, fun _ => rfl⟩
  · rintro a ⟨⟩
    exact ⟨hs, hv⟩
  · rintro b ⟨⟩
    exact hB
  · injection h with h
    omega

end special

/-- The items of a call, an ident of eight characters apart. -/
theorem items_body {c : Call} {n : ℕ} (hn : 0 < n) (hm : n ≤ 8) (hc : c.Ok n) :
    ∀ i ∈ c.items n, Body i ∨ (Long i ∧ ∃ name, c = .WIDENT name ∧ name.length = 8) := by
  cases c with
  | WOBJ a =>
    intro i hi
    obtain rfl := List.mem_singleton.mp hi
    exact .inl (body_plain hc fun _ _ _ h => by cases h)
  | WOBJ16 hl c =>
    obtain ⟨word, byte, seg⟩ := hc
    intro i hi
    rw [Call.items] at hi
    by_cases h : c = 0
    · rw [if_pos h, List.mem_cons, List.mem_singleton] at hi
      rcases hi with rfl | rfl
      · exact .inl (body_plain (Nat.mod_lt _ (by decide)) fun _ _ _ h => by cases h)
      · exact .inl (body_plain (show hl / 256 < 256 by omega) fun _ _ _ h => by cases h)
    · rw [if_neg h, List.mem_singleton] at hi
      obtain rfl := hi
      have sound : Sound (.rel (c / 64) hl) := ⟨by omega, by omega, word⟩
      exact .inl (body_plain sound fun _ _ _ h => by cases h)
  | WMNAME name | WRQST name | WENTRY name | WSELCM name =>
    intro i hi
    obtain rfl := List.mem_singleton.mp hi
    exact .inl (body_B (by decide) (field_take hc hn hm))
  | WIDENT name =>
    obtain ⟨⟨pos, _, chars⟩, len⟩ := hc
    intro i hi
    obtain rfl := List.mem_singleton.mp hi
    rcases Nat.lt_or_eq_of_le (Nat.le_trans len hm) with short | long
    · refine .inl (body_B (by decide) ⟨Nat.succ_pos _, short, fun c hc => ?_⟩)
      rcases List.mem_cons.mp hc with rfl | hc
      · decide
      · exact chars c hc
    · exact .inr ⟨⟨name, long, rfl⟩, name, rfl, long⟩
  | WCSIZE hl | WDSIZE hl =>
    intro i hi
    obtain rfl := List.mem_singleton.mp hi
    exact .inl (body_A (by decide) (by decide) (by dsimp only; decide) hc)
  | WLOC hl e | WEOFFS hl e =>
    intro i hi
    obtain rfl := List.mem_singleton.mp hi
    obtain ⟨word, byte⟩ := hc
    exact .inl (body_A (by decide) (by decide) (show e / 64 < 4 by omega) word)
  | WDFENT de c name | WDFEXT de c name | WCMSIZ de c name =>
    intro i hi
    obtain rfl := List.mem_singleton.mp hi
    obtain ⟨word, byte, chars⟩ := hc
    exact .inl (body_AB (by decide) (by decide) (show c / 64 < 4 by omega) word
      (field_take chars hn hm))

/-- The librarian reads the items back. -/
def Reads (byte : ℕ) (file : List ℕ) (is : List Item) : Prop :=
  ∃ r, read byte file = (is, some r) ∧ r.input = []

/-- The rounds do not run out before the items. -/
theorem length_le_code (is : List Item) : is.length ≤ (is.flatMap Item.code).length := by
  induction is with
  | nil => exact Nat.le_refl _
  | cons i is ih =>
    have bit : 0 < i.code.length := by
      cases i <;> simp only [Item.code, List.cons_append, List.length_cons, Nat.succ_pos]
    rw [List.length_cons, List.flatMap_cons, List.length_append]
    omega

/-- Two rounds at the end: the end of the module up to its byte boundary, the end of the file in
the byte behind it. -/
theorem RELD_ends {seg hl k m : ℕ} {r : Rd} (ho : r.Ok) (hs : seg < 4) (hv : hl < 65536)
    (hk : k < 8) (h : r.bits = (Item.eom seg hl).code ++ (pad k ++ (Item.code .eof ++ pad 1))) :
    ∃ r', RELD (m + 2) r = ([.eom seg hl, .eof], some r') ∧ r'.input = [] := by
  have byte : Item.code .eof ++ pad 1 = ofBytes [0x9E] := rfl
  obtain ⟨r₁, round, bits₁, ok₁⟩ := RELD1_eom ho hs hv hk (byte ▸ h)
  have last : r₁.bits = Item.codeType 15 ++ pad 1 := bits₁
  obtain ⟨r₂, round₂, bits₂, ok₂⟩ := RELD1_spec ok₁ (by decide) last
  have ended : RELD1 r₁ = some (.eof, r₂) := round₂
  refine ⟨r₂, ?_, ?_⟩
  · rw [RELD, round]
    dsimp only
    rw [if_neg (fun h => nomatch h), RELD, ended]
    dsimp only
    rw [if_pos rfl]
  · have len := congrArg List.length bits₂
    rw [Rd.bits, List.length_append, bitsOf_length, ofBytes_length, pad, List.length_replicate]
      at len
    exact List.length_eq_zero_iff.mp (by omega)

section object

variable {w : Wr} {calls : List Call} {byte hl c n : ℕ}

theorem reads_of_short (hf : w.file = []) (ho : w.OFLAG < 0x4F) (hN : w.NAMLEN = n) (hn : 0 < n)
    (hm : n ≤ 8) (hc : ∀ d ∈ calls, d.Ok n) (hv : hl < 65536) (hs : c < 256)
    (short : ∀ name, .WIDENT name ∈ calls → name.length ≤ 7) :
    Reads byte (object w calls hl c) (calls.flatMap (Call.items n) ++ [.eom (c / 64) hl, .eof]) := by
  obtain ⟨k, hk, bits⟩ := object_bits hl c hf ho hN hn hm hc
  unfold Reads read
  generalize object w calls hl c = file at bits ⊢
  generalize his : calls.flatMap (Call.items n) = is at bits ⊢
  have body : ∀ i ∈ is, Body i := by
    intro i hi
    rw [← his] at hi
    obtain ⟨d, hd, hi⟩ := List.mem_flatMap.mp hi
    rcases items_body hn hm (hc d hd) i hi with h | ⟨_, name, rfl, len⟩
    · exact h
    · have := short name hd
      omega
  -- the rounds there are, the two at the end among them
  obtain ⟨m, rounds⟩ : ∃ m, 8 * file.length + 1 = is.length + (m + 2) := by
    have len := congrArg List.length bits
    have items := length_le_code is
    have eof : (Item.code .eof ++ pad 1).length = 8 := rfl
    rw [List.length_append, List.length_append, List.length_append, ofBytes_length, eof] at len
    exact ⟨8 * file.length + 1 - is.length - 2, by omega⟩
  have start : ({ BITCNT := 8, BYTE := byte, input := file } : Rd).bits = is.flatMap Item.code
      ++ ((Item.eom (c / 64) hl).code ++ (pad k ++ (Item.code .eof ++ pad 1))) := by
    rw [← List.append_assoc, ← bits]
    rfl
  obtain ⟨r, all, rest, ok⟩ := RELD_body (n := m + 2) ⟨Nat.zero_lt_succ 7, Nat.le_refl 8⟩ body start
  obtain ⟨r', ends, empty⟩ := RELD_ends (m := m) ok (show c / 64 < 4 by omega) hv hk rest
  exact ⟨r', by rw [rounds, all, ends], empty⟩

/-- The file the assembler closes is read back item by item, the end of the module at a byte
boundary and the end of the file right behind it, exactly when no ident has eight characters. -/
theorem reads_iff_short (hf : w.file = []) (ho : w.OFLAG < 0x4F) (hN : w.NAMLEN = n) (hn : 0 < n)
    (hm : n ≤ 8) (hc : ∀ d ∈ calls, d.Ok n) (hv : hl < 65536) (hs : c < 256) :
    Reads byte (object w calls hl c) (calls.flatMap (Call.items n) ++ [.eom (c / 64) hl, .eof])
      ↔ ∀ name, .WIDENT name ∈ calls → name.length ≤ 7 := by
  refine ⟨?_, reads_of_short hf ho hN hn hm hc hv hs⟩
  rintro ⟨r, got, _⟩ name hname
  obtain ⟨k, hk, bits⟩ := object_bits hl c hf ho hN hn hm hc
  have kinds : ∀ i ∈ calls.flatMap (Call.items n), Body i ∨ Long i := by
    intro i hi
    obtain ⟨d, hd, hi⟩ := List.mem_flatMap.mp hi
    rcases items_body hn hm (hc d hd) i hi with h | ⟨h, _⟩
    · exact .inl h
    · exact .inr h
  have start : ({ BITCNT := 8, BYTE := byte, input := object w calls hl c } : Rd).bits
      = (calls.flatMap (Call.items n)).flatMap Item.code
        ++ ((Item.eom (c / 64) hl).code ++ (pad k ++ (Item.code .eof ++ pad 1))) := by
    rw [← List.append_assoc, ← bits]
    rfl
  have none_long := RELD_no_long ⟨Nat.zero_lt_succ 7, Nat.le_refl 8⟩ kinds start
    (congrArg Prod.fst got)
  by_contra long
  have le := (hc _ hname).2
  have eight : name.length = 8 := by omega
  exact none_long _ (List.mem_flatMap.mpr ⟨_, hname, List.mem_singleton_self _⟩) ⟨name, eight, rfl⟩

end object

/-- A writer that cuts names to eight characters. -/
def eight : Wr := { OFLAG := 0, NAMLEN := 8, BITCNT := 0, BYTE := 0, file := [] }

/-- A module of one byte, with a name and an ident of seven characters. -/
theorem reads_module :
    Reads 0 (object eight [.WMNAME [0x4D], .WIDENT [0x30, 0x31, 0x32, 0x33, 0x34, 0x35, 0x36],
      .WOBJ 0xC9] 0 0x40)
      [.spec 2 none (some [0x4D]),
        .spec 4 none (some [0x49, 0x30, 0x31, 0x32, 0x33, 0x34, 0x35, 0x36]),
        .abs 0xC9, .eom 1 0, .eof] :=
  (reads_iff_short (n := 8) rfl (by decide) rfl (by decide) (by decide)
    (by simp [Call.Ok, Name]) (by decide) (by decide)).mpr (by simp)

/-- An eighth character of the ident, and what follows is not found again. -/
theorem not_reads_eight :
    ¬ Reads 0 (object eight
      [.WMNAME [0x4D], .WIDENT [0x30, 0x31, 0x32, 0x33, 0x34, 0x35, 0x36, 0x37]] 0 0x40)
      [.spec 2 none (some [0x4D]),
        .spec 4 none (some [0x49, 0x30, 0x31, 0x32, 0x33, 0x34, 0x35, 0x36, 0x37]),
        .eom 1 0, .eof] := by
  rintro ⟨r, got, _⟩
  have items := congrArg Prod.fst got
  dsimp only at items
  revert items
  clear got
  decide +kernel

/-- What the librarian enters for an ident: its first six characters. -/
theorem SEG4_ident (name : List ℕ) (h : 0 < name.length) :
    SEG4 (0x49 :: name) = some (name.take 6) := by
  rw [SEG4, if_neg (fun h => h rfl), if_neg (by rw [List.length_cons]; omega)]
  rfl

end RSX280.Reld
