import RSX280.BitString
import Mathlib.Tactic.IntervalCases

/-!
# The assembler's object file writer

`zsm/genrel.mac` packs the items of a REL file bit by bit into `BYTE` and hands the byte to the
file when the next bit finds it full. Each entry of the module is a call here, `Call.items` says
which items of the format it stands for, and `Wr.bits` is the string of bits written so far: every
call appends the code of its items to it.
-/

namespace RSX280.Genrel

open BitString

/-- `rl r`, the carry `cy` shifted in from the right. -/
def rl (r cy : ℕ) : ℕ := (2 * r + cy) % 256

/-- `rrca`. -/
def rrca (a : ℕ) : ℕ := a / 2 + 128 * (a % 2)

/-- An item of a REL file. A special item has a type and, where the type asks for them, an A field
of segment and value and a B field of characters. -/
inductive Item
  | abs (a : ℕ)
  | rel (seg hl : ℕ)
  | spec (t : ℕ) (A : Option (ℕ × ℕ)) (B : Option (List ℕ))
  deriving DecidableEq

namespace Item

/-- A 16-bit value, low byte first. -/
def codeWord (v : ℕ) : List Bool := bitsOf 8 (v % 256) ++ bitsOf 8 (v / 256)

def codeA (A : ℕ × ℕ) : List Bool := bitsOf 2 A.1 ++ codeWord A.2

/-- The length has three bits only, so that eight is written as zero. -/
def codeB (B : List ℕ) : List Bool := bitsOf 3 B.length ++ ofBytes B

/-- The bits of an item. -/
def code : Item → List Bool
  | abs a => false :: bitsOf 8 a
  | rel seg hl => true :: bitsOf 2 seg ++ codeWord hl
  | spec t A B =>
      true :: bitsOf 2 0 ++ bitsOf 4 t ++ (A.map codeA).getD [] ++ (B.map codeB).getD []

/-- The end of a module, with its entry point, and the end of the file. -/
def eom (seg hl : ℕ) : Item := spec 14 (some (seg, hl)) none
def eof : Item := spec 15 none none

end Item

/-- The state of the writer: `OFLAG` tells whether there is an object file, `NAMLEN` is the length
names are cut to, and `BITCNT` bits of `BYTE` are not in the file yet. -/
structure Wr where
  OFLAG : ℕ
  NAMLEN : ℕ
  BITCNT : ℕ
  BYTE : ℕ
  file : List ℕ
  deriving DecidableEq

/-- `WNB2`: the next byte of the object file. -/
def WNB2 (a : ℕ) (w : Wr) : Wr := { w with file := w.file ++ [a] }

def INIOBJ (w : Wr) : Wr := { w with BYTE := 0, BITCNT := 0 }

/-- `WRBIT`: bit 7 of `c` goes out, and `c` comes back rotated through the carry. -/
def WRBIT (c : ℕ) (w : Wr) : ℕ × Wr :=
  if w.BITCNT = 8 then
    let w := if w.OFLAG < 0x4F then WNB2 w.BYTE w else w
    (rl c 0, { w with BITCNT := 1, BYTE := rl w.BYTE (c / 128 % 2) })
  else
    -- the comparison left the carry set
    (rl c (if w.BITCNT < 8 then 1 else 0),
      { w with BITCNT := (w.BITCNT + 1) % 256, BYTE := rl w.BYTE (c / 128 % 2) })

/-- `WRBITS`: the `b` upper bits of `c`. -/
def WRBITS : ℕ → ℕ → Wr → Wr
  | 0, _, w => w
  | b + 1, c, w => WRBITS b (WRBIT c w).1 (WRBIT c w).2

def WR8B (c : ℕ) (w : Wr) : Wr := WRBITS 8 c w

/-- `WR16B`: the word in `bc`. -/
def WR16B (bc : ℕ) (w : Wr) : Wr := WR8B (bc / 256) (WR8B (bc % 256) w)

/-- `WRN1`: as many characters from `hl` on as `e` counts down. -/
def WRN1 : ℕ → List ℕ → Wr → Wr
  | 0, _, w => w
  | e + 1, hl, w => WRN1 e hl.tail (WR8B (hl.headD 0) w)

/-- `dec e` after the first character: a count of zero goes round. -/
def count (e : ℕ) : ℕ := if e = 0 then 256 else e

/-- `WRNAME`: the length, cut to `NAMLEN`, and the characters. -/
def WRNAME (hl : List ℕ) (e : ℕ) (w : Wr) : Wr :=
  let e := if w.NAMLEN < e then w.NAMLEN else e
  WRN1 (count e) hl (WRBITS 3 (rrca (rrca (rrca e))) w)

def WMNAME (hl : List ℕ) (e : ℕ) (w : Wr) : Wr := WRNAME hl e (WRBITS 7 0x84 w)

def WRQST (hl : List ℕ) (e : ℕ) (w : Wr) : Wr := WRNAME hl e (WRBITS 7 0x86 w)

/-- `WIDENT`: the length counts the type character before the name, and nothing cuts it. -/
def WIDENT (hl : List ℕ) (e : ℕ) (w : Wr) : Wr :=
  let a := (e + 1) % 256
  WRN1 (count e) hl (WR8B 0x49 (WRBITS 3 (rrca (rrca (rrca a))) (WRBITS 7 0x88 w)))

def WOBJ (a : ℕ) (w : Wr) : Wr := WR8B a (WRBIT 0 w).2

/-- `WOBJ16`: a relative word, or two absolute bytes when the segment is the absolute one. -/
def WOBJ16 (hl c : ℕ) (w : Wr) : Wr :=
  if c = 0 then WOBJ (hl / 256) (WOBJ (hl % 256) w)
  else WR16B hl (WRBITS 3 (128 + c / 2) w)

def WCSIZE (hl : ℕ) (w : Wr) : Wr := WR16B hl (WRBITS 2 0x40 (WRBITS 7 0x9A w))

/-- `WDSIZE`: an absolute value, which is what the linker wants. -/
def WDSIZE (hl : ℕ) (w : Wr) : Wr := WR16B hl (WRBITS 2 0x00 (WRBITS 7 0x94 w))

/-- `WLC1`: an item with an A field. -/
def WLC1 (c hl e : ℕ) (w : Wr) : Wr := WR16B hl (WRBITS 2 e (WRBITS 7 c w))

def WLOC (hl e : ℕ) (w : Wr) : Wr := WLC1 0x96 hl e w

def WEOFFS (hl e : ℕ) (w : Wr) : Wr := WLC1 0x92 hl e w

def WENTRY (hl : List ℕ) (e : ℕ) (w : Wr) : Wr := WRNAME hl e (WRBITS 7 0x80 w)

def WSELCM (hl : List ℕ) (e : ℕ) (w : Wr) : Wr := WRNAME hl e (WRBITS 7 0x82 w)

/-- `WRENT1`: an item with both fields. -/
def WRENT1 (item de c : ℕ) (hl : List ℕ) (b : ℕ) (w : Wr) : Wr :=
  WRNAME hl b (WR16B de (WRBITS 2 c (WRBITS 7 item w)))

def WDFENT (de c : ℕ) (hl : List ℕ) (b : ℕ) (w : Wr) : Wr := WRENT1 0x8E de c hl b w

def WDFEXT (de c : ℕ) (hl : List ℕ) (b : ℕ) (w : Wr) : Wr := WRENT1 0x8C de c hl b w

def WCMSIZ (de c : ℕ) (hl : List ℕ) (b : ℕ) (w : Wr) : Wr := WRENT1 0x8A de c hl b w

/-- `BPAD`: zeros up to the end of the byte, at most `n` of them. -/
def BPADn : ℕ → Wr → Wr
  | 0, w => w
  | n + 1, w => if w.BITCNT = 8 then w else BPADn n (WRBIT 0 w).2

/-- The bit counter goes round after 256 steps, so that it meets 8 before. -/
def BPAD (w : Wr) : Wr := BPADn 256 w

/-- `CLSOBJ`: the end of the module with the entry point `hl` in segment `c`, and the end of the
file. -/
def CLSOBJ (hl c : ℕ) (w : Wr) : Wr :=
  if 0x4F ≤ w.OFLAG then w
  else
    let w := BPAD (WR16B hl (WRBITS 2 c (WRBITS 7 0x9C w)))
    let w := BPAD (WRBITS 7 0x9E w)
    WNB2 w.BYTE w

/-! ### The string of bits -/

/-- The bits written: those of the file, and the `BITCNT` ones of `BYTE`. -/
def Wr.bits (w : Wr) : List Bool := ofBytes w.file ++ bitsOf w.BITCNT w.BYTE

/-- There is an object file and the counter is within the byte. -/
structure Wr.Open (w : Wr) : Prop where
  oflag : w.OFLAG < 0x4F
  bitcnt : w.BITCNT ≤ 8

/-- `w'` has written `bs` behind what `w` had. -/
structure Wr.Adds (w w' : Wr) (bs : List Bool) : Prop where
  bits : w'.bits = w.bits ++ bs
  opened : w'.Open
  namlen : w'.NAMLEN = w.NAMLEN

theorem Wr.Adds.trans {w w' w'' : Wr} {bs bs' : List Bool} (h : w.Adds w' bs)
    (h' : w'.Adds w'' bs') : w.Adds w'' (bs ++ bs') :=
  ⟨by rw [h'.bits, h.bits, List.append_assoc], h'.opened, h'.namlen.trans h.namlen⟩

theorem testBit_seven (c : ℕ) : c.testBit 7 = (c / 128 % 2 == 1) := by
  rw [Nat.testBit_eq_decide_div_mod_eq]
  rfl

theorem toNat_bit (n : ℕ) : (n % 2 == 1).toNat = n % 2 := by
  rcases Nat.mod_two_eq_zero_or_one n with h | h <;> rw [h] <;> rfl

/-- A bit rotated into `BYTE` follows the ones there. -/
theorem bitsOf_rl {n : ℕ} (byte c : ℕ) (hn : n < 8) :
    bitsOf (n + 1) (rl byte (c / 128 % 2)) = bitsOf n byte ++ [c.testBit 7] := by
  have shift := bitsOf_shift n byte (c / 128 % 2 == 1)
  rw [toNat_bit] at shift
  have wrap := bitsOf_mod (2 * byte + c / 128 % 2) (Nat.succ_le_of_lt hn)
  rw [rl, show (256 : ℕ) = 2 ^ 8 from rfl, wrap, shift, testBit_seven]

/-- The step of `WRBIT`: one more bit. -/
theorem WRBIT_adds (c : ℕ) {w : Wr} (ho : w.Open) : w.Adds (WRBIT c w).2 [c.testBit 7] := by
  have hb := ho.bitcnt
  unfold WRBIT
  by_cases full : w.BITCNT = 8
  · rw [if_pos full, if_pos ho.oflag]
    refine ⟨?_, ⟨ho.oflag, Nat.le_of_ble_eq_true rfl⟩, rfl⟩
    have next := bitsOf_rl w.BYTE c (show 0 < 8 by decide)
    simp only [Wr.bits, WNB2, ofBytes_append, full, next, ofBytes_cons, ofBytes_nil,
      List.append_nil, List.append_assoc]
    rfl
  · rw [if_neg full]
    refine ⟨?_, ⟨ho.oflag, ?_⟩, rfl⟩
    · have next := bitsOf_rl w.BYTE c (show w.BITCNT < 8 by omega)
      have small : (w.BITCNT + 1) % 256 = w.BITCNT + 1 := Nat.mod_eq_of_lt (by omega)
      simp only [Wr.bits, small, next, List.append_assoc]
    · show (w.BITCNT + 1) % 256 ≤ 8
      omega

/-- The bits that were below the one that went out. -/
theorem bitsOf_rotated {b : ℕ} (c cy : ℕ) (hb : b < 8) (hcy : cy ≤ 1) :
    bitsOf b (rl c cy / 2 ^ (8 - b)) = bitsOf b (c / 2 ^ (7 - b)) := by
  refine bitsOf_congr fun i hi => ?_
  have e : 8 - b + i = 7 - b + i + 1 := by omega
  have inner : (2 * c + cy) / 2 = c := by omega
  rw [Nat.testBit_div_two_pow, Nat.testBit_div_two_pow, rl, show (256 : ℕ) = 2 ^ 8 from rfl,
    Nat.testBit_mod_two_pow, decide_eq_true (by omega), Bool.true_and,
    show i + (8 - b) = i + (7 - b) + 1 by omega, Nat.testBit_succ, inner]

/-- `WRBITS` writes the upper bits of `c`, whatever the rotations leave in the lower ones. -/
theorem WRBITS_adds {b : ℕ} (c : ℕ) {w : Wr} (ho : w.Open) (hb : b ≤ 8) :
    w.Adds (WRBITS b c w) (bitsOf b (c / 2 ^ (8 - b))) := by
  induction b generalizing c w with
  | zero => exact ⟨(List.append_nil _).symm, ho, rfl⟩
  | succ b ih =>
    have first := WRBIT_adds c ho
    have more := ih (WRBIT c w).1 first.opened (by omega)
    have rest : bitsOf b ((WRBIT c w).1 / 2 ^ (8 - b)) = bitsOf b (c / 2 ^ (7 - b)) := by
      unfold WRBIT
      split
      · exact bitsOf_rotated c 0 hb (by decide)
      · exact bitsOf_rotated c _ hb (by split <;> decide)
    have top : (c / 2 ^ (7 - b)).testBit b = c.testBit 7 := by
      rw [Nat.testBit_div_two_pow]
      congr 1
      omega
    rw [rest] at more
    rw [show 8 - (b + 1) = 7 - b by omega, bitsOf, top]
    exact first.trans more

theorem WR8B_adds (c : ℕ) {w : Wr} (ho : w.Open) : w.Adds (WR8B c w) (bitsOf 8 c) := by
  have byte := WRBITS_adds c ho (Nat.le_refl 8)
  rwa [Nat.sub_self, Nat.pow_zero, Nat.div_one] at byte

theorem WR16B_adds (bc : ℕ) {w : Wr} (ho : w.Open) : w.Adds (WR16B bc w) (Item.codeWord bc) :=
  have low := WR8B_adds (bc % 256) ho
  low.trans (WR8B_adds (bc / 256) low.opened)

/-- The characters of a name, when the count is that of the characters. -/
theorem WRN1_adds (name : List ℕ) {e : ℕ} {w : Wr} (ho : w.Open) (he : e ≤ name.length) :
    w.Adds (WRN1 e name w) (ofBytes (name.take e)) := by
  induction name generalizing e w with
  | nil =>
    obtain rfl := Nat.le_zero.mp he
    exact ⟨(List.append_nil _).symm, ho, rfl⟩
  | cons c name ih =>
    cases e with
    | zero => exact ⟨(List.append_nil _).symm, ho, rfl⟩
    | succ e =>
      have first := WR8B_adds c ho
      exact first.trans (ih first.opened (Nat.le_of_succ_le_succ he))

/-- Three rotations put the length into the three upper bits. -/
theorem bitsOf_rrca {e : ℕ} (he : e ≤ 9) :
    bitsOf 3 (rrca (rrca (rrca e)) / 2 ^ (8 - 3)) = bitsOf 3 e := by
  interval_cases e <;> rfl

theorem count_of_pos {e : ℕ} (h : 0 < e) : count e = e := if_neg (Nat.ne_of_gt h)

/-- A name of the length given, cut to `NAMLEN`. -/
theorem WRNAME_adds {name : List ℕ} {w : Wr} {n : ℕ} (ho : w.Open) (hN : w.NAMLEN = n)
    (hn : 0 < n) (hm : n ≤ 8) (hp : 0 < name.length) :
    w.Adds (WRNAME name name.length w) (Item.codeB (name.take n)) := by
  subst hN
  have cut : (if w.NAMLEN < name.length then w.NAMLEN else name.length)
      = (name.take w.NAMLEN).length := by
    rw [List.length_take]
    split <;> omega
  have small : (name.take w.NAMLEN).length ≤ 8 := by
    rw [List.length_take]
    omega
  have pos : 0 < (name.take w.NAMLEN).length := by
    rw [List.length_take]
    omega
  have len := WRBITS_adds (rrca (rrca (rrca (name.take w.NAMLEN).length))) ho
    (show 3 ≤ 8 by decide)
  rw [bitsOf_rrca (Nat.le_succ_of_le small)] at len
  have chars := WRN1_adds name (e := (name.take w.NAMLEN).length) len.opened
    (List.length_take_le' _ _)
  have taken : name.take (name.take w.NAMLEN).length = name.take w.NAMLEN := by
    rw [List.length_take]
    rcases Nat.le_total w.NAMLEN name.length with h | h
    · rw [Nat.min_eq_left h]
    · rw [Nat.min_eq_right h, List.take_of_length_le (Nat.le_refl _), List.take_of_length_le h]
  rw [taken] at chars
  unfold WRNAME
  rw [cut]
  dsimp only
  rw [count_of_pos pos]
  exact len.trans chars

/-- The seven bits a special item begins with. -/
def Item.codeType (t : ℕ) : List Bool := true :: bitsOf 2 0 ++ bitsOf 4 t

theorem SPC_adds {t : ℕ} (ht : t < 16) {w : Wr} (ho : w.Open) :
    w.Adds (WRBITS 7 (0x80 + 2 * t) w) (Item.codeType t) := by
  have e : bitsOf 7 ((0x80 + 2 * t) / 2 ^ (8 - 7)) = Item.codeType t := by
    interval_cases t <;> rfl
  rw [← e]
  exact WRBITS_adds _ ho (by decide)

/-- The A field: the segment is in the upper bits of the register. -/
theorem FLDA_adds (c hl : ℕ) {w : Wr} (ho : w.Open) :
    w.Adds (WR16B hl (WRBITS 2 c w)) (Item.codeA (c / 64, hl)) :=
  have seg := WRBITS_adds c ho (show 2 ≤ 8 by decide)
  seg.trans (WR16B_adds hl seg.opened)

/-- An item with an A field only. -/
theorem itemA_adds {t : ℕ} (ht : t < 16) (c hl : ℕ) {w : Wr} (ho : w.Open) :
    w.Adds (WR16B hl (WRBITS 2 c (WRBITS 7 (0x80 + 2 * t) w)))
      (Item.code (.spec t (some (c / 64, hl)) none)) := by
  have head := SPC_adds ht ho
  have fields := head.trans (FLDA_adds c hl head.opened)
  simpa only [Item.code, Item.codeType, Option.map_some, Option.map_none, Option.getD_some,
    Option.getD_none, List.append_nil] using fields

section names

variable {t n : ℕ} {name : List ℕ} {w : Wr}

/-- An item with a B field only. -/
theorem itemB_adds (ht : t < 16) (ho : w.Open) (hN : w.NAMLEN = n) (hn : 0 < n) (hm : n ≤ 8)
    (hp : 0 < name.length) :
    w.Adds (WRNAME name name.length (WRBITS 7 (0x80 + 2 * t) w))
      (Item.code (.spec t none (some (name.take n)))) := by
  have head := SPC_adds ht ho
  have fields := head.trans (WRNAME_adds head.opened (head.namlen.trans hN) hn hm hp)
  simpa only [Item.code, Item.codeType, Option.map_some, Option.map_none, Option.getD_some,
    Option.getD_none, List.append_nil] using fields

/-- An item with both fields. -/
theorem itemAB_adds (ht : t < 16) (ho : w.Open) (hN : w.NAMLEN = n) (hn : 0 < n) (hm : n ≤ 8)
    (hp : 0 < name.length) (de c : ℕ) :
    w.Adds (WRENT1 (0x80 + 2 * t) de c name name.length w)
      (Item.code (.spec t (some (c / 64, de)) (some (name.take n)))) := by
  have head := itemA_adds ht c de ho
  have fields := head.trans (WRNAME_adds head.opened (head.namlen.trans hN) hn hm hp)
  unfold WRENT1
  simpa only [Item.code, Option.map_some, Option.map_none, Option.getD_some, Option.getD_none,
    List.append_nil] using fields

/-- The ident: eight characters give a length of nine. -/
theorem WIDENT_adds (ho : w.Open) (hp : 0 < name.length) (hl : name.length ≤ 8) :
    w.Adds (WIDENT name name.length w) (Item.code (.spec 4 none (some (0x49 :: name)))) := by
  have head := SPC_adds (show 4 < 16 by decide) ho
  have len := WRBITS_adds (rrca (rrca (rrca (name.length + 1)))) head.opened
    (show 3 ≤ 8 by decide)
  rw [bitsOf_rrca (Nat.succ_le_succ hl)] at len
  have type := WR8B_adds 0x49 len.opened
  have chars := WRN1_adds name type.opened (Nat.le_refl _)
  rw [List.take_of_length_le (Nat.le_refl _)] at chars
  have all := head.trans (len.trans (type.trans chars))
  have small : (name.length + 1) % 256 = name.length + 1 := Nat.mod_eq_of_lt (by omega)
  unfold WIDENT
  dsimp only
  rw [small, count_of_pos hp]
  simpa only [Item.code, Item.codeType, Item.codeB, Option.map_some, Option.map_none,
    Option.getD_some, Option.getD_none, List.append_nil, List.append_assoc, List.length_cons,
    ofBytes_cons, List.cons_append] using all

end names

theorem WOBJ_adds (a : ℕ) {w : Wr} (ho : w.Open) : w.Adds (WOBJ a w) (Item.code (.abs a)) := by
  have first := WRBIT_adds 0 ho
  rw [Nat.zero_testBit] at first
  exact first.trans (WR8B_adds a first.opened)

theorem WOBJ16_adds {hl c : ℕ} {w : Wr} (ho : w.Open) (hc : c < 256) (h : c ≠ 0) :
    w.Adds (WOBJ16 hl c w) (Item.code (.rel (c / 64) hl)) := by
  have e : bitsOf 3 ((128 + c / 2) / 2 ^ (8 - 3)) = true :: bitsOf 2 (c / 64) := by
    have four : c / 64 < 4 := by omega
    rw [show (128 + c / 2) / 2 ^ (8 - 3) = 4 + c / 64 by omega]
    generalize c / 64 = s at four ⊢
    interval_cases s <;> rfl
  have head := WRBITS_adds (128 + c / 2) ho (show 3 ≤ 8 by decide)
  rw [e] at head
  rw [WOBJ16, if_neg h]
  exact head.trans (WR16B_adds hl head.opened)

/-- A call the assembler makes of the writer, with the registers it passes. -/
inductive Call
  | WOBJ (a : ℕ)
  | WOBJ16 (hl c : ℕ)
  | WMNAME (name : List ℕ)
  | WRQST (name : List ℕ)
  | WIDENT (name : List ℕ)
  | WCSIZE (hl : ℕ)
  | WDSIZE (hl : ℕ)
  | WLOC (hl e : ℕ)
  | WEOFFS (hl e : ℕ)
  | WENTRY (name : List ℕ)
  | WSELCM (name : List ℕ)
  | WDFENT (de c : ℕ) (name : List ℕ)
  | WDFEXT (de c : ℕ) (name : List ℕ)
  | WCMSIZ (de c : ℕ) (name : List ℕ)
  deriving DecidableEq

/-- The call made. -/
def Call.run (w : Wr) : Call → Wr
  | WOBJ a => Genrel.WOBJ a w
  | WOBJ16 hl c => Genrel.WOBJ16 hl c w
  | WMNAME name => Genrel.WMNAME name name.length w
  | WRQST name => Genrel.WRQST name name.length w
  | WIDENT name => Genrel.WIDENT name name.length w
  | WCSIZE hl => Genrel.WCSIZE hl w
  | WDSIZE hl => Genrel.WDSIZE hl w
  | WLOC hl e => Genrel.WLOC hl e w
  | WEOFFS hl e => Genrel.WEOFFS hl e w
  | WENTRY name => Genrel.WENTRY name name.length w
  | WSELCM name => Genrel.WSELCM name name.length w
  | WDFENT de c name => Genrel.WDFENT de c name name.length w
  | WDFEXT de c name => Genrel.WDFEXT de c name name.length w
  | WCMSIZ de c name => Genrel.WCMSIZ de c name name.length w

/-- The items a call stands for: names are cut to `namlen` characters, and the segment is in the
two upper bits of the register. -/
def Call.items (namlen : ℕ) : Call → List Item
  | WOBJ a => [.abs a]
  | WOBJ16 hl c => if c = 0 then [.abs (hl % 256), .abs (hl / 256)] else [.rel (c / 64) hl]
  | WMNAME name => [.spec 2 none (some (name.take namlen))]
  | WRQST name => [.spec 3 none (some (name.take namlen))]
  | WIDENT name => [.spec 4 none (some (0x49 :: name))]
  | WCSIZE hl => [.spec 13 (some (1, hl)) none]
  | WDSIZE hl => [.spec 10 (some (0, hl)) none]
  | WLOC hl e => [.spec 11 (some (e / 64, hl)) none]
  | WEOFFS hl e => [.spec 9 (some (e / 64, hl)) none]
  | WENTRY name => [.spec 0 none (some (name.take namlen))]
  | WSELCM name => [.spec 1 none (some (name.take namlen))]
  | WDFENT de c name => [.spec 7 (some (c / 64, de)) (some (name.take namlen))]
  | WDFEXT de c name => [.spec 6 (some (c / 64, de)) (some (name.take namlen))]
  | WCMSIZ de c name => [.spec 5 (some (c / 64, de)) (some (name.take namlen))]

/-- A name of seven-bit characters: the assembler strips the parity bit of what it reads. -/
def Name (name : List ℕ) : Prop := 0 < name.length ∧ name.length < 256 ∧ ∀ c ∈ name, c < 128

/-- What the registers of a call can hold. Segments are in the two upper bits; an ident is stored in
eight characters and cut to `namlen` there. -/
def Call.Ok (namlen : ℕ) : Call → Prop
  | WOBJ a => a < 256
  | WOBJ16 hl c => hl < 65536 ∧ c < 256 ∧ c % 64 = 0
  | WMNAME name | WRQST name | WENTRY name | WSELCM name => Name name
  | WIDENT name => Name name ∧ name.length ≤ namlen
  | WCSIZE hl | WDSIZE hl => hl < 65536
  | WLOC hl e | WEOFFS hl e => hl < 65536 ∧ e < 256
  | WDFENT de c name | WDFEXT de c name | WCMSIZ de c name => de < 65536 ∧ c < 256 ∧ Name name

/-- A call appends the items it stands for. -/
theorem Call.run_adds {w : Wr} {c : Call} {n : ℕ} (ho : w.Open) (hN : w.NAMLEN = n) (hn : 0 < n)
    (hm : n ≤ 8) (hc : c.Ok n) : w.Adds (c.run w) ((c.items n).flatMap Item.code) := by
  cases c with
  | WOBJ a =>
    rw [Call.items, List.flatMap_singleton]
    exact WOBJ_adds a ho
  | WOBJ16 hl c =>
    obtain ⟨_, byte, _⟩ := hc
    by_cases h : c = 0
    · have low := WOBJ_adds (hl % 256) ho
      have both := low.trans (WOBJ_adds (hl / 256) low.opened)
      simp only [Call.items, Call.run, Genrel.WOBJ16, if_pos h, List.flatMap_cons,
        List.flatMap_nil, List.append_nil]
      exact both
    · rw [Call.items, if_neg h, List.flatMap_singleton]
      exact WOBJ16_adds ho byte h
  | WMNAME name =>
    rw [Call.items, List.flatMap_singleton]
    exact itemB_adds (t := 2) (by decide) ho hN hn hm hc.1
  | WRQST name =>
    rw [Call.items, List.flatMap_singleton]
    exact itemB_adds (t := 3) (by decide) ho hN hn hm hc.1
  | WIDENT name =>
    rw [Call.items, List.flatMap_singleton]
    exact WIDENT_adds ho hc.1.1 (Nat.le_trans hc.2 hm)
  | WCSIZE hl =>
    rw [Call.items, List.flatMap_singleton]
    exact itemA_adds (t := 13) (by decide) 0x40 hl ho
  | WDSIZE hl =>
    rw [Call.items, List.flatMap_singleton]
    exact itemA_adds (t := 10) (by decide) 0x00 hl ho
  | WLOC hl e =>
    rw [Call.items, List.flatMap_singleton]
    exact itemA_adds (t := 11) (by decide) e hl ho
  | WEOFFS hl e =>
    rw [Call.items, List.flatMap_singleton]
    exact itemA_adds (t := 9) (by decide) e hl ho
  | WENTRY name =>
    rw [Call.items, List.flatMap_singleton]
    exact itemB_adds (t := 0) (by decide) ho hN hn hm hc.1
  | WSELCM name =>
    rw [Call.items, List.flatMap_singleton]
    exact itemB_adds (t := 1) (by decide) ho hN hn hm hc.1
  | WDFENT de c name =>
    rw [Call.items, List.flatMap_singleton]
    exact itemAB_adds (t := 7) (by decide) ho hN hn hm hc.2.2.1 de c
  | WDFEXT de c name =>
    rw [Call.items, List.flatMap_singleton]
    exact itemAB_adds (t := 6) (by decide) ho hN hn hm hc.2.2.1 de c
  | WCMSIZ de c name =>
    rw [Call.items, List.flatMap_singleton]
    exact itemAB_adds (t := 5) (by decide) ho hN hn hm hc.2.2.1 de c

/-- The run: a sequence of calls appends the items of all of them. -/
theorem calls_adds {calls : List Call} {w : Wr} {n : ℕ} (ho : w.Open) (hN : w.NAMLEN = n)
    (hn : 0 < n) (hm : n ≤ 8) (hc : ∀ c ∈ calls, c.Ok n) :
    w.Adds (calls.foldl Call.run w) ((calls.flatMap (Call.items n)).flatMap Item.code) := by
  induction calls generalizing w with
  | nil => exact ⟨(List.append_nil _).symm, ho, rfl⟩
  | cons c calls ih =>
    have first := c.run_adds ho hN hn hm (hc c List.mem_cons_self)
    have more := ih first.opened (first.namlen.trans hN) fun d hd => hc d (List.mem_cons_of_mem _ hd)
    rw [List.foldl_cons, List.flatMap_cons, List.flatMap_append]
    exact first.trans more

/-! ### The end of the file -/

/-- Bits that fill the byte begun. -/
def pad (n : ℕ) : List Bool := List.replicate n false

theorem BPADn_adds {n : ℕ} {w : Wr} (ho : w.Open) (hn : 8 ≤ n + w.BITCNT) :
    w.Adds (BPADn n w) (pad (8 - w.BITCNT)) ∧ (BPADn n w).BITCNT = 8 := by
  induction n generalizing w with
  | zero =>
    have full : w.BITCNT = 8 := Nat.le_antisymm ho.bitcnt (by omega)
    rw [full]
    exact ⟨⟨(List.append_nil _).symm, ho, rfl⟩, full⟩
  | succ n ih =>
    unfold BPADn
    by_cases full : w.BITCNT = 8
    · rw [if_pos full]
      refine ⟨⟨?_, ho, rfl⟩, full⟩
      rw [full]
      exact (List.append_nil _).symm
    · have first := WRBIT_adds 0 ho
      have hb := ho.bitcnt
      have cnt : (WRBIT 0 w).2.BITCNT = w.BITCNT + 1 := by
        rw [WRBIT, if_neg full]
        show (w.BITCNT + 1) % 256 = _
        omega
      obtain ⟨more, eight⟩ := ih first.opened (by omega)
      rw [Nat.zero_testBit] at first
      rw [if_neg full]
      refine ⟨?_, eight⟩
      have e : pad (8 - w.BITCNT) = [false] ++ pad (8 - (WRBIT 0 w).2.BITCNT) := by
        rw [cnt, show 8 - w.BITCNT = 8 - (w.BITCNT + 1) + 1 by omega]
        rfl
      rw [e]
      exact first.trans more

theorem BPAD_adds {w : Wr} (ho : w.Open) :
    w.Adds (BPAD w) (pad (8 - w.BITCNT)) ∧ (BPAD w).BITCNT = 8 :=
  BPADn_adds ho (by omega)

/-- A bit written leaves the byte begun. -/
theorem WRBITS_pos {b c : ℕ} {w : Wr} (ho : w.Open) : 0 < (WRBITS (b + 1) c w).BITCNT := by
  induction b generalizing c w with
  | zero =>
    have hb := ho.bitcnt
    show 0 < (WRBIT c w).2.BITCNT
    unfold WRBIT
    split
    · exact Nat.one_pos
    · show 0 < (w.BITCNT + 1) % 256
      omega
  | succ b ih => exact ih (WRBIT_adds c ho).opened

theorem Wr.bits_length (w : Wr) : w.bits.length = 8 * w.file.length + w.BITCNT := by
  rw [Wr.bits, List.length_append, ofBytes_length, bitsOf_length]

/-- A full byte goes out whole. -/
theorem WNB2_bits {w : Wr} (h : w.BITCNT = 8) : ofBytes (WNB2 w.BYTE w).file = w.bits := by
  rw [WNB2, ofBytes_append, Wr.bits, h, ofBytes_cons, ofBytes_nil, List.append_nil]

/-- The end of the file behind a byte boundary, and the byte it is in. -/
theorem eof_bits {w : Wr} (ho : w.Open) (full : w.BITCNT = 8) :
    ofBytes (WNB2 (BPAD (WRBITS 7 0x9E w)).BYTE (BPAD (WRBITS 7 0x9E w))).file
      = w.bits ++ (Item.code .eof ++ pad 1) := by
  have eof : w.Adds (WRBITS 7 0x9E w) (Item.code .eof) := SPC_adds (t := 15) (by decide) ho
  generalize WRBITS 7 0x9E w = e at eof ⊢
  obtain ⟨padded, full'⟩ := BPAD_adds eof.opened
  have seven : e.BITCNT = 7 := by
    have len := congrArg List.length eof.bits
    rw [List.length_append, Wr.bits_length, Wr.bits_length, full] at len
    have here : (Item.code .eof).length = 7 := rfl
    have most := eof.opened.bitcnt
    omega
  rw [seven] at padded
  rw [WNB2_bits full', padded.bits, eof.bits, List.append_assoc]

/-- Where the two ends come to lie in a file begun. -/
theorem CLSOBJ_bits {w : Wr} (ho : w.Open) (hl c : ℕ) :
    ∃ k < 8, ofBytes (CLSOBJ hl c w).file
      = w.bits ++ Item.code (.eom (c / 64) hl) ++ (pad k ++ (Item.code .eof ++ pad 1)) := by
  have oflag := ho.oflag
  have type : w.Adds (WRBITS 7 0x9C w) (Item.codeType 14) := SPC_adds (t := 14) (by decide) ho
  have eom : w.Adds (WR16B hl (WRBITS 2 c (WRBITS 7 0x9C w))) (Item.code (.eom (c / 64) hl)) :=
    itemA_adds (t := 14) (by decide) c hl ho
  have begun : 0 < (WR16B hl (WRBITS 2 c (WRBITS 7 0x9C w))).BITCNT :=
    WRBITS_pos (WR8B_adds _ (WRBITS_adds c type.opened (by decide)).opened).opened
  unfold CLSOBJ
  rw [if_neg (Nat.not_le_of_lt oflag)]
  generalize WR16B hl (WRBITS 2 c (WRBITS 7 0x9C w)) = e at eom begun ⊢
  obtain ⟨padded, full⟩ := BPAD_adds eom.opened
  refine ⟨8 - e.BITCNT, by omega, ?_⟩
  have closed := eof_bits padded.opened full
  rw [padded.bits, eom.bits, List.append_assoc] at closed
  exact closed

/-- The object file of an assembly: the calls made from `INIOBJ` on, and the file closed. -/
def object (w : Wr) (calls : List Call) (hl c : ℕ) : List ℕ :=
  (CLSOBJ hl c (calls.foldl Call.run (INIOBJ w))).file

/-- The string the closed file holds: after the end of the module it is padded to a byte boundary,
and the end of the file is the byte behind it. -/
theorem object_bits {w : Wr} {calls : List Call} {n : ℕ} (hl c : ℕ) (hf : w.file = [])
    (ho : w.OFLAG < 0x4F) (hN : w.NAMLEN = n) (hn : 0 < n) (hm : n ≤ 8)
    (hc : ∀ d ∈ calls, d.Ok n) :
    ∃ k < 8, ofBytes (object w calls hl c)
      = (calls.flatMap (Call.items n)).flatMap Item.code ++ Item.code (.eom (c / 64) hl)
        ++ (pad k ++ (Item.code .eof ++ pad 1)) := by
  have start : (INIOBJ w).bits = [] := by
    show ofBytes w.file ++ bitsOf 0 0 = []
    rw [hf]
    rfl
  have all := calls_adds (w := INIOBJ w) ⟨ho, Nat.zero_le _⟩ hN hn hm hc
  obtain ⟨k, hk, closed⟩ := CLSOBJ_bits all.opened hl c
  rw [all.bits, start, List.nil_append] at closed
  exact ⟨k, hk, closed⟩

end RSX280.Genrel
