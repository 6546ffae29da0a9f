import Mathlib.Data.Nat.Notation
import Mathlib.Tactic.Common

/-!
# The MD5 message digest

The message is padded to blocks of 64 bytes, and each block is mixed into four words. All values have the least
significant byte first.
-/

namespace RSX280.Md5Spec

abbrev Byte := BitVec 8

abbrev Word := BitVec 32

/-- The four words. -/
@[ext]
structure State where
  a : Word
  b : Word
  c : Word
  d : Word
  deriving DecidableEq

def init : State := ⟨0x67452301, 0xEFCDAB89, 0x98BADCFE, 0x10325476⟩

/-- The integer parts of the sines of 1, 2, ... times 4294967296. -/
def K : List Word :=
  [
    0xD76AA478, 0xE8C7B756, 0x242070DB, 0xC1BDCEEE, 0xF57C0FAF, 0x4787C62A, 0xA8304613, 0xFD469501,
    0x698098D8, 0x8B44F7AF, 0xFFFF5BB1, 0x895CD7BE, 0x6B901122, 0xFD987193, 0xA679438E, 0x49B40821,
    0xF61E2562, 0xC040B340, 0x265E5A51, 0xE9B6C7AA, 0xD62F105D, 0x02441453, 0xD8A1E681, 0xE7D3FBC8,
    0x21E1CDE6, 0xC33707D6, 0xF4D50D87, 0x455A14ED, 0xA9E3E905, 0xFCEFA3F8, 0x676F02D9, 0x8D2A4C8A,
    0xFFFA3942, 0x8771F681, 0x6D9D6122, 0xFDE5380C, 0xA4BEEA44, 0x4BDECFA9, 0xF6BB4B60, 0xBEBFBC70,
    0x289B7EC6, 0xEAA127FA, 0xD4EF3085, 0x04881D05, 0xD9D4D039, 0xE6DB99E5, 0x1FA27CF8, 0xC4AC5665,
    0xF4292244, 0x432AFF97, 0xAB9423A7, 0xFC93A039, 0x655B59C3, 0x8F0CCC92, 0xFFEFF47D, 0x85845DD1,
    0x6FA87E4F, 0xFE2CE6E0, 0xA3014314, 0x4E0811A1, 0xF7537E82, 0xBD3AF235, 0x2AD7D2BB, 0xEB86D391]

/-- By how many bits is rotated. -/
def shift : List ℕ :=
  [7, 12, 17, 22, 7, 12, 17, 22, 7, 12, 17, 22, 7, 12, 17, 22,
    5, 9, 14, 20, 5, 9, 14, 20, 5, 9, 14, 20, 5, 9, 14, 20,
    4, 11, 16, 23, 4, 11, 16, 23, 4, 11, 16, 23, 4, 11, 16, 23,
    6, 10, 15, 21, 6, 10, 15, 21, 6, 10, 15, 21, 6, 10, 15, 21]

/-- The function of the step, and which word of the block is added. -/
def mix (i : ℕ) (s : State) : Word × ℕ :=
  if i < 16 then (s.b &&& s.c ||| ~~~s.b &&& s.d, i)
  else if i < 32 then (s.b &&& s.d ||| s.c &&& ~~~s.d, (5 * i + 1) % 16)
  else if i < 48 then (s.b ^^^ s.c ^^^ s.d, (3 * i + 5) % 16)
  else (s.c ^^^ (s.b ||| ~~~s.d), 7 * i % 16)

/-- Step `i` with the words `M` of the block. -/
def step (M : ℕ → Word) (i : ℕ) (s : State) : State :=
  let f := mix i s
  ⟨s.d, s.b + (s.a + f.1 + K.getD i 0 + M f.2).rotateLeft (shift.getD i 0), s.b, s.c⟩

/-- `n` steps from `i` on. -/
def steps (M : ℕ → Word) : ℕ → ℕ → State → State
  | 0, _, s => s
  | n + 1, i, s => steps M n (i + 1) (step M i s)

/-- The word at four bytes of the block. -/
def word (block : List Byte) (g : ℕ) : Word :=
  block.getD (4 * g + 3) 0 ++ block.getD (4 * g + 2) 0 ++ block.getD (4 * g + 1) 0 ++ block.getD (4 * g) 0

/-- A block. -/
def compress (block : List Byte) (s : State) : State :=
  let t := steps (word block) 64 0 s
  ⟨s.a + t.a, s.b + t.b, s.c + t.c, s.d + t.d⟩

/-- The first `n` blocks of a message. -/
def blocks : ℕ → List Byte → List (List Byte)
  | 0, _ => []
  | n + 1, l => l.take 64 :: blocks n (l.drop 64)

/-- All blocks, one after the other. -/
def absorb (l : List (List Byte)) (s : State) : State := l.foldl (fun s block => compress block s) s

/-- The `n` low bytes of a number. -/
def bytes : ℕ → ℕ → List Byte
  | 0, _ => []
  | n + 1, x => BitVec.ofNat 8 x :: bytes n (x / 256)

/-- What is put behind a message of `n` bytes: a bit, and then its length in bits up to the end of a block. -/
def tail (n : ℕ) : List Byte := 0x80 :: (List.replicate ((119 - n % 64) % 64) 0 ++ bytes 8 (8 * n))

/-- The bytes of the words. -/
def State.bytes (s : State) : List Byte :=
  Md5Spec.bytes 4 s.a.toNat ++ Md5Spec.bytes 4 s.b.toNat ++ Md5Spec.bytes 4 s.c.toNat ++ Md5Spec.bytes 4 s.d.toNat

/-- The digest of a message. -/
def MD5 (m : List Byte) : List Byte :=
  let l := m ++ tail m.length
  (absorb (blocks (l.length / 64) l) init).bytes

/-- The digest of no bytes is D41D8CD98F00B204E9800998ECF8427E. -/
example : MD5 [] = [0xD4, 0x1D, 0x8C, 0xD9, 0x8F, 0x00, 0xB2, 0x04, 0xE9, 0x80, 0x09, 0x98, 0xEC, 0xF8, 0x42, 0x7E] := by
  decide +kernel

/-! ### Blocks -/

variable {m : List Byte} {n k : ℕ}

theorem length_bytes (n x : ℕ) : (bytes n x).length = n := by
  induction n generalizing x with
  | zero => rfl
  | succ n ih => rw [bytes, List.length_cons, ih]

/-- The tail fills a block. -/
theorem length_tail (n : ℕ) : (n + (tail n).length) % 64 = 0 := by
  rw [tail, List.length_cons, List.length_append, List.length_replicate, length_bytes]
  omega

theorem absorb_append (l l' : List (List Byte)) (s : State) : absorb (l ++ l') s = absorb l' (absorb l s) :=
  List.foldl_append

theorem blocks_append (l : List Byte) (hm : m.length = 64) : blocks (n + 1) (m ++ l) = m :: blocks n l := by
  rw [blocks, List.drop_left' hm, List.take_left' hm]

theorem length_blocks (hm : 64 * n ≤ m.length) : ∀ w ∈ blocks n m, w.length = 64 := by
  induction n generalizing m with
  | zero => exact fun w hw => absurd hw List.not_mem_nil
  | succ n ih =>
    have rest : 64 * n ≤ (m.drop 64).length := by
      rw [List.length_drop]
      omega
    exact List.forall_mem_cons.mpr ⟨List.length_take_of_le (by omega), ih rest⟩

/-- The blocks, and what is left. -/
theorem flatten_blocks (n : ℕ) (m : List Byte) : (blocks n m).flatten ++ m.drop (64 * n) = m := by
  induction n generalizing m with
  | zero => rfl
  | succ n ih =>
    have place : 64 * (n + 1) = 64 + 64 * n := by omega
    rw [blocks, List.flatten_cons, List.append_assoc, place, ← List.drop_drop, ih, List.take_append_drop]

theorem blocks_flatten (l : List Byte) {chunks : List (List Byte)} (hc : ∀ c ∈ chunks, c.length = 64) :
    blocks (chunks.length + n) (chunks.flatten ++ l) = chunks ++ blocks n l := by
  induction chunks with
  | nil => rw [List.length_nil, Nat.zero_add, List.flatten_nil, List.nil_append, List.nil_append]
  | cons c chunks ih =>
    obtain ⟨first, rest⟩ := List.forall_mem_cons.mp hc
    rw [List.length_cons, Nat.add_right_comm, List.flatten_cons, List.append_assoc, blocks_append _ first, ih rest,
      List.cons_append]

end RSX280.Md5Spec
