import RSX280.Crc
import RSX280.Transfer

/-!
# Packets on the line (`kermit/kpkt.mac`, `kermit/kutl.mac`)

`SPACK` and `OUTPKT` send a packet as characters, with a block check of one to three of them. `INPKT` collects the
characters from the start of a packet to its end, and `RPACK` takes it apart and compares the check.
-/

namespace RSX280.Kpkt

/-! ### The block check -/

def CRCTAB : List (BitVec 16) :=
  [0x0000, 0x1081, 0x2102, 0x3183, 0x4204, 0x5285, 0x6306, 0x7387,
    0x8408, 0x9489, 0xA50A, 0xB58B, 0xC60C, 0xD68D, 0xE70E, 0xF78F]

def CRCTB2 : List (BitVec 16) :=
  [0x0000, 0x1189, 0x2312, 0x329B, 0x4624, 0x57AD, 0x6536, 0x74BF,
    0x8C48, 0x9DC1, 0xAF5A, 0xBED3, 0xCA6C, 0xDBE5, 0xE97E, 0xF8F7]

/-- `CRCCL0`: one character, with an entry of each table for half of it. -/
def CRCCL0 (de : BitVec 16) (ch : BitVec 8) : BitVec 16 :=
  let e := de.setWidth 8 ^^^ ch
  (de >>> 8) ^^^ CRCTAB.getD (e.toNat / 16) 0 ^^^ CRCTB2.getD (e.toNat % 16) 0

/-- `CRCCLC`, which stops at a zero. -/
def CRCCLC (l : List ℕ) : BitVec 16 := (l.takeWhile (· ≠ 0)).foldl (fun de ch => CRCCL0 de (BitVec.ofNat 8 ch)) 0

/-- The sum of the characters in BC. -/
def sum16 (l : List ℕ) : ℕ := l.sum % 65536

/-- A check of one character. -/
def check1 (c : ℕ) : List ℕ := [(c + c / 64) % 64 + 0x20]

/-- `SPACK4`: two characters for the low twelve bits. -/
def check2 (bc : ℕ) : List ℕ := [bc / 256 % 16 * 4 + bc % 256 / 64 + 0x20, bc % 64 + 0x20]

/-- `SPACK3` and `SPACK5`: the check of the characters from the length on. -/
def blockCheck (CURCHK : ℕ) (l : List ℕ) : List ℕ :=
  if CURCHK = '2'.toNat then check2 (sum16 l)
  else if '2'.toNat < CURCHK then ((CRCCLC l).toNat / 4096 + 0x20) :: check2 (CRCCLC l).toNat
  else check1 (sum16 l % 256)

/-! ### Sending -/

def Kind.char : Kind → ℕ
  | .S => 'S'.toNat
  | .F => 'F'.toNat
  | .D => 'D'.toNat
  | .Z => 'Z'.toNat
  | .B => 'B'.toNat
  | .Y => 'Y'.toNat
  | .N => 'N'.toNat
  | .E => 'E'.toNat

/-- The further characters of the check. -/
def further (CURCHK : ℕ) : ℕ := (CURCHK + 256 - '1'.toNat) % 256

/-- The length of a packet with `n` data characters. -/
def lengthChar (CURCHK n : ℕ) : ℕ := (n + 0x23 + further CURCHK) % 256

/-- The characters that the check covers: length, number, type and data. -/
def covered (CURCHK : ℕ) (p : Pkt) : List ℕ :=
  lengthChar CURCHK p.data.length :: (p.num + 0x20) % 256 :: p.kind.char :: p.data

/-- `SPACK`. -/
def SPACK (SNDSOP SEOL CURCHK : ℕ) (p : Pkt) : List ℕ :=
  SNDSOP :: (covered CURCHK p ++ blockCheck CURCHK (covered CURCHK p) ++ [SEOL])

/-- What `INPKT` knows: the character that starts a packet, the one that ends it, and the type of the packet sent last. -/
structure Line where
  RCVSOP : ℕ
  REOL : ℕ
  sent : ℕ

/-- A packet as `RPACK` returns it: A, `ARGBLK` and the data. -/
structure Heard where
  type : ℕ
  num : ℕ
  data : List ℕ
  deriving DecidableEq

/-- From the characters that the check covers. -/
def Heard.of (l : List ℕ) : Heard := ⟨l.getD 2 0, (l.getD 1 0 + 256 - 0x20) % 256, l.drop 3⟩

/-- Where `RPACK` is: at the length, with so many characters still to be covered, or with the check still to be compared. -/
inductive Stage
  | len
  | read (l : List ℕ) (more : ℕ)
  | check (l : List ℕ) (left : List ℕ)

end RSX280.Kpkt
