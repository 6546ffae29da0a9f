import Mathlib.Data.List.TakeWhile
import RSX280.Packet

/-!
# What `RPACK` accepts (`kermit/kpkt.mac`)

`RPACK` accepts the characters that `SPACK` makes of a packet, and nothing that a short disturbance makes of them.
-/

namespace RSX280.Kpkt

/-! ### The tables -/

/-- The bits of characters, as they are sent. -/
def bitsOf (l : List ℕ) : List Bool := (l.map (BitVec.ofNat 8)).flatMap Crc.bits

section Accepted

variable {SOP CURCHK : ℕ} {l chars : List ℕ} {h : Heard} (free : SOP ∉ l)
include free

end Accepted

/-- The characters of a packet are neither the end of it nor the start of another. -/
def Plain (SOP : ℕ) (l : List ℕ) : Prop := ∀ ch ∈ l, ch ≠ 0 ∧ ch ≠ SOP

/-- The kinds of check. -/
def IsCheck (CURCHK : ℕ) : Prop := CURCHK = '1'.toNat ∨ CURCHK = '2'.toNat ∨ CURCHK = '3'.toNat

variable {SOP CURCHK : ℕ} {p : Pkt}

/-- A packet that `SPACK` can send. -/
structure Sendable (CURCHK : ℕ) (p : Pkt) : Prop where
  check : IsCheck CURCHK
  num : p.num < 64
  size : p.data.length + further CURCHK ≤ 91
  data : ∀ ch ∈ p.data, 0x20 ≤ ch ∧ ch < 256

theorem check2_printing (bc : ℕ) : ∀ ch ∈ check2 bc, 0x20 ≤ ch ∧ ch < 0x60 := by
  simp only [check2, List.mem_cons, List.not_mem_nil, or_false, forall_eq_or_imp, forall_eq]
  omega

theorem blockCheck_printing (l : List ℕ) : ∀ ch ∈ blockCheck CURCHK l, 0x20 ≤ ch ∧ ch < 0x60 := by
  simp only [blockCheck]
  split
  · exact check2_printing _
  · split
    · intro ch mem
      obtain rfl | mem := List.mem_cons.1 mem
      · have := (CRCCLC l).isLt
        omega
      · exact check2_printing _ ch mem
    · simp only [check1, List.mem_singleton, forall_eq]
      omega

section Collect

variable (c : Line)

end Collect

/-! ### Parity -/

/-- The parities of both sides leave the characters alone. -/
def Parities (sends takes : ℕ) (l : List ℕ) : Prop :=
  if takes = PARNON then sends = PARNON else ∀ ch ∈ l, ch < 128

/-- They have no parity bit unless the data have one. -/
theorem packet_seven (h : Sendable CURCHK p) (seven : ∀ ch ∈ p.data, ch < 128) :
    ∀ ch ∈ covered CURCHK p ++ blockCheck CURCHK (covered CURCHK p), ch < 128 := by
  have size := h.size
  have num := h.num
  intro ch mem
  obtain mem | mem := List.mem_append.1 mem
  · obtain rfl | mem := List.mem_cons.1 mem
    · rw [lengthChar]
      omega
    · obtain rfl | mem := List.mem_cons.1 mem
      · omega
      · obtain rfl | mem := List.mem_cons.1 mem
        · cases p.kind <;> decide
        · exact seven ch mem
  · have := blockCheck_printing _ ch mem
    omega

theorem Parities.packet {sends takes : ℕ} (par : Parities sends takes p.data) {c : Line} (h : Sendable CURCHK p)
    (start : c.RCVSOP < 0x20) (stop : c.REOL < 0x20) : Parities sends takes (SPACK c.RCVSOP c.REOL CURCHK p) := by
  simp only [Parities] at par ⊢
  split
  · rwa [if_pos (by assumption)] at par
  · rw [if_neg (by assumption)] at par
    intro ch mem
    obtain rfl | mem := List.mem_cons.1 mem
    · omega
    · obtain mem | mem := List.mem_append.1 mem
      · exact packet_seven h par ch mem
      · rw [List.mem_singleton.1 mem]
        omega

end RSX280.Kpkt
