import RSX280.Memory
import RSX280.VmemRuns

/-!
# Words of the system image (`vmem.mac`)

The convenience routines load and store a word in the system bank, which begins with the image. Each of
them keeps other registers, and none does more to the image than the access that its name says.
-/

namespace RSX280.Vmem

/-- `ld e,0`: the system bank. -/
def Regs.bank (r : Regs) : Regs := { r with DE := r.DE / 256 * 256 }

/-! ### Loads -/

def LDHLIX (s : Sys) (r : Regs) : Sys × Regs :=
  let (s, d, u) := SGETB s { r.bank with HL := r.IX }
  let (s, a, u) := SGETB s { u.incHL with DE := d * 256 + u.DE % 256 }
  (s, { u with HL := a * 256 + d, DE := r.DE })

def LDBCIX (s : Sys) (r : Regs) : Sys × Regs :=
  let (s, c, u) := SGETB s { r.bank with HL := r.IX }
  let (s, b, u) := SGETB s { u.incHL with BC := u.BC / 256 * 256 + c }
  (s, { u with BC := b * 256 + u.BC % 256, DE := r.DE, HL := r.HL })

def LDDEHL (s : Sys) (r : Regs) : Sys × Regs :=
  let (s, d, u) := SGETB s r.bank
  let (s, a, u) := SGETB s { u.incHL with DE := d * 256 + u.DE % 256 }
  (s, { u.incHL with DE := a * 256 + d })

/-- `LDEIX2`: it loads from `IX + 2`. -/
def LDEIX2 (s : Sys) (r : Regs) : Sys × Regs :=
  let (s, d, u) := SGETB s ({ r.bank with HL := r.IX } : Regs).incHL.incHL
  let (s, a, u) := SGETB s { u.incHL with DE := d * 256 + u.DE % 256 }
  (s, { u with DE := a * 256 + d, HL := r.HL })

def LDDEBC (s : Sys) (r : Regs) : Sys × Regs :=
  let (s, u) := LDDEHL s { r with HL := r.BC }
  (s, { u with BC := u.HL, HL := r.HL })

/-! ### Stores -/

def STHLDE (s : Sys) (r : Regs) : Sys × Regs :=
  let (s, u) := SPUTB s (r.DE % 256) r.bank
  let (s, u) := SPUTB s (u.DE / 256) u.incHL
  (s, { u.incHL with DE := r.DE })

def STHLBC (s : Sys) (r : Regs) : Sys × Regs :=
  let (s, u) := SPUTB s (r.BC % 256) r.bank
  let (s, u) := SPUTB s (u.BC / 256) u.incHL
  (s, { u.incHL with DE := r.DE })

def STIXHL (s : Sys) (r : Regs) : Sys × Regs :=
  let (s, u) := STHLBC s { r with BC := r.HL, HL := r.IX }
  (s, { u with BC := r.BC, HL := r.HL })

/-- `SIXHL2`: it stores at `IX + 2`. -/
def SIXHL2 (s : Sys) (r : Regs) : Sys × Regs :=
  let (s, u) := STHLBC s ({ r with BC := r.HL, HL := r.IX } : Regs).incHL.incHL
  (s, { u with BC := r.BC, HL := r.HL })

def STIXBC (s : Sys) (r : Regs) : Sys × Regs :=
  let (s, u) := STHLBC s { r with HL := r.IX }
  (s, { u with HL := r.HL })

section

variable {g : Bytes} {s : Sys} {r : Regs}

/-! ### Bytes -/

theorem put_one (m : Flat) (a : ℕ) (x : UInt8) : m.put a [x] = Mem.wr8 m a x := by
  funext b
  rw [Flat.put, Mem.wr8, Function.update_apply]
  by_cases same : b = a
  · rw [same, if_pos (Nat.le_refl a), if_pos rfl, Nat.sub_self]
    rfl
  · rw [if_neg same]
    split
    · have behind : ([x] : List UInt8)[b - a]? = none := List.getElem?_eq_none_iff.mpr (by simp; omega)
      rw [behind, Option.getD_none]
    · rfl

/-- A byte of the system bank. -/
theorem SGETB_bank (h : s.Good g) (hr : r.Valid) (bank : r.DE % 256 = 0) :
    ∃ s', s'.Good g ∧ s'.flat = s.flat ∧ SGETB s r = (s', (s.flat r.HL).toNat, r) := by
  obtain ⟨good, flat, eq⟩ := SGETB_spec h hr rfl
  rw [bank, addr, Nat.zero_mul, Nat.zero_add] at eq
  exact ⟨_, good, flat, Prod.ext rfl eq⟩

theorem SPUTB_bank (h : s.Good g) (hr : r.Valid) (bank : r.DE % 256 = 0) (a : ℕ) :
    ∃ s', s'.Good g ∧ s'.flat = Mem.wr8 s.flat r.HL (UInt8.ofNat a) ∧ SPUTB s a r = (s', r) := by
  obtain ⟨good, flat, eq⟩ := SPUTB_spec (a := a) h hr rfl
  rw [bank, addr, Nat.zero_mul, Nat.zero_add, put_one] at flat
  exact ⟨_, good, flat, Prod.ext rfl eq⟩

theorem Regs.Valid.bank (h : r.Valid) : r.bank.Valid := by
  have de := h.DE
  refine ⟨h.BC, ?_, h.HL⟩
  rw [Regs.bank]
  dsimp only
  omega

theorem bank_zero (r : Regs) : r.bank.DE % 256 = 0 := Nat.mul_mod_left _ _

/-- The first byte in `D`. -/
theorem first_byte (r : Regs) (x : UInt8) :
    x.toNat * 256 + r.bank.DE % 256 < 65536 ∧ (x.toNat * 256 + r.bank.DE % 256) % 256 = 0 := by
  have := x.toNat_lt
  rw [bank_zero]
  omega

/-- The two bytes of a word, the low one first. -/
theorem SGETB_word (h : s.Good g) (hr : r.Valid) (bank : r.DE % 256 = 0) :
    ∃ s₁ x, SGETB s r = (s₁, UInt8.toNat x, r) ∧ ∀ u : Regs, u.Valid → u.HL = (r.HL + 1) % 65536 → u.DE % 256 = 0 →
      ∃ s₂ y, SGETB s₁ u = (s₂, UInt8.toNat y, u) ∧ s₂.Good g ∧ s₂.flat = s.flat ∧
        UInt8.toNat y * 256 + UInt8.toNat x = Mem.rd16 s.flat r.HL := by
  obtain ⟨s₁, good₁, flat₁, eq₁⟩ := SGETB_bank h hr bank
  refine ⟨s₁, _, eq₁, fun u hu next same => ?_⟩
  obtain ⟨s₂, good₂, flat₂, eq₂⟩ := SGETB_bank good₁ hu same
  rw [next, flat₁] at eq₂
  refine ⟨s₂, _, eq₂, good₂, flat₂.trans flat₁, ?_⟩
  rw [Mem.rd16, Nat.mul_comm, Nat.add_comm]

/-- The same for a store. -/
theorem SPUTB_word (h : s.Good g) (hr : r.Valid) (bank : r.DE % 256 = 0) (v : ℕ) :
    ∃ s₁, SPUTB s (v % 256) r = (s₁, r) ∧ ∃ s₂, SPUTB s₁ (v / 256) r.incHL = (s₂, r.incHL) ∧
      s₂.Good g ∧ s₂.flat = Mem.wr16 s.flat r.HL v := by
  obtain ⟨s₁, good₁, flat₁, eq₁⟩ := SPUTB_bank h hr bank (v % 256)
  obtain ⟨s₂, good₂, flat₂, eq₂⟩ := SPUTB_bank good₁ hr.incHL bank (v / 256)
  have low : UInt8.ofNat (v % 256) = UInt8.ofNat v := UInt8.ofNat_mod_size
  refine ⟨s₁, eq₁, s₂, eq₂, good₂, ?_⟩
  rw [flat₂, flat₁, low]
  rfl

/-! ### Loads of a word -/

theorem LDHLIX_spec (h : s.Good g) (hr : r.Valid) (hx : r.IX < 65536) :
    ∃ s', s'.Good g ∧ s'.flat = s.flat ∧ LDHLIX s r = (s', { r with HL := Mem.rd16 s.flat r.IX }) := by
  obtain ⟨s₁, x, low, next⟩ := SGETB_word (r := { r.bank with HL := r.IX }) h ⟨hr.BC, hr.bank.DE, hx⟩ (bank_zero r)
  obtain ⟨s₂, y, high, good, flat, word⟩ := next ⟨r.BC, x.toNat * 256 + r.bank.DE % 256, (r.IX + 1) % 65536, r.IX⟩
    ⟨hr.BC, (first_byte r x).1, Nat.mod_lt _ (by decide)⟩ rfl (first_byte r x).2
  refine ⟨s₂, good, flat, ?_⟩
  rw [LDHLIX, low]
  dsimp only [Regs.incHL]
  have high' : SGETB s₁ ⟨r.bank.BC, x.toNat * 256 + r.bank.DE % 256, (r.IX + 1) % 65536, r.bank.IX⟩ = _ := high
  rw [high', word]

theorem LDBCIX_spec (h : s.Good g) (hr : r.Valid) (hx : r.IX < 65536) :
    ∃ s', s'.Good g ∧ s'.flat = s.flat ∧ LDBCIX s r = (s', { r with BC := Mem.rd16 s.flat r.IX }) := by
  obtain ⟨s₁, x, low, next⟩ := SGETB_word (r := { r.bank with HL := r.IX }) h ⟨hr.BC, hr.bank.DE, hx⟩ (bank_zero r)
  have small := x.toNat_lt
  have bc := hr.BC
  obtain ⟨s₂, y, high, good, flat, word⟩ := next
    ⟨r.BC / 256 * 256 + x.toNat, r.bank.DE, (r.IX + 1) % 65536, r.IX⟩
    ⟨by dsimp only; omega, hr.bank.DE, Nat.mod_lt _ (by decide)⟩ rfl (bank_zero r)
  refine ⟨s₂, good, flat, ?_⟩
  have last : (r.BC / 256 * 256 + x.toNat) % 256 = x.toNat := by omega
  rw [LDBCIX, low]
  dsimp only [Regs.incHL]
  have high' : SGETB s₁ ⟨r.bank.BC / 256 * 256 + x.toNat, r.bank.DE, (r.IX + 1) % 65536, r.bank.IX⟩ = _ := high
  rw [high']
  dsimp only
  rw [last, word]

theorem LDDEHL_spec (h : s.Good g) (hr : r.Valid) :
    ∃ s', s'.Good g ∧ s'.flat = s.flat ∧
      LDDEHL s r = (s', { r with DE := Mem.rd16 s.flat r.HL, HL := (r.HL + 2) % 65536 }) := by
  obtain ⟨s₁, x, low, next⟩ := SGETB_word (r := r.bank) h hr.bank (bank_zero r)
  obtain ⟨s₂, y, high, good, flat, word⟩ := next ⟨r.BC, x.toNat * 256 + r.bank.DE % 256, (r.HL + 1) % 65536, r.IX⟩
    ⟨hr.BC, (first_byte r x).1, Nat.mod_lt _ (by decide)⟩ rfl (first_byte r x).2
  refine ⟨s₂, good, flat, ?_⟩
  have past : ((r.HL + 1) % 65536 + 1) % 65536 = (r.HL + 2) % 65536 := by omega
  rw [LDDEHL, low]
  dsimp only [Regs.incHL]
  have high' : SGETB s₁ ⟨r.bank.BC, x.toNat * 256 + r.bank.DE % 256, (r.bank.HL + 1) % 65536, r.bank.IX⟩ = _ := high
  rw [high']
  dsimp only
  rw [past, word]
  rfl

theorem LDEIX2_spec (h : s.Good g) (hr : r.Valid) :
    ∃ s', s'.Good g ∧ s'.flat = s.flat ∧
      LDEIX2 s r = (s', { r with DE := Mem.rd16 s.flat ((r.IX + 2) % 65536) }) := by
  have past : ((r.IX + 1) % 65536 + 1) % 65536 = (r.IX + 2) % 65536 := by omega
  obtain ⟨s₁, x, low, next⟩ := SGETB_word (r := ({ r.bank with HL := r.IX } : Regs).incHL.incHL) h
    ⟨hr.BC, hr.bank.DE, Nat.mod_lt _ (by decide)⟩ (bank_zero r)
  obtain ⟨s₂, y, high, good, flat, word⟩ := next
    ⟨r.BC, x.toNat * 256 + r.bank.DE % 256, (((r.IX + 1) % 65536 + 1) % 65536 + 1) % 65536, r.IX⟩
    ⟨hr.BC, (first_byte r x).1, Nat.mod_lt _ (by decide)⟩ rfl (first_byte r x).2
  refine ⟨s₂, good, flat, ?_⟩
  rw [LDEIX2, low, ← past]
  dsimp only [Regs.incHL]
  have high' : SGETB s₁ ⟨r.bank.BC, x.toNat * 256 + r.bank.DE % 256,
    (((r.IX + 1) % 65536 + 1) % 65536 + 1) % 65536, r.bank.IX⟩ = _ := high
  rw [high']
  dsimp only
  rw [word]
  rfl

theorem LDDEBC_spec (h : s.Good g) (hr : r.Valid) :
    ∃ s', s'.Good g ∧ s'.flat = s.flat ∧
      LDDEBC s r = (s', { r with DE := Mem.rd16 s.flat r.BC, BC := (r.BC + 2) % 65536 }) := by
  obtain ⟨s', good, flat, eq⟩ := LDDEHL_spec (r := { r with HL := r.BC }) h ⟨hr.BC, hr.DE, hr.BC⟩
  refine ⟨s', good, flat, ?_⟩
  rw [LDDEBC, eq]

/-! ### Stores of a word -/

theorem STHLDE_spec (h : s.Good g) (hr : r.Valid) :
    ∃ s', s'.Good g ∧ s'.flat = Mem.wr16 s.flat r.HL r.DE ∧
      STHLDE s r = (s', { r with HL := (r.HL + 2) % 65536 }) := by
  have de : (r.DE / 256 * 256) / 256 = r.DE / 256 := Nat.mul_div_cancel _ (by decide)
  obtain ⟨s₁, low, s₂, high, good, flat⟩ := SPUTB_word h hr.bank (bank_zero r) r.DE
  have past : ((r.HL + 1) % 65536 + 1) % 65536 = (r.HL + 2) % 65536 := by omega
  refine ⟨s₂, good, flat, ?_⟩
  have high' : SPUTB s₁ (r.bank.DE / 256) r.bank.incHL = _ := de.symm ▸ high
  rw [STHLDE, low]
  dsimp only
  rw [high']
  dsimp only [Regs.incHL]
  rw [show r.bank.HL = r.HL from rfl, past]
  rfl

theorem STHLBC_spec (h : s.Good g) (hr : r.Valid) :
    ∃ s', s'.Good g ∧ s'.flat = Mem.wr16 s.flat r.HL r.BC ∧
      STHLBC s r = (s', { r with HL := (r.HL + 2) % 65536 }) := by
  obtain ⟨s₁, low, s₂, high, good, flat⟩ := SPUTB_word h hr.bank (bank_zero r) r.BC
  have past : ((r.HL + 1) % 65536 + 1) % 65536 = (r.HL + 2) % 65536 := by omega
  refine ⟨s₂, good, flat, ?_⟩
  have high' : SPUTB s₁ (r.bank.BC / 256) r.bank.incHL = _ := high
  rw [STHLBC, low]
  dsimp only
  rw [high']
  dsimp only [Regs.incHL]
  rw [show r.bank.HL = r.HL from rfl, past]
  rfl

theorem STIXHL_spec (h : s.Good g) (hr : r.Valid) (hx : r.IX < 65536) :
    ∃ s', s'.Good g ∧ s'.flat = Mem.wr16 s.flat r.IX r.HL ∧ STIXHL s r = (s', r) := by
  obtain ⟨s', good, flat, eq⟩ := STHLBC_spec (r := { r with BC := r.HL, HL := r.IX }) h ⟨hr.HL, hr.DE, hx⟩
  refine ⟨s', good, flat, ?_⟩
  rw [STIXHL, eq]

theorem SIXHL2_spec (h : s.Good g) (hr : r.Valid) :
    ∃ s', s'.Good g ∧ s'.flat = Mem.wr16 s.flat ((r.IX + 2) % 65536) r.HL ∧ SIXHL2 s r = (s', r) := by
  have past : ((r.IX + 1) % 65536 + 1) % 65536 = (r.IX + 2) % 65536 := by omega
  obtain ⟨s', good, flat, eq⟩ := STHLBC_spec (r := ({ r with BC := r.HL, HL := r.IX } : Regs).incHL.incHL) h
    ⟨hr.HL, hr.DE, Nat.mod_lt _ (by decide)⟩
  rw [← past]
  refine ⟨s', good, flat, ?_⟩
  rw [SIXHL2, eq]
  rfl

theorem STIXBC_spec (h : s.Good g) (hr : r.Valid) (hx : r.IX < 65536) :
    ∃ s', s'.Good g ∧ s'.flat = Mem.wr16 s.flat r.IX r.BC ∧ STIXBC s r = (s', r) := by
  obtain ⟨s', good, flat, eq⟩ := STHLBC_spec (r := { r with HL := r.IX }) h ⟨hr.BC, hr.DE, hx⟩
  refine ⟨s', good, flat, ?_⟩
  rw [STIXBC, eq]

end

end RSX280.Vmem
