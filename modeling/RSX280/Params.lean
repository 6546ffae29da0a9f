import RSX280.Quoting

/-!
# The parameters of a transfer (`RPAR` and `SPAR` in `kermit/kpkt.mac`)

The sender's first packet says what it wants to receive, and the acknowledgement says the same of the receiver. Each side
reads the other's wishes with `SPAR`.

Both always use the same block check. They quote the same way except after a transfer that has left another eighth-bit
quote character behind (`agree_iff`).
-/

namespace RSX280.Kpkt

def PARNON : ℕ := 0x06

/-- What a side is set to. -/
structure Own where
  RPSIZ : ℕ
  RTIME : ℕ
  RPAD : ℕ
  RPADCH : ℕ
  REOL : ℕ
  RQUOTE : ℕ
  CHKTYP : ℕ
  PARITY : ℕ
  deriving DecidableEq

/-- What a side has learned from the other. -/
structure Agreed where
  SPSIZ : ℕ
  SPAD : ℕ
  SPADCH : ℕ
  SEOL : ℕ
  SQUOTE : ℕ
  QBCHR : ℕ
  QUOT8 : Bool
  INICHK : ℕ
  deriving DecidableEq

/-- The characters `ENCODE` quotes with. -/
def Agreed.sends (a : Agreed) : Quotes := ⟨a.SQUOTE, a.QBCHR, a.QUOT8⟩

/-- The characters `PTCHR` looks for. -/
def Agreed.takes (a : Agreed) (own : Own) : Quotes := ⟨own.RQUOTE, a.QBCHR, a.QUOT8⟩

/-- `RPAR`. -/
def RPAR (own : Own) (a : Agreed) : List ℕ :=
  [(own.RPSIZ + 0x20) % 256, (own.RTIME + 0x20) % 256, (own.RPAD + 0x20) % 256, (own.RPADCH + 0x40) &&& 0x7F,
    (own.REOL + 0x20) % 256, own.RQUOTE, if own.PARITY = PARNON then 'Y'.toNat else a.QBCHR, own.CHKTYP]

/-- `SPAR1`: the block check of the data, if it is the one wanted here. -/
def SPAR1 (own : Own) (data : List ℕ) (a : Agreed) : Agreed :=
  if data.length < 8 then a else if own.CHKTYP = data.getD 7 0 then { a with INICHK := data.getD 7 0 } else a

/-- `SPAR` from the eighth-bit quote character on. -/
def SPAR6 (own : Own) (data : List ℕ) (a : Agreed) : Agreed :=
  let a := { a with QUOT8 := false }
  let c := data.getD 6 0
  if c = 'N'.toNat ∨ c = ' '.toNat then SPAR1 own data a
  else if c = 'Y'.toNat then
    if own.PARITY = PARNON then SPAR1 own data a else SPAR1 own data { a with QUOT8 := true }
  else SPAR1 own data { a with QBCHR := c, QUOT8 := true }

/-- `SPAR`. A field that is not there keeps its default. -/
def SPAR (own : Own) (data : List ℕ) (a : Agreed) : Agreed :=
  let a := { a with SEOL := 0x0D, SQUOTE := '#'.toNat, QBCHR := '&'.toNat, INICHK := '1'.toNat }
  let a := { a with SPSIZ := (data.getD 0 0 + 256 - 0x20) % 256 }
  if data.length < 3 then a else
  let a := { a with SPAD := (data.getD 2 0 + 256 - 0x20) % 256 }
  if data.length < 4 then a else
  let a := { a with SPADCH := (data.getD 3 0 + 0x40) &&& 0x7F }
  if data.length < 5 then a else
  let a := { a with SEOL := (data.getD 4 0 + 256 - 0x20) % 256 }
  if data.length < 6 then a else
  let a := { a with SQUOTE := data.getD 5 0 }
  if data.length < 7 then a else SPAR6 own data a

/-! ### What both sides learn -/

variable (s r o : Own) (a b : Agreed)

/-- What the receiver learns from the sender's first packet. -/
def answered : Agreed := SPAR r (RPAR s a) b

/-- What the sender learns from the acknowledgement. -/
def settled : Agreed := SPAR s (RPAR r (answered s r a b)) a

/-- The whole of the parameters is read. -/
theorem SPAR_RPAR : SPAR o (RPAR r b) a =
    SPAR6 o (RPAR r b) ⟨((r.RPSIZ + 0x20) % 256 + 256 - 0x20) % 256, ((r.RPAD + 0x20) % 256 + 256 - 0x20) % 256,
      ((r.RPADCH + 0x40) &&& 0x7F) + 0x40 &&& 0x7F, ((r.REOL + 0x20) % 256 + 256 - 0x20) % 256, r.RQUOTE,
      '&'.toNat, a.QUOT8, '1'.toNat⟩ := rfl

/-- `SPAR1` is about the block check only. -/
@[simp] theorem SPAR1_fields (data : List ℕ) : (SPAR1 o data a).SPSIZ = a.SPSIZ ∧ (SPAR1 o data a).SQUOTE = a.SQUOTE ∧
    (SPAR1 o data a).QBCHR = a.QBCHR ∧ (SPAR1 o data a).QUOT8 = a.QUOT8 := by
  simp only [SPAR1]
  split
  · simp
  · split <;> simp

theorem INICHK_SPAR1 : (SPAR1 o (RPAR r b) a).INICHK = if o.CHKTYP = r.CHKTYP then r.CHKTYP else a.INICHK := by
  have seven : (RPAR r b).getD 7 0 = r.CHKTYP := rfl
  simp only [SPAR1, seven]
  split
  · exact absurd ‹_› (by simp [RPAR])
  · split <;> rfl

/-- `SPAR6` leaves the quote character and the size alone. -/
theorem SPAR6_fields (data : List ℕ) :
    (SPAR6 o data a).SQUOTE = a.SQUOTE ∧ (SPAR6 o data a).SPSIZ = a.SPSIZ := by
  simp only [SPAR6]
  repeat' split
  all_goals simp

/-- The block check is the one both want, or the single character. -/
theorem INICHK_SPAR : (SPAR o (RPAR r b) a).INICHK = if o.CHKTYP = r.CHKTYP then r.CHKTYP else '1'.toNat := by
  simp only [SPAR_RPAR, SPAR6]
  repeat' split
  all_goals simp only [INICHK_SPAR1, if_true, if_false, *]

theorem SQUOTE_SPAR : (SPAR o (RPAR r b) a).SQUOTE = r.RQUOTE := by
  rw [SPAR_RPAR, (SPAR6_fields o _ _).1]

theorem SPSIZ_SPAR (small : r.RPSIZ < 256) : (SPAR o (RPAR r b) a).SPSIZ = r.RPSIZ := by
  rw [SPAR_RPAR, (SPAR6_fields o _ _).2]
  show ((r.RPSIZ + 0x20) % 256 + 256 - 0x20) % 256 = r.RPSIZ
  omega

/-- How the eighth bit is quoted after `SPAR`. -/
def eighthOf (par : ℕ) (c : ℕ) : Bool × ℕ :=
  if c = 'N'.toNat ∨ c = ' '.toNat then (false, '&'.toNat)
  else if c = 'Y'.toNat then (par ≠ PARNON, '&'.toNat)
  else (true, c)

variable {c par : ℕ}

theorem eighthOf_off (off : c = 'N'.toNat ∨ c = ' '.toNat) : eighthOf par c = (false, '&'.toNat) := if_pos off

theorem eighthOf_yes : eighthOf par 'Y'.toNat = (decide (par ≠ PARNON), '&'.toNat) := rfl

theorem eighthOf_char (on : ¬ (c = 'N'.toNat ∨ c = ' '.toNat)) (ne : c ≠ 'Y'.toNat) : eighthOf par c = (true, c) := by
  rw [eighthOf, if_neg on, if_neg ne]

theorem eighthOf_and : eighthOf par '&'.toNat = (true, '&'.toNat) := rfl

theorem eighth_SPAR : ((SPAR o (RPAR r b) a).QUOT8, (SPAR o (RPAR r b) a).QBCHR) =
    eighthOf o.PARITY (if r.PARITY = PARNON then 'Y'.toNat else b.QBCHR) := by
  have six : (RPAR r b).getD 6 0 = if r.PARITY = PARNON then 'Y'.toNat else b.QBCHR := rfl
  simp only [SPAR_RPAR, SPAR6, six, eighthOf]
  generalize (if r.PARITY = PARNON then 'Y'.toNat else b.QBCHR) = c
  split
  · simp
  · split
    · split <;> simp [*]
    · simp

/-- Both sides agree: what one quotes with the other looks for, and the block check is the same. -/
def Agree : Prop :=
  (settled s r a b).SQUOTE = r.RQUOTE ∧ (settled s r a b).QUOT8 = (answered s r a b).QUOT8 ∧
    ((settled s r a b).QUOT8 = true → (settled s r a b).QBCHR = (answered s r a b).QBCHR) ∧
    (settled s r a b).INICHK = (answered s r a b).INICHK

/-- They agree exactly when the sender has no parity, or the eighth-bit quote character that it offers is one the
receiver will know it by. -/
theorem agree_iff : Agree s r a b ↔
    s.PARITY = PARNON ∨ (if r.PARITY = PARNON then a.QBCHR = '&'.toNat
      else a.QBCHR ≠ 'N'.toNat ∧ a.QBCHR ≠ ' '.toNat) := by
  have first := eighth_SPAR s r b a
  have back := eighth_SPAR r s a (answered s r a b)
  have check : (settled s r a b).INICHK = (answered s r a b).INICHK := by
    rw [settled, answered, INICHK_SPAR, INICHK_SPAR]
    split <;> split <;> simp_all
  have quote : (settled s r a b).SQUOTE = r.RQUOTE := SQUOTE_SPAR r s a _
  rw [Prod.ext_iff] at first back
  change (answered s r a b).QUOT8 = _ ∧ (answered s r a b).QBCHR = _ at first
  change (settled s r a b).QUOT8 = _ ∧ (settled s r a b).QBCHR = _ at back
  simp only [Agree, quote, check, true_and, and_true, back.1, back.2, first.1, first.2]
  by_cases hs : s.PARITY = PARNON
  · by_cases hr : r.PARITY = PARNON
    · simp only [hs, hr, if_true, eighthOf_yes, true_or, iff_true]
      simp
    · simp only [hs, hr, if_true, if_false, eighthOf_yes, eighthOf_and, true_or, iff_true]
      simp [hr]
  · by_cases off : a.QBCHR = 'N'.toNat ∨ a.QBCHR = ' '.toNat
    · have ne : a.QBCHR ≠ '&'.toNat := by
        intro same
        rw [same] at off
        exact absurd off (by decide)
      simp only [hs, if_false, eighthOf_off off, false_or]
      by_cases hr : r.PARITY = PARNON
      · simp only [hr, if_true, eighthOf_yes, ne, iff_false]
        simp [hs]
      · simp only [hr, if_false, eighthOf_and, Bool.true_eq_false, false_and, false_iff]
        tauto
    · by_cases yes : a.QBCHR = 'Y'.toNat
      · simp only [hs, if_false, yes, eighthOf_yes, false_or]
        by_cases hr : r.PARITY = PARNON
        · simp only [hr, if_true, eighthOf_yes]
          simp [hs]
        · simp only [hr, if_false, eighthOf_and]
          simp [hr]
      · simp only [hs, if_false, eighthOf_char off yes, false_or]
        by_cases hr : r.PARITY = PARNON
        · simp only [hr, if_true, eighthOf_yes, hs, ne_eq, not_false_eq_true, decide_true, true_and, forall_true_left]
          exact eq_comm
        · simp only [hr, if_false, eighthOf_char off yes, true_and, forall_true_left, true_iff]
          exact not_or.1 off

end RSX280.Kpkt
