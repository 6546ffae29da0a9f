import Mathlib.Data.Nat.Bitwise
import Mathlib.Tactic.Common

/-!
# The characters of a packet (`kermit/kpkt.mac`, `kermit/kutl.mac`)

The bytes of a file are sent as printing characters. A control character follows the quote character, and with eighth-bit
quoting a byte with the high bit set follows the eighth-bit quote character. `ENCODE` makes the characters of one byte,
`GTCHR` those of as many bytes as fit in a packet, and `PTCHR` gets the bytes back.
-/

namespace RSX280.Kpkt

/-- The quote characters: `SQUOTE` of the sender or `RQUOTE` of the receiver, `QBCHR` and `QUOT8`. -/
structure Quotes where
  quote : ℕ
  qbchr : ℕ
  quot8 : Bool
  deriving DecidableEq

/-- The eighth-bit quote character, or zero when that bit is not quoted. -/
def Quotes.eighth (q : Quotes) : ℕ := if q.quot8 then q.qbchr else 0

/-- `ENCOD1`: the characters of the seven bits `d`, with the eighth bit in `e`. -/
def ENCOD1 (q : Quotes) (d e : ℕ) : List ℕ :=
  if d < 0x20 ∨ d = 0x7F then [q.quote, ((d + 0x40) &&& 0x7F) ||| e]
  else if (q.quot8 ∧ q.qbchr = d) ∨ d = q.quote then [q.quote, d ||| e]
  else [d ||| e]

/-- `ENCODE`: the characters of a byte, or the carry with fewer than three places left. -/
def ENCODE (q : Quotes) (room ch : ℕ) : Option (List ℕ) :=
  if room < 3 then none
  else if (ch &&& 0x80) ≠ 0 ∧ q.quot8 then some (q.qbchr :: ENCOD1 q (ch &&& 0x7F) 0)
  else some (ENCOD1 q (ch &&& 0x7F) (ch &&& 0x80))

/-- `PTCHR2`: the next byte and the characters after it. A zero stands after the characters of a packet. -/
def PTCHR2 (q : Quotes) (ch : ℕ) (cs : List ℕ) : ℕ × List ℕ :=
  let binary := ch = q.eighth
  let e := if binary then 0x80 else 0
  let a := if binary then cs.headD 0 else ch
  let cs := if binary then cs.tail else cs
  if a = q.quote then
    let d := cs.headD 0
    let e := (d &&& 0x80) ||| e
    let a := d &&& 0x7F
    ((if a = q.quote ∨ a = q.eighth then a else (d + 0x40) &&& 0x7F) ||| e, cs.tail)
  else (a ||| e, cs)

theorem length_PTCHR2 (q : Quotes) (ch : ℕ) (cs : List ℕ) : (PTCHR2 q ch cs).2.length ≤ cs.length := by
  simp only [PTCHR2]
  split <;> split <;> simp only [List.length_tail] <;> omega

/-- `PTCHR`: the bytes of a packet. -/
def PTCHR (q : Quotes) : List ℕ → List ℕ
  | [] => []
  | ch :: cs => (PTCHR2 q ch cs).1 :: PTCHR q (PTCHR2 q ch cs).2
termination_by cs => cs.length
decreasing_by
  have := length_PTCHR2 q ch cs
  simp only [List.length_cons]
  omega

/-! ### The file that is sent -/

/-- `FMFLG`: how a file ends. -/
inductive FileMode
  | default
  | ascii
  | binary
  deriving DecidableEq

/-- The file open for reading: the characters in the big buffer, and those still on the disk. -/
structure Source where
  big : List ℕ
  rest : List ℕ
  deriving DecidableEq

/-- What has not been read. -/
def Source.bytes (s : Source) : List ℕ := s.big ++ s.rest

/-- The parameters of `GTCHR`: the quote characters, `FMFLG` and `BUFLEN`. -/
structure Reader where
  quotes : Quotes
  FMFLG : FileMode
  BUFLEN : ℕ

/-- `INBUF`, for an empty big buffer: it is filled, or the file is at its end. -/
def INBUF (r : Reader) (s : Source) : Option Source :=
  if s.rest = [] then none else some ⟨s.rest.take r.BUFLEN, s.rest.drop r.BUFLEN⟩

/-- `GTCHR2` and `GTCHR4`: the next character. -/
def GTCHR2 (r : Reader) (s : Source) : Option (ℕ × Source) :=
  match s.big with
  | ch :: big => some (ch, { s with big })
  | [] =>
    match INBUF r s with
    | none => none
    | some s' =>
      match s'.big with
      | ch :: big => some (ch, { s' with big })
      | [] => none

def CTRLZ : ℕ := 0x1A

/-- `GTCH41` to `GTCH44`: a Control-Z ends the text before the characters `big`. -/
def textEnds (mode : FileMode) (big : List ℕ) : Bool :=
  match mode with
  | .ascii => true
  | .binary => false
  | .default => big.all (· = CTRLZ)

theorem length_ENCOD1 (q : Quotes) (d p : ℕ) : 1 ≤ (ENCOD1 q d p).length ∧ (ENCOD1 q d p).length ≤ 2 := by
  simp only [ENCOD1]
  split
  · simp
  · split <;> simp

theorem length_ENCODE {q : Quotes} {room ch : ℕ} {e : List ℕ} (enc : ENCODE q room ch = some e) :
    1 ≤ e.length ∧ e.length ≤ 3 ∧ 3 ≤ room := by
  have one := length_ENCOD1 q (ch &&& 0x7F)
  simp only [ENCODE] at enc
  split at enc
  · cases enc
  · split at enc
    · cases enc
      have := one 0
      simp only [List.length_cons]
      omega
    · cases enc
      have := one (ch &&& 0x80)
      omega

/-- `GTCHR1`: the characters `out` of a packet with `room` left, and more from the file. `none` is the end of the file. -/
def GTCHR1 (r : Reader) (room : ℕ) (s : Source) (out : List ℕ) : Option (List ℕ × Source) :=
  if room = 0 then some (out, s)
  else
    match GTCHR2 r s with
    | none => if out = [] then none else some (out, s)
    | some (ch, s') =>
      if ch = CTRLZ ∧ textEnds r.FMFLG s'.big then some (out, { s' with big := [] })
      else
        match _enc : ENCODE r.quotes room ch with
        | none => some (out, { s' with big := ch :: s'.big })
        | some e => GTCHR1 r (room - e.length) s' (out ++ e)
termination_by room
decreasing_by
  have := length_ENCODE _enc
  omega

/-- `GTCHR`: the characters of the next packet, which leaves five places of `SPSIZ` for the rest of it and more for a
longer block check. -/
def GTCHR (r : Reader) (SPSIZ CURCHK : ℕ) (s : Source) : Option (List ℕ × Source) :=
  GTCHR1 r ((SPSIZ + 512 - 5 - (CURCHK - 0x31)) % 256) s []

/-! ### One byte -/

/-- Both sides can tell the quote characters from quoted ones. -/
structure Quotes.Good (q : Quotes) : Prop where
  quote : 0x20 ≤ q.quote ∧ q.quote < 0x3F ∨ 0x5F < q.quote ∧ q.quote < 0x7F
  qbchr : q.quot8 = true → (0x20 ≤ q.qbchr ∧ q.qbchr < 0x3F ∨ 0x5F < q.qbchr ∧ q.qbchr < 0x7F) ∧ q.qbchr ≠ q.quote

theorem and_high {ch : ℕ} (byte : ch < 256) : ch &&& 0x80 = if ch < 128 then 0 else 128 := by
  rw [show 0x80 = 2 ^ 7 from rfl, Nat.and_two_pow, Nat.testBit_eq_decide_div_mod_eq]
  split
  · rw [Nat.div_eq_of_lt (by omega)]
    rfl
  · rw [show ch / 2 ^ 7 = 1 by omega]
    rfl

theorem and_low (ch : ℕ) : ch &&& 0x7F = ch % 128 := Nat.and_two_pow_sub_one_eq_mod ch 7

theorem or_high {d : ℕ} (low : d < 128) : d ||| 128 = d + 128 := by
  rw [Nat.or_comm, Nat.add_comm]
  exact (Nat.two_pow_add_eq_or_of_lt (i := 7) low 1).symm

variable {q : Quotes} {room ch : ℕ} {e cs : List ℕ}

namespace Quotes.Good

theorem quote_ne_eighth (h : q.Good) : q.quote ≠ q.eighth := by
  intro same
  have range := h.quote
  simp only [eighth] at same
  split at same
  · exact (h.qbchr (by assumption)).2 same.symm
  · omega

/-- The second character of a control character is no quote character. -/
theorem control_ne (h : q.Good) {c : ℕ} (range : 0x3F ≤ c ∧ c ≤ 0x5F) : c ≠ q.quote ∧ c ≠ q.eighth := by
  have := h.quote
  have := h.qbchr
  simp only [eighth]
  constructor
  · omega
  · split <;> grind

end Quotes.Good

/-- The byte of a quoted character. -/
def unquoted (q : Quotes) (d : ℕ) : ℕ :=
  (if d &&& 0x7F = q.quote ∨ d &&& 0x7F = q.eighth then d &&& 0x7F else (d + 0x40) &&& 0x7F) ||| (d &&& 0x80)

theorem unquoted_control (h : q.Good) {d p : ℕ} (control : d < 0x20 ∨ d = 0x7F) (high : p = 0 ∨ p = 0x80) :
    unquoted q (((d + 0x40) &&& 0x7F) ||| p) = d ||| p := by
  have range : 0x3F ≤ (d + 0x40) % 128 ∧ (d + 0x40) % 128 ≤ 0x5F := by omega
  have ne := h.control_ne range
  have small : (d + 0x40) % 128 < 128 := Nat.mod_lt _ (by decide)
  simp only [unquoted, and_low (d + 0x40)]
  obtain rfl | rfl := high
  · simp only [Nat.or_zero, and_low, and_high (small.trans (by decide)), small, Nat.mod_eq_of_lt small, ne.1, ne.2,
      if_true, or_self, if_false]
    omega
  · rw [or_high small, or_high (by omega)]
    simp only [and_low, and_high (show (d + 0x40) % 128 + 128 < 256 by omega), Nat.add_mod_right,
      Nat.mod_eq_of_lt small, ne.1, ne.2, or_self, if_false, show ¬ (d + 0x40) % 128 + 128 < 128 by omega]
    rw [or_high (Nat.mod_lt _ (by decide))]
    omega

theorem unquoted_quote {d p : ℕ} (small : d < 128) (quote : d = q.quote ∨ d = q.eighth) (high : p = 0 ∨ p = 0x80) :
    unquoted q (d ||| p) = d ||| p := by
  simp only [unquoted]
  obtain rfl | rfl := high
  · simp only [Nat.or_zero, and_low, and_high (small.trans (by decide)), small, Nat.mod_eq_of_lt small, quote, if_true]
  · rw [or_high small]
    simp only [and_low, and_high (show d + 128 < 256 by omega), Nat.add_mod_right, Nat.mod_eq_of_lt small, quote,
      if_true, show ¬ d + 128 < 128 by omega, or_high small, if_false]

theorem PTCHR2_plain (ne : ch ≠ q.quote) (ne' : ch ≠ q.eighth) : PTCHR2 q ch cs = (ch, cs) := by
  simp [PTCHR2, ne, ne']

theorem PTCHR2_quote (h : q.Good) (d : ℕ) : PTCHR2 q q.quote (d :: cs) = (unquoted q d, cs) := by
  simp [PTCHR2, unquoted, h.quote_ne_eighth]

theorem PTCHR2_eighth (ne : ch ≠ q.quote) : PTCHR2 q q.eighth (ch :: cs) = (ch ||| 0x80, cs) := by
  simp [PTCHR2, ne]

theorem PTCHR2_eighth_quote (d : ℕ) (low : d < 128) :
    PTCHR2 q q.eighth (q.quote :: d :: cs) = (unquoted q d ||| 0x80, cs) := by
  simp [PTCHR2, unquoted, and_high (low.trans (by decide)), low]

theorem PTCHR_cons (ch : ℕ) (cs : List ℕ) : PTCHR q (ch :: cs) = (PTCHR2 q ch cs).1 :: PTCHR q (PTCHR2 q ch cs).2 := by
  rw [PTCHR]

/-- The seven bits come back, with the eighth bit as it is. -/
theorem PTCHR_ENCOD1 (h : q.Good) {d p : ℕ} (small : d < 128) (high : p = 0 ∨ p = 0x80 ∧ q.quot8 = false) :
    PTCHR q (ENCOD1 q d p ++ cs) = (d ||| p) :: PTCHR q cs := by
  have high' : p = 0 ∨ p = 0x80 := high.imp_right And.left
  simp only [ENCOD1]
  split
  · simp only [List.cons_append, List.nil_append, PTCHR_cons, PTCHR2_quote h, unquoted_control h ‹_› high']
  · rename_i printing
    split
    · rename_i quotes
      have quote : d = q.quote ∨ d = q.eighth := by
        obtain ⟨on, same⟩ | same := quotes
        · exact .inr (by rw [← same, Quotes.eighth, if_pos on])
        · exact .inl same
      simp only [List.cons_append, List.nil_append, PTCHR_cons, PTCHR2_quote h, unquoted_quote small quote high']
    · have plain : d ||| p ≠ q.quote ∧ d ||| p ≠ q.eighth := by
        have range := h.quote
        simp only [Quotes.eighth]
        obtain rfl | ⟨rfl, off⟩ := high
        · rw [Nat.or_zero]
          constructor
          · tauto
          · split
            · grind
            · omega
        · rw [or_high small]
          constructor
          · omega
          · simp [off]
      simp only [List.cons_append, List.nil_append, PTCHR_cons, PTCHR2_plain plain.1 plain.2]

/-- After the eighth-bit quote character they come back with that bit set. -/
theorem PTCHR_eighth_ENCOD1 (h : q.Good) (on : q.quot8 = true) {d : ℕ} (small : d < 128) :
    PTCHR q (q.qbchr :: (ENCOD1 q d 0 ++ cs)) = (d ||| 0x80) :: PTCHR q cs := by
  have eighth : q.qbchr = q.eighth := by simp [Quotes.eighth, on]
  have control := fun range => @unquoted_control q h d 0 range (.inl rfl)
  have quoted := fun quote => @unquoted_quote q d 0 small quote (.inl rfl)
  simp only [ENCOD1, Nat.or_zero, and_low] at control quoted ⊢
  rw [eighth]
  split
  · simp only [List.cons_append, List.nil_append, PTCHR_cons,
      PTCHR2_eighth_quote _ (Nat.mod_lt (d + 0x40) (show 128 > 0 by decide)), control ‹_›]
  · split
    · have quote : d = q.quote ∨ d = q.eighth := by grind
      simp only [List.cons_append, List.nil_append, PTCHR_cons, PTCHR2_eighth_quote _ small, quoted quote]
    · have plain : d ≠ q.quote := by grind
      simp only [List.cons_append, List.nil_append, PTCHR_cons, PTCHR2_eighth plain]

/-- `PTCHR` gets the byte back from its characters, and goes on after them. -/
theorem PTCHR_of_ENCODE (h : q.Good) (byte : ch < 256) (enc : ENCODE q room ch = some e) (cs : List ℕ) :
    PTCHR q (e ++ cs) = ch :: PTCHR q cs := by
  have small : ch % 128 < 128 := Nat.mod_lt ch (by decide)
  simp only [ENCODE, and_low ch] at enc
  split at enc
  · cases enc
  · split at enc
    · rename_i eighth
      have back : ch % 128 ||| 0x80 = ch := by
        rw [and_high byte] at eighth
        rw [or_high small]
        split at eighth <;> omega
      cases enc
      rw [List.cons_append, PTCHR_eighth_ENCOD1 h eighth.2 small, back]
    · rename_i plain
      have high : ch &&& 0x80 = 0 ∨ ch &&& 0x80 = 0x80 ∧ q.quot8 = false := by
        rw [and_high byte] at plain ⊢
        split at plain <;> simp_all
      have back : ch % 128 ||| (ch &&& 0x80) = ch := by
        rw [and_high byte]
        split
        · rw [Nat.or_zero, Nat.mod_eq_of_lt ‹_›]
        · rw [or_high small]
          omega
      cases enc
      rw [PTCHR_ENCOD1 h small high, back]

/-! ### A packet -/

variable {r : Reader} {s s' : Source} {out out' : List ℕ}

/-- What the buffer and the disk held is the character and what they hold now. -/
theorem bytes_of_GTCHR2 (next : GTCHR2 r s = some (ch, s')) : s.bytes = ch :: s'.bytes := by
  simp only [GTCHR2, INBUF, Source.bytes] at next ⊢
  split at next
  · rename_i full
    cases next
    rw [full]
    rfl
  · rename_i empty
    split at next
    · cases next
    · rename_i s₁ filled
      split at filled
      · cases filled
      · cases filled
        split at next
        · rename_i rest big
          cases next
          have whole : s.rest.take r.BUFLEN ++ s.rest.drop r.BUFLEN = s.rest := List.take_append_drop _ _
          rw [show s.rest.take r.BUFLEN = ch :: rest from big] at whole
          rw [empty]
          exact whole.symm
        · cases next

/-- With no character left nothing is left. -/
theorem bytes_eq_nil_of_GTCHR2 (room : 0 < r.BUFLEN) (next : GTCHR2 r s = none) : s.bytes = [] := by
  simp only [GTCHR2, INBUF, Source.bytes] at next ⊢
  split at next
  · cases next
  · rename_i empty
    split at next
    · rename_i filled
      split at filled
      · rw [empty, ‹s.rest = []›]
        rfl
      · cases filled
    · rename_i s₁ filled
      split at filled
      · cases filled
      · rename_i more
        cases filled
        split at next
        · cases next
        · rename_i big
          have := List.length_pos_iff.2 more
          have := congrArg List.length big
          simp only [List.length_take, List.length_nil] at this
          omega

/-- The characters `out'` of a packet from those so far and the file: `bytes` were read and put into it, and `dropped`
were not. -/
structure Filled (r : Reader) (room : ℕ) (s : Source) (out out' : List ℕ) (s' : Source) (bytes dropped : List ℕ) :
    Prop where
  read : s.bytes = bytes ++ dropped ++ s'.bytes
  size : out'.length ≤ out.length + room
  back : r.quotes.Good → (∀ ch ∈ s.bytes, ch < 256) →
    ∃ cs, out' = out ++ cs ∧ ∀ more, PTCHR r.quotes (cs ++ more) = bytes ++ PTCHR r.quotes more
  binary : r.FMFLG = .binary → dropped = []
  default : r.FMFLG = .default → dropped ≠ [] → s'.big = [] ∧ ∀ ch ∈ dropped, ch = CTRLZ

theorem GTCHR1_spec (filled : GTCHR1 r room s out = some (out', s')) :
    ∃ bytes dropped, Filled r room s out out' s' bytes dropped := by
  fun_induction GTCHR1 r room s out with
  | case1 s out =>
    cases filled
    exact ⟨[], [], rfl, by simp, fun _ _ => ⟨[], by simp⟩, fun _ => rfl, fun _ h => absurd rfl h⟩
  | case2 => cases filled
  | case3 room s out _ _ some_out =>
    cases filled
    exact ⟨[], [], rfl, by simp, fun _ _ => ⟨[], by simp⟩, fun _ => rfl, fun _ h => absurd rfl h⟩
  | case4 room s out _ ch s₁ next ends =>
    cases filled
    refine ⟨[], ch :: s₁.big, ?_, by simp, fun _ _ => ⟨[], by simp⟩, ?_, ?_⟩
    · rw [bytes_of_GTCHR2 next]
      simp [Source.bytes]
    · intro mode
      have := ends.2
      rw [mode] at this
      cases this
    · intro mode _
      have all := ends.2
      rw [mode] at all
      simp only [textEnds, List.all_eq_true, decide_eq_true_eq] at all
      refine ⟨rfl, ?_⟩
      intro c mem
      obtain rfl | mem := List.mem_cons.1 mem
      · exact ends.1
      · exact all c mem
  | case5 room s out _ ch s₁ next _ full =>
    cases filled
    refine ⟨[], [], ?_, by simp, fun _ _ => ⟨[], by simp⟩, fun _ => rfl, fun _ h => absurd rfl h⟩
    rw [bytes_of_GTCHR2 next]
    rfl
  | case6 room s out _ ch s₁ next _ e enc ih =>
    obtain ⟨bytes, dropped, h⟩ := ih filled
    have len := length_ENCODE enc
    have all := bytes_of_GTCHR2 next
    refine ⟨ch :: bytes, dropped, ?_, ?_, ?_, h.binary, h.default⟩
    · rw [all, h.read]
      rfl
    · have := h.size
      rw [List.length_append] at this
      omega
    · intro good small
      rw [all] at small
      obtain ⟨cs, rfl, back⟩ := h.back good fun c mem => small c (List.mem_cons_of_mem _ mem)
      refine ⟨e ++ cs, by rw [List.append_assoc], ?_⟩
      intro more
      rw [List.append_assoc, PTCHR_of_ENCODE good (small ch List.mem_cons_self) enc, back]
      rfl

/-! ### A file -/

/-- The packets that `GTCHR` makes of a file. -/
inductive Packets (r : Reader) (SPSIZ CURCHK : ℕ) : Source → List (List ℕ) → Prop
  | eof {s : Source} (last : GTCHR r SPSIZ CURCHK s = none) : Packets r SPSIZ CURCHK s []
  | more {s s' : Source} {out : List ℕ} {l : List (List ℕ)} (next : GTCHR r SPSIZ CURCHK s = some (out, s'))
      (tail : Packets r SPSIZ CURCHK s' l) : Packets r SPSIZ CURCHK s (out :: l)

/-- Only at the end of the file there is no packet. -/
theorem bytes_eq_nil_of_GTCHR1 (buffer : 0 < r.BUFLEN) (last : GTCHR1 r room s out = none) :
    out = [] ∧ s.bytes = [] := by
  fun_induction GTCHR1 r room s out with
  | case1 => cases last
  | case2 room s _ next => exact ⟨rfl, bytes_eq_nil_of_GTCHR2 buffer next⟩
  | case3 => cases last
  | case4 => cases last
  | case5 => cases last
  | case6 room s out _ ch s' next _ e enc ih =>
    have := length_ENCODE enc
    have := congrArg List.length (ih last).1
    simp only [List.length_append, List.length_nil] at this
    omega

/-- With three places every packet takes something from the file. -/
theorem length_bytes_of_GTCHR1 (three : 3 ≤ room) (filled : GTCHR1 r room s [] = some (out', s')) :
    s'.bytes.length < s.bytes.length := by
  rw [GTCHR1] at filled
  split at filled
  · omega
  · split at filled
    · cases filled
    · rename_i ch s₁ next
      have all := bytes_of_GTCHR2 next
      split at filled
      · cases filled
        rw [all]
        simp only [Source.bytes, List.nil_append, List.length_cons, List.length_append]
        omega
      · split at filled
        · rename_i enc
          simp only [ENCODE] at enc
          split at enc
          · omega
          · split at enc <;> cases enc
        · obtain ⟨bytes, dropped, h⟩ := GTCHR1_spec filled
          rw [all, h.read]
          simp only [List.length_cons, List.length_append]
          omega

variable {SPSIZ CURCHK : ℕ} {l : List (List ℕ)}

/-- The file has packets, each of them no longer than the room for it. -/
theorem exists_packets (three : 3 ≤ (SPSIZ + 512 - 5 - (CURCHK - 0x31)) % 256) (s : Source) :
    ∃ l, Packets r SPSIZ CURCHK s l ∧ ∀ p ∈ l, p.length ≤ (SPSIZ + 512 - 5 - (CURCHK - 0x31)) % 256 := by
  induction h : s.bytes.length using Nat.strong_induction_on generalizing s with
  | _ n ih =>
    cases next : GTCHR r SPSIZ CURCHK s with
    | none => exact ⟨[], .eof next, by simp⟩
    | some res =>
      obtain ⟨out, s'⟩ := res
      have less := length_bytes_of_GTCHR1 three next
      obtain ⟨bytes, dropped, f⟩ := GTCHR1_spec next
      obtain ⟨l, tail, small⟩ := ih s'.bytes.length (h ▸ less) s' rfl
      refine ⟨out :: l, .more next tail, ?_⟩
      intro p mem
      obtain rfl | mem := List.mem_cons.1 mem
      · simpa using f.size
      · exact small p mem

/-- The packets of a file have its bytes. -/
theorem Packets.back (h : Packets r SPSIZ CURCHK s l) (good : r.quotes.Good) (buffer : 0 < r.BUFLEN)
    (small : ∀ ch ∈ s.bytes, ch < 256) :
    (r.FMFLG = .binary → l.flatMap (PTCHR r.quotes) = s.bytes) ∧
      (r.FMFLG = .default →
        (l.flatMap (PTCHR r.quotes)).filter (· ≠ CTRLZ) = s.bytes.filter (· ≠ CTRLZ)) := by
  induction h with
  | eof last => simp [(bytes_eq_nil_of_GTCHR1 buffer last).2]
  | @more s s' out l next tail ih =>
    obtain ⟨bytes, dropped, f⟩ := GTCHR1_spec next
    obtain ⟨_, rfl, back⟩ := f.back good small
    have one : PTCHR r.quotes out = bytes := by
      have := back []
      rwa [List.append_nil, PTCHR, List.append_nil] at this
    have rest := ih fun ch mem => small ch (by rw [f.read]; exact List.mem_append_right _ mem)
    rw [List.flatMap_cons, one, f.read]
    constructor
    · intro mode
      rw [rest.1 mode, f.binary mode, List.append_nil]
    · intro mode
      have none_left : dropped.filter (· ≠ CTRLZ) = [] := by
        by_cases empty : dropped = []
        · rw [empty, List.filter_nil]
        · rw [List.filter_eq_nil_iff]
          intro ch mem
          simpa using (f.default mode empty).2 ch mem
      rw [List.filter_append, List.filter_append, List.filter_append, rest.2 mode, none_left, List.append_nil]

/-- A file is sent in finitely many packets that are not too long, and they have its bytes; only Control-Zs at the end of
a buffer are left out, unless the file is binary. -/
theorem packets_back (three : 3 ≤ (SPSIZ + 512 - 5 - (CURCHK - 0x31)) % 256) (good : r.quotes.Good)
    (buffer : 0 < r.BUFLEN) (small : ∀ ch ∈ s.bytes, ch < 256) :
    ∃ l, Packets r SPSIZ CURCHK s l ∧ (∀ p ∈ l, p.length ≤ (SPSIZ + 512 - 5 - (CURCHK - 0x31)) % 256) ∧
      (r.FMFLG = .binary → l.flatMap (PTCHR r.quotes) = s.bytes) ∧
      (r.FMFLG = .default →
        (l.flatMap (PTCHR r.quotes)).filter (· ≠ CTRLZ) = s.bytes.filter (· ≠ CTRLZ)) := by
  obtain ⟨l, packets, short⟩ := @exists_packets r SPSIZ CURCHK three s
  exact ⟨l, packets, short, packets.back good buffer small⟩

theorem packets_back_text : ∃ l, Packets ⟨⟨'#'.toNat, '&'.toNat, true⟩, .default, 512⟩ 94 '1'.toNat ⟨[], [0xC1, 0x23, 0x1A]⟩ l ∧
    (∀ p ∈ l, p.length ≤ (94 + 512 - 5 - ('1'.toNat - 0x31)) % 256) ∧
    (FileMode.default = .binary → l.flatMap (PTCHR ⟨'#'.toNat, '&'.toNat, true⟩) = [0xC1, 0x23, 0x1A]) ∧
    (FileMode.default = .default → (l.flatMap (PTCHR ⟨'#'.toNat, '&'.toNat, true⟩)).filter (· ≠ CTRLZ) =
      [0xC1, 0x23, 0x1A].filter (· ≠ CTRLZ)) :=
  packets_back (by decide) ⟨.inl (by decide), fun _ => ⟨.inl (by decide), by decide⟩⟩ (by decide)
    (by simp [Source.bytes])

end RSX280.Kpkt
