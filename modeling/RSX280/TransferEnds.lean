import RSX280.TransferSafe

/-!
# How a transfer ends (`kermit/kpkt.mac`)

A request for the packet after the last one makes the sender go on to the next piece of the file without counting the
packet, and the receiver takes that piece for the one before. While no such request is heard, a file that is kept is the
file that was sent; and on a line that loses nothing the transfer comes to its end, with every file kept.
-/

namespace RSX280.Kpkt

variable {cs : SendSet} {cr : RecvSet} {a b : Agreed} {σ τ : Sys}

/-- The sender takes a request for the packet after its own for an acknowledgement. -/
def Skips (σ τ : Sys) : Prop :=
  σ.waiting = true ∧ τ.waiting = false ∧
    ∃ p l, σ.toS = p :: l ∧ τ.toS = l ∧ p.kind = .N ∧ p.num = next σ.snd.PKTNUM

/-- A step, but not that one. -/
def CalmStep (cs : SendSet) (cr : RecvSet) (σ τ : Sys) : Prop := Step cs cr σ τ ∧ ¬ Skips σ τ

theorem Reach.of_calm (run : Reach (CalmStep cs cr) σ τ) : Reach (Step cs cr) σ τ :=
  Relation.ReflTransGen.mono (fun _ _ => And.left) _ _ run

/-! ### No piece is left out -/

/-- Every piece of a file was asked for by an acknowledgement. -/
def Sender.Whole (s : Sender) : Prop := ∀ f ∈ s.sent ++ s.file.toList, ∀ p ∈ f.pieces, p.1 = true

theorem Whole.fill {s : Sender} (h : s.Whole) : (s.fill cs true).Whole := by
  obtain ⟨out, src, -, eq⟩ | ⟨-, eq⟩ := fill_cases cs s true
  · rw [eq]
    cases file : s.file with
    | none => simpa [Sender.Whole, file] using h
    | some f =>
      simp only [Sender.Whole, file, Option.toList_some] at h
      intro f' mem
      obtain mem | mem := List.mem_append.1 mem
      · exact h f' (List.mem_append_left _ mem)
      · rw [show f' = _ from List.mem_singleton.1 mem]
        intro p piece
        obtain piece | piece := List.mem_append.1 piece
        · exact h f (by simp) p piece
        · rw [List.mem_singleton.1 piece]
  · rw [eq]
    cases file : s.file with
    | none => simpa [Sender.Whole, file] using h
    | some f =>
      simp only [Sender.Whole, file, Option.toList_some] at h
      intro f' mem
      obtain mem | mem := List.mem_append.1 mem
      · exact h f' (List.mem_append_left _ mem)
      · rw [show f' = _ from List.mem_singleton.1 mem]
        exact h f (by simp)

theorem Whole.SEOF12 {s : Sender} (h : s.Whole) (p : Pkt) : (s.SEOF12 p).Whole := by
  obtain ⟨-, sent, -, ⟨-, file⟩ | ⟨-, f, file, none_read, -⟩⟩ := SEOF12_cases s p
  · simpa [Sender.Whole, sent, file] using h
  · simp only [Sender.Whole, sent, file, Option.toList_some]
    intro f' mem
    obtain mem | mem := List.mem_append.1 mem
    · exact h f' mem
    · rw [List.mem_singleton.1 mem, none_read]
      simp

theorem Whole.ack {s : Sender} (h : s.Whole) {p : Pkt} (kind : p.kind = .Y) (num : p.num = s.PKTNUM) :
    (s.hear cs (some p)).Whole := by
  rw [hear_ack cs kind num]
  cases s.STATE
  case F =>
    show ((_ : Sender).fill cs (p.kind = .Y)).Whole
    rw [decide_eq_true kind]
    exact Whole.fill h
  case D =>
    simp only [Sender.SDATA_acked]
    split
    · exact h
    · split
      · exact h
      · exact Whole.fill h
  case Z => exact Whole.SEOF12 h p
  all_goals exact h

theorem Whole.step (h : σ.snd.Whole) (step : CalmStep cs cr σ τ) : τ.snd.Whole := by
  obtain ⟨step, calm⟩ := step
  cases step with
  | send =>
    have sent := sends cs σ.snd
    generalize (σ.snd.send cs).1 = s', (σ.snd.send cs).2 = p at sent
    cases sent <;> exact h
  | @hear got toS waits head =>
    have heard := hears cs σ.snd got
    generalize eq : σ.snd.hear cs got = s' at heard calm
    cases heard with
    | same => exact h
    | quit => exact h
    | ack kind num => exact Whole.ack h kind num
    | @nak p kind num => exact absurd ⟨waits, rfl, p, toS, head.eq, rfl, kind, num⟩ calm
  | _ => exact h

theorem Whole.of_calm (start : Start σ) (run : Reach (CalmStep cs cr) σ τ) : τ.snd.Whole := by
  refine Reach.invariant (P := fun τ => τ.snd.Whole) run ?_ fun _ _ h step => Whole.step h step
  obtain ⟨name, text, file⟩ := start.file
  simp [Sender.Whole, start.sent, file]

/-- `PTCHR` looks for the quote character, and for the other one only with eighth-bit quoting. -/
theorem PTCHR_congr {q q' : Quotes} (quote : q.quote = q'.quote) (eighth : q.eighth = q'.eighth) (l : List ℕ) :
    PTCHR q l = PTCHR q' l := by
  fun_induction PTCHR q l with
  | case1 => rw [PTCHR]
  | case2 ch l ih =>
    have one : PTCHR2 q ch l = PTCHR2 q' ch l := by simp only [PTCHR2, quote, eighth]
    rw [PTCHR_cons, ih, one]

/-- The bytes that the receiver gets are those the sender has put into the packets. -/
theorem delivered_eq (agree : Agree cs.own cr.own a b)
    (bits : (settled cs.own cr.own a b).QUOT8 = true ∨ cs.own.PARITY = PARNON) (l : List (List ℕ)) :
    delivered cs cr a b l = l.flatMap (PTCHR (quotes cs cr a b)) := by
  obtain ⟨quote, quot8, qbchr, -⟩ := agree
  have eighth : (looks cs cr a b).eighth = (quotes cs cr a b).eighth := by
    show (if (answered cs.own cr.own a b).QUOT8 then _ else 0) = if (settled cs.own cr.own a b).QUOT8 then _ else 0
    rw [← quot8]
    split
    · exact (qbchr (by assumption)).symm
    · rfl
  refine List.flatMap_congr fun out _ => ?_
  rw [Sender.wire, if_pos bits]
  exact PTCHR_congr quote.symm eighth out

/-- What both sides are set to, for a transfer that keeps the bytes as they are. -/
structure Faithful (cs : SendSet) (cr : RecvSet) (a b : Agreed) : Prop where
  mode : cs.FMFLG = .binary
  buffer : 0 < cs.BUFLEN
  agree : Agree cs.own cr.own a b
  good : (quotes cs cr a b).Good
  bits : (settled cs.own cr.own a b).QUOT8 = true ∨ cs.own.PARITY = PARNON

/-- A file that is kept is the one that was sent, when none of its pieces is left out. -/
theorem Kept.text {g : Received} {f : Sent} (kept : Kept cs cr a b g f) (faithful : Faithful cs cr a b)
    (fate : g.fate = .kept) (whole : ∀ p ∈ f.pieces, p.1 = true) (small : ∀ ch ∈ f.text, ch < 256) : g.bytes = f.text := by
  obtain ⟨-, bytes, text⟩ := kept.bytes fate
  have acked : f.acked = f.pieces.map Prod.snd := by rw [Sent.acked, List.filter_eq_self.2 whole]
  rw [text faithful.mode faithful.buffer faithful.good small, bytes, delivered_eq faithful.agree faithful.bits, acked,
    List.flatMap_map]

/-- Both wait for nothing. -/
def Quiet (σ : Sys) : Prop := σ.waiting = false ∧ σ.toR = [] ∧ σ.toS = []

/-- A disk with room. -/
def Disk.good : Disk := ⟨.opens, false⟩

/-- A packet and its acknowledgement. -/
theorem exchange (quiet : Quiet σ) {p q : Pkt} (sent : (σ.snd.send cs).2 = some p)
    (taken : (σ.rcv.turn cr .good (some p)).2 = [q]) (kind : q.kind = .Y) :
    Reach (CalmStep cs cr) σ
      ⟨(σ.snd.send cs).1.hear cs (some q), false, (σ.rcv.turn cr .good (some p)).1, [], []⟩ := by
  obtain ⟨ready, toR, toS⟩ := quiet
  have one : Step cs cr σ ⟨(σ.snd.send cs).1, true, σ.rcv, [p], []⟩ := by
    have := @Step.send cs cr σ ready
    rwa [sent, toR, toS] at this
  have two : Step cs cr ⟨(σ.snd.send cs).1, true, σ.rcv, [p], []⟩
      ⟨(σ.snd.send cs).1, true, (σ.rcv.turn cr .good (some p)).1, [], [q]⟩ := by
    have := @Step.turn cs cr ⟨(σ.snd.send cs).1, true, σ.rcv, [p], []⟩ _ _ .good (.oldest p [])
    rwa [taken] at this
  have three : Step cs cr ⟨(σ.snd.send cs).1, true, (σ.rcv.turn cr .good (some p)).1, [], [q]⟩
      ⟨(σ.snd.send cs).1.hear cs (some q), false, (σ.rcv.turn cr .good (some p)).1, [], []⟩ := .hear rfl (.oldest q [])
  refine .tail (.tail (.tail .refl ⟨one, ?_⟩) ⟨two, ?_⟩) ⟨three, ?_⟩
  · exact fun skips => Bool.noConfusion skips.2.1
  · exact fun skips => Bool.noConfusion skips.2.1
  · rintro ⟨-, -, p', l, eq, -, kind', -⟩
    cases eq
    exact Kind.noConfusion (kind.symm.trans kind')

/-- The receiver takes a packet, and expects another. -/
structure Receiver.Goes (st : State) (num : ℕ) (r r' : Receiver) : Prop where
  STATE : r'.STATE = st
  PKTNUM : r'.PKTNUM = num
  NUMTRY : r'.NUMTRY = 0
  CZSEEN : r'.CZSEEN = 0
  DSCFLG : st = .D → r'.DSCFLG = false
  kept : (∀ g ∈ r.done, g.fate = .kept) → ∀ g ∈ r'.done, g.fate = .kept

section Taken

variable {r : Receiver} {p : Pkt} (tries : r.NUMTRY = 0)
include tries

theorem taken_S (keys : r.CZSEEN = 0) (st : r.STATE = .R) (kind : p.kind = .S) :
    (r.turn cr .good (some p)).2 = [⟨.Y, p.num, RPAR cr.own (SPAR cr.own p.data r.par)⟩] ∧
      r.Goes .F (next p.num) (r.turn cr .good (some p)).1 := by
  simp only [Receiver.turn, st, Receiver.RINIT, tries, IMXTRY, kind, Receiver.RINI2A]
  exact ⟨rfl, rfl, rfl, rfl, keys, State.noConfusion, id⟩

variable (num : p.num = r.PKTNUM)
include num

theorem taken_F (keys : r.CZSEEN = 0) (st : r.STATE = .F) (kind : p.kind = .F) :
    (r.turn cr .good (some p)).2 = [⟨.Y, p.num, []⟩] ∧ r.Goes .D (next p.num) (r.turn cr .good (some p)).1 := by
  simp only [Receiver.turn, st, Receiver.RFILE, tries, MAXTRY, kind, Receiver.RFILE3, Receiver.COMPP, num, decide_true,
    if_true, Disk.good, Receiver.RFIL3A, Receiver.ACKP, Receiver.COUNTP, keys]
  exact ⟨rfl, rfl, rfl, rfl, rfl, fun _ => rfl, id⟩

theorem taken_B (st : r.STATE = .F) (kind : p.kind = .B) :
    (r.turn cr .good (some p)).2 = [⟨.Y, p.num, []⟩] ∧ (r.turn cr .good (some p)).1.STATE = .C ∧
      (r.turn cr .good (some p)).1.done = r.done := by
  simp only [Receiver.turn, st, Receiver.RFILE, tries, MAXTRY, kind, Receiver.COMPP, num, decide_true, if_true]
  exact ⟨rfl, rfl, rfl⟩

variable (accepts : r.DSCFLG = false)
include accepts

theorem taken_D (keys : r.CZSEEN = 0) (st : r.STATE = .D) (kind : p.kind = .D) :
    (r.turn cr .good (some p)).2 = [⟨.Y, p.num, []⟩] ∧ r.Goes .D (next p.num) (r.turn cr .good (some p)).1 := by
  simp only [Receiver.turn, st, Receiver.RDATA, tries, MAXTRY, kind, Receiver.COMPP, num, decide_true, if_true,
    Receiver.RDAT14, Receiver.COUNTP, accepts, Disk.good, keys]
  exact ⟨rfl, rfl, rfl, rfl, rfl, fun _ => rfl, id⟩

theorem taken_Z (st : r.STATE = .D) (kind : p.kind = .Z) (data : p.data = []) :
    (r.turn cr .good (some p)).2 = [⟨.Y, p.num, []⟩] ∧ r.Goes .F (next p.num) (r.turn cr .good (some p)).1 := by
  have whole : ¬ ([] : List ℕ) = ['D'.toNat] := by simp
  simp only [Receiver.turn, st, Receiver.RDATA, tries, MAXTRY, kind, Receiver.RDATA3, Receiver.COMPP, num, decide_true,
    if_true, data, whole, if_false, Receiver.RDAT33, Receiver.COUNTP, accepts, Disk.good, Receiver.ACKP]
  refine ⟨rfl, rfl, rfl, rfl, rfl, State.noConfusion, ?_⟩
  intro kept g mem
  obtain mem | mem := List.mem_append.1 mem
  · exact kept g mem
  · cases file : r.file with
    | none => simp [file] at mem
    | some f =>
      simp only [file, Option.map_some, Option.toList_some, List.mem_singleton] at mem
      rw [mem]
      rfl

end Taken

/-- The places that `GTCHR` has for a packet. -/
def Sender.room (s : Sender) : ℕ := (s.par.SPSIZ + 512 - 5 - (s.CURCHK - 0x31)) % 256

/-- Both sides are between two packets. -/
structure Ready (st rst : State) (σ : Sys) : Prop where
  quiet : Quiet σ
  snd : σ.snd.STATE = st
  rcv : σ.rcv.STATE = rst
  tries : σ.snd.NUMTRY = 0 ∧ σ.rcv.NUMTRY = 0
  num : σ.rcv.PKTNUM = σ.snd.PKTNUM
  keys : σ.rcv.CZSEEN = 0
  pressed : st = .D ∨ st = .Z → σ.snd.CZSEEN = 0
  accepts : rst = .D → σ.rcv.DSCFLG = false
  kept : ∀ g ∈ σ.rcv.done, g.fate = .kept
  room : 3 ≤ σ.snd.room
  left : st = .B → σ.snd.file = none ∧ σ.snd.todo = []

/-- The sender makes the next packet, or is at the end of the file. -/
theorem ready_fill {s : Sender} {r r' : Receiver} {num : ℕ} (tries : s.NUMTRY = 0) (pressed : s.CZSEEN = 0)
    (PKTNUM : s.PKTNUM = num) (room : 3 ≤ s.room) (goes : r.Goes .D num r') (kept : ∀ g ∈ r.done, g.fate = .kept) :
    (Ready .Z .D ⟨s.fill cs true, false, r', [], []⟩ ∨
      Ready .D .D ⟨s.fill cs true, false, r', [], []⟩ ∧ (s.fill cs true).src.bytes.length < s.src.bytes.length) ∧
      (s.fill cs true).todo = s.todo := by
  obtain ⟨out, src, next, eq⟩ | ⟨-, eq⟩ := fill_cases cs s true
  · rw [eq]
    refine ⟨.inr ⟨⟨⟨rfl, rfl, rfl⟩, rfl, goes.STATE, ⟨tries, goes.NUMTRY⟩, goes.PKTNUM.trans PKTNUM.symm, goes.CZSEEN,
      fun _ => pressed, goes.DSCFLG, goes.kept kept, room, State.noConfusion⟩, ?_⟩, rfl⟩
    exact length_bytes_of_GTCHR1 room next
  · rw [eq]
    exact ⟨.inl ⟨⟨rfl, rfl, rfl⟩, rfl, goes.STATE, ⟨tries, goes.NUMTRY⟩, goes.PKTNUM.trans PKTNUM.symm, goes.CZSEEN,
      fun _ => pressed, goes.DSCFLG, goes.kept kept, room, State.noConfusion⟩, rfl⟩

theorem round_F (h : Ready .F .F σ) : ∃ τ, Reach (CalmStep cs cr) σ τ ∧
    (Ready .Z .D τ ∨ Ready .D .D τ) ∧ τ.snd.todo = σ.snd.todo := by
  have sent : σ.snd.send cs = ({ σ.snd with NUMTRY := 0 + 1, CZSEEN := 0 },
      some ⟨.F, σ.snd.PKTNUM, (σ.snd.file.map Sent.name).getD []⟩) := by
    simp only [Sender.send, h.snd, Sender.SFILE, Sender.attempt, h.tries.1]
    rfl
  obtain ⟨taken, goes⟩ := @taken_F cr σ.rcv ⟨.F, σ.snd.PKTNUM, (σ.snd.file.map Sent.name).getD []⟩ h.tries.2 h.num.symm
    h.keys h.rcv rfl
  have run := exchange h.quiet (congrArg Prod.snd sent) taken rfl
  have heard := @hear_ack (σ.snd.send cs).1 ⟨.Y, σ.snd.PKTNUM, []⟩ cs rfl (by rw [sent])
  rw [heard, sent] at run
  simp only [h.snd, Sender.SFIL14] at run
  obtain ⟨ready, todo⟩ := @ready_fill cs
    { { σ.snd with NUMTRY := 0 + 1, CZSEEN := 0 }.COUNTP σ.snd.PKTNUM with NUMTRY := 0 } _ _ _ rfl rfl rfl h.room goes h.kept
  exact ⟨_, run, ready.imp_right And.left, todo⟩

theorem round_D (h : Ready .D .D σ) : ∃ τ, Reach (CalmStep cs cr) σ τ ∧
    (Ready .Z .D τ ∨ Ready .D .D τ ∧ τ.snd.src.bytes.length < σ.snd.src.bytes.length) ∧ τ.snd.todo = σ.snd.todo := by
  have sent : σ.snd.send cs = ({ σ.snd with NUMTRY := 0 + 1 },
      some ⟨.D, σ.snd.PKTNUM, Sender.wire cs.own σ.snd.par σ.snd.FILBUF⟩) := by
    simp only [Sender.send, h.snd, Sender.SDATA, Sender.attempt, h.tries.1]
    rfl
  obtain ⟨taken, goes⟩ := @taken_D cr σ.rcv ⟨.D, σ.snd.PKTNUM, Sender.wire cs.own σ.snd.par σ.snd.FILBUF⟩ h.tries.2
    h.num.symm (h.accepts rfl) h.keys h.rcv rfl
  have run := exchange h.quiet (congrArg Prod.snd sent) taken rfl
  have heard := @hear_ack (σ.snd.send cs).1 ⟨.Y, σ.snd.PKTNUM, []⟩ cs rfl (by rw [sent])
  have unpressed : ¬ (([] : List ℕ) = ['Z'.toNat] ∨ ([] : List ℕ) = ['X'.toNat]) := by simp
  rw [heard, sent] at run
  simp only [h.snd, Sender.SDATA_acked, unpressed, Sender.COUNTP, h.pressed (.inl rfl), if_false, ne_eq,
    not_true_eq_false] at run
  obtain ⟨ready, todo⟩ := @ready_fill cs
    { { σ.snd with NUMTRY := 0 + 1 }.COUNTP σ.snd.PKTNUM with NUMTRY := 0, CZSEEN := 0 } _ _ _ rfl rfl rfl h.room goes h.kept
  exact ⟨_, run, ready, todo⟩

/-- The packets of a file, to its end. -/
theorem rounds_D (h : Ready .D .D σ) : ∃ τ, Reach (CalmStep cs cr) σ τ ∧ Ready .Z .D τ ∧ τ.snd.todo = σ.snd.todo := by
  induction len : σ.snd.src.bytes.length using Nat.strong_induction_on generalizing σ with
  | _ n ih =>
    obtain ⟨τ, run, ready | ⟨ready, less⟩, todo⟩ := @round_D cs cr σ h
    · exact ⟨τ, run, ready, todo⟩
    · obtain ⟨τ', run', ready', todo'⟩ := ih _ (len ▸ less) ready rfl
      exact ⟨τ', run.trans run', ready', todo'.trans todo⟩

theorem round_Z (h : Ready .Z .D σ) : ∃ τ, Reach (CalmStep cs cr) σ τ ∧
    (Ready .B .F τ ∨ Ready .F .F τ ∧ τ.snd.todo.length < σ.snd.todo.length) := by
  have sent : σ.snd.send cs = ({ σ.snd with NUMTRY := 0 + 1 }, some ⟨.Z, σ.snd.PKTNUM, []⟩) := by
    simp only [Sender.send, h.snd, Sender.SEOF, Sender.attempt, h.tries.1, h.pressed (.inr rfl)]
    rfl
  obtain ⟨taken, goes⟩ := @taken_Z cr σ.rcv ⟨.Z, σ.snd.PKTNUM, []⟩ h.tries.2 h.num.symm (h.accepts rfl) h.rcv rfl rfl
  have run := exchange h.quiet (congrArg Prod.snd sent) taken rfl
  have heard := @hear_ack (σ.snd.send cs).1 ⟨.Y, σ.snd.PKTNUM, []⟩ cs rfl (by rw [sent])
  rw [heard, sent] at run
  have pressed := h.pressed (.inr rfl)
  have unpressed : ¬ (0 : ℕ) = 'Z'.toNat := by decide
  cases todo : σ.snd.todo with
  | nil =>
    simp only [h.snd, Sender.SEOF12, Sender.COUNTP, pressed, unpressed, if_false, todo] at run
    exact ⟨_, run, .inl ⟨⟨rfl, rfl, rfl⟩, rfl, goes.STATE, ⟨rfl, goes.NUMTRY⟩, goes.PKTNUM, goes.CZSEEN,
      fun e => by simp at e, State.noConfusion, goes.kept h.kept, h.room, fun _ => ⟨rfl, rfl⟩⟩⟩
  | cons next todo' =>
    simp only [h.snd, Sender.SEOF12, Sender.COUNTP, pressed, unpressed, if_false, todo] at run
    refine ⟨_, run, .inr ⟨⟨⟨rfl, rfl, rfl⟩, rfl, goes.STATE, ⟨rfl, goes.NUMTRY⟩, goes.PKTNUM, goes.CZSEEN,
      fun e => by simp at e, State.noConfusion, goes.kept h.kept, h.room, State.noConfusion⟩, ?_⟩⟩
    exact Nat.lt_succ_self _

/-- The files, to the last. -/
theorem rounds_F (h : Ready .F .F σ) : ∃ τ, Reach (CalmStep cs cr) σ τ ∧ Ready .B .F τ := by
  induction len : σ.snd.todo.length using Nat.strong_induction_on generalizing σ with
  | _ n ih =>
    obtain ⟨τ₁, run₁, ready₁, todo₁⟩ := @round_F cs cr σ h
    have whole : ∃ τ, Reach (CalmStep cs cr) σ τ ∧ Ready .Z .D τ ∧ τ.snd.todo = σ.snd.todo := by
      obtain ready₁ | ready₁ := ready₁
      · exact ⟨τ₁, run₁, ready₁, todo₁⟩
      · obtain ⟨τ, run, ready, todo⟩ := @rounds_D cs cr τ₁ ready₁
        exact ⟨τ, run₁.trans run, ready, todo.trans todo₁⟩
    obtain ⟨τ₂, run₂, ready₂, todo₂⟩ := whole
    obtain ⟨τ₃, run₃, ready₃ | ⟨ready₃, less⟩⟩ := @round_Z cs cr τ₂ ready₂
    · exact ⟨τ₃, run₂.trans run₃, ready₃⟩
    · rw [todo₂, len] at less
      obtain ⟨τ, run, ready⟩ := ih _ less ready₃ rfl
      exact ⟨τ, (run₂.trans run₃).trans run, ready⟩

theorem round_B (h : Ready .B .F σ) : ∃ τ, Reach (CalmStep cs cr) σ τ ∧ τ.snd.STATE = .C ∧ τ.rcv.STATE = .C ∧
    (∀ g ∈ τ.rcv.done, g.fate = .kept) ∧ τ.snd.todo = [] := by
  have sent : σ.snd.send cs = ({ σ.snd with NUMTRY := 0 + 1 }, some ⟨.B, σ.snd.PKTNUM, []⟩) := by
    simp only [Sender.send, h.snd, Sender.SEOT, Sender.attempt, h.tries.1]
    rfl
  obtain ⟨taken, st, done⟩ := @taken_B cr σ.rcv ⟨.B, σ.snd.PKTNUM, []⟩ h.tries.2 h.num.symm h.rcv rfl
  have run := exchange h.quiet (congrArg Prod.snd sent) taken rfl
  have heard := @hear_ack (σ.snd.send cs).1 ⟨.Y, σ.snd.PKTNUM, []⟩ cs rfl (by rw [sent])
  rw [heard, sent] at run
  simp only [h.snd] at run
  refine ⟨_, run, rfl, st, ?_, (h.left rfl).2⟩
  rw [done]
  exact h.kept

variable (cs cr) in
/-- The places that `GTCHR` will have when the parameters are settled. -/
def places (a b : Agreed) : ℕ :=
  ((settled cs.own cr.own a b).SPSIZ + 512 - 5 - ((settled cs.own cr.own a b).INICHK - 0x31)) % 256

theorem round_S (start : Start σ) (room : 3 ≤ places cs cr σ.snd.par σ.rcv.par) :
    ∃ τ, Reach (CalmStep cs cr) σ τ ∧ Ready .F .F τ := by
  obtain ⟨st, PKTNUM, NUMPKT, tries⟩ := start.snd
  obtain ⟨rst, num, tries', keys⟩ := start.rcv
  have sent : σ.snd.send cs = ({ σ.snd with
      NUMTRY := 0 + 1, CURCHK := '1'.toNat, par := { σ.snd.par with INICHK := cs.own.CHKTYP } },
      some ⟨.S, 0, RPAR cs.own σ.snd.par⟩) := by
    simp only [Sender.send, st, Sender.SINIT, Sender.attempt, tries, NUMPKT]
    rfl
  obtain ⟨taken, goes⟩ := @taken_S cr σ.rcv ⟨.S, 0, RPAR cs.own σ.snd.par⟩ tries' keys rst rfl
  have run := exchange start.line (congrArg Prod.snd sent) taken rfl
  have heard := @hear_ack (σ.snd.send cs).1 ⟨.Y, 0, RPAR cr.own (answered cs.own cr.own σ.snd.par σ.rcv.par)⟩ cs rfl
    (by rw [sent]; exact PKTNUM.symm)
  have run' : Reach (CalmStep cs cr) σ _ := heard ▸ run
  rw [sent] at run'
  simp only [st] at run'
  refine ⟨_, run', ⟨rfl, rfl, rfl⟩, rfl, goes.STATE, ⟨rfl, goes.NUMTRY⟩, goes.PKTNUM, goes.CZSEEN, fun e => by simp at e,
    State.noConfusion, goes.kept ?_, room, State.noConfusion⟩
  rw [start.files.1]
  simp

theorem runs_to_end (start : Start σ) (room : 3 ≤ places cs cr σ.snd.par σ.rcv.par) :
    ∃ τ, Reach (CalmStep cs cr) σ τ ∧ τ.snd.STATE = .C ∧ τ.rcv.STATE = .C ∧ (∀ g ∈ τ.rcv.done, g.fate = .kept) ∧
      τ.snd.todo = [] := by
  obtain ⟨τ₁, run₁, ready₁⟩ := round_S start room
  obtain ⟨τ₂, run₂, ready₂⟩ := @rounds_F cs cr τ₁ ready₁
  obtain ⟨τ, run₃, ends⟩ := @round_B cs cr τ₂ ready₂
  exact ⟨τ, (run₁.trans run₂).trans run₃, ends⟩

/-! ### The results -/

/-- Two files, and sides that use all eight bits. -/
def Own.default : Own := ⟨94, 5, 0, 0, 0x0D, '#'.toNat, '1'.toNat, PARNON⟩

def Agreed.default : Agreed := ⟨94, 0, 0, 0x0D, '#'.toNat, '&'.toNat, false, '1'.toNat⟩

def someSend : SendSet := ⟨.default, .binary, 512⟩

def someRecv : RecvSet := ⟨.default, [], false⟩

def someSys : Sys where
  snd := ⟨.S, 0, 0, 0, 0, '1'.toNat, .default, [], ⟨[], []⟩, [], some ⟨[0x41], [0x0D, 0x8A, 0x23], [], false⟩, [([0x42], [])]⟩
  waiting := false
  rcv := ⟨.R, 0, 0, 0, 0, 0, '1'.toNat, false, .default, [], none⟩
  toR := []
  toS := []

theorem start_someSys : Start someSys :=
  ⟨⟨rfl, rfl, rfl, rfl⟩, rfl, ⟨_, _, rfl⟩, ⟨rfl, rfl, rfl, rfl⟩, ⟨rfl, rfl⟩, ⟨rfl, rfl, rfl⟩⟩

theorem places_someSys : 3 ≤ places someSend someRecv someSys.snd.par someSys.rcv.par := by decide

/-- Whatever the line loses, and whenever a side times out, gives up, has a full disk or a key pressed, the receiver has
the first of the files that were given to the sender, in their order and each once. A file that it keeps was read to its
end by the sender, and has the bytes of the packets of it that acknowledgements asked for. -/
theorem files_of_reach (start : Start σ) (run : Reach (Step cs cr) σ τ) :
    ∃ l, l <+: τ.snd.sent ++ τ.snd.file.toList ∧ List.Forall₂ (Kept cs cr σ.snd.par σ.rcv.par) τ.rcv.files l ∧
      l.map (fun f => (f.name, f.text)) <+: σ.snd.given := by
  obtain ⟨ph, n, h⟩ := Inv.of_reach start run
  obtain ⟨l, pre, all⟩ := h.data.files
  refine ⟨l, pre, all, ?_⟩
  rw [← given_of_reach run]
  exact (pre.map _).trans (List.prefix_append _ _)

theorem files_of_someSys : ∃ τ, Reach (Step someSend someRecv) someSys τ ∧ τ.snd.STATE = .C ∧
    ∃ l, l <+: τ.snd.sent ++ τ.snd.file.toList ∧
      List.Forall₂ (Kept someSend someRecv someSys.snd.par someSys.rcv.par) τ.rcv.files l ∧
      l.map (fun f => (f.name, f.text)) <+: someSys.snd.given := by
  obtain ⟨τ, run, complete, -⟩ := runs_to_end start_someSys places_someSys
  exact ⟨τ, Reach.of_calm run, complete, files_of_reach start_someSys (Reach.of_calm run)⟩

/-- When the sender has completed the transfer, the receiver has too: it has finished all the files that were sent. -/
theorem complete_of_reach (start : Start σ) (run : Reach (Step cs cr) σ τ) (complete : τ.snd.STATE = .C) :
    τ.rcv.STATE = .C ∧ τ.rcv.file = none ∧ τ.snd.file = none ∧
      List.Forall₂ (Kept cs cr σ.snd.par σ.rcv.par) τ.rcv.done τ.snd.sent := by
  obtain ⟨ph, n, h⟩ := Inv.of_reach start run
  obtain rfl := h.closed complete
  obtain ⟨-, none_open, none_left, all⟩ := h.data
  refine ⟨?_, none_open, none_left, all⟩
  obtain ⟨at_, -⟩ | ⟨-, ne⟩ := h.rcv
  · exact at_
  · exact absurd rfl ne

theorem complete_of_someSys : ∃ τ, Reach (Step someSend someRecv) someSys τ ∧ τ.snd.STATE = .C ∧
    τ.rcv.STATE = .C ∧ τ.rcv.file = none ∧ τ.snd.file = none ∧
      List.Forall₂ (Kept someSend someRecv someSys.snd.par someSys.rcv.par) τ.rcv.done τ.snd.sent := by
  obtain ⟨τ, run, complete, -⟩ := runs_to_end start_someSys places_someSys
  exact ⟨τ, Reach.of_calm run, complete, complete_of_reach start_someSys (Reach.of_calm run) complete⟩

end RSX280.Kpkt
