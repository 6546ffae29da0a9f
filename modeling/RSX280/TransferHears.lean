import RSX280.TransferRuns

/-!
# Answers to the sender (`kermit/kpkt.mac`)

The sender takes an answer for an acknowledgement of its packet, or for one of an earlier packet, which it passes over. A
request for the packet after its own is as good as an acknowledgement, but not counted as one.
-/

namespace RSX280.Kpkt

variable {cs : SendSet} {cr : RecvSet} {a b : Agreed} {σ : Sys} {ph : Ph} {n : ℕ}

/-- What `SEND2` does with an answer: nothing, give up, or take it for an acknowledgement. -/
inductive Hears (cs : SendSet) (s : Sender) : Option Pkt → Sender → Prop
  | same (got : Option Pkt) : Hears cs s got s
  | quit (got : Option Pkt) (at_ : s.STATE ≠ .C) : Hears cs s got s.abort
  | ack {p : Pkt} (kind : p.kind = .Y) (num : p.num = s.PKTNUM) : Hears cs s (some p) (s.hear cs (some p))
  | nak {p : Pkt} (kind : p.kind = .N) (num : p.num = next s.PKTNUM) : Hears cs s (some p) (s.hear cs (some p))

theorem answer_cases {s : Sender} {onAck onNak : Pkt → Sender → Sender} (got : Option Pkt) :
    s.answer onAck onNak got = s ∨ s.answer onAck onNak got = s.abort ∨
      ∃ p, got = some p ∧ (p.kind = .Y ∧ p.num = s.PKTNUM ∨ p.kind = .N ∧ p.num = next s.PKTNUM) := by
  cases got with
  | none => exact .inl rfl
  | some p =>
    cases kind : p.kind
    case Y =>
      by_cases num : p.num = s.PKTNUM
      · exact .inr (.inr ⟨p, rfl, .inl ⟨kind, num⟩⟩)
      · exact .inl (by simp only [Sender.answer, kind, num, if_false])
    case N =>
      by_cases num : p.num = (s.PKTNUM + 1) % 64
      · exact .inr (.inr ⟨p, rfl, .inr ⟨kind, num⟩⟩)
      · exact .inl (by simp only [Sender.answer, kind, num, if_false])
    all_goals exact .inr (.inl (by simp only [Sender.answer, kind]))

theorem hears (cs : SendSet) (s : Sender) (got : Option Pkt) : Hears cs s got (s.hear cs got) := by
  have cases_ : (∃ onAck onNak, s.STATE ≠ .C ∧ s.hear cs got = s.answer onAck onNak got) ∨ s.hear cs got = s := by
    cases st : s.STATE <;> simp only [Sender.hear, st]
    case S => exact .inl ⟨_, _, State.noConfusion, rfl⟩
    case F => exact .inl ⟨_, _, State.noConfusion, rfl⟩
    case D => exact .inl ⟨_, _, State.noConfusion, rfl⟩
    case Z => exact .inl ⟨_, _, State.noConfusion, rfl⟩
    case B => exact .inl ⟨_, _, State.noConfusion, rfl⟩
    all_goals exact .inr trivial
  obtain ⟨onAck, onNak, more, eq⟩ | eq := cases_
  · obtain same | quit | ⟨p, rfl, ⟨kind, num⟩ | ⟨kind, num⟩⟩ := @answer_cases s onAck onNak got
    · rw [eq, same]
      exact .same got
    · rw [eq, quit]
      exact .quit got more
    · exact .ack kind num
    · exact .nak kind num
  · rw [eq]
    exact .same got

/-! What it does with an acknowledgement, and with a request for the next packet. -/

section Answers

variable {s : Sender} {p : Pkt}

theorem hear_ack (cs : SendSet) (kind : p.kind = .Y) (num : p.num = s.PKTNUM) : s.hear cs (some p) =
    match s.STATE with
    | .S => Sender.GETFIL { s.COUNTP p.num with
        par := SPAR cs.own p.data s.par, NUMTRY := 0, CURCHK := (SPAR cs.own p.data s.par).INICHK, STATE := .F }
    | .F => s.SFIL14 cs p
    | .D => s.SDATA_acked cs p
    | .Z => s.SEOF12 p
    | .B => { s.COUNTP p.num with NUMTRY := 0, STATE := .C }
    | _ => s := by
  cases st : s.STATE <;>
    simp only [Sender.hear, st, Sender.SINIT_got, Sender.SFILE_got, Sender.SDATA_got, Sender.SEOF_got, Sender.SEOT_got,
      Sender.answer, kind, num, if_true]
  rfl

theorem hear_nak (cs : SendSet) (kind : p.kind = .N) (num : p.num = next s.PKTNUM) : s.hear cs (some p) =
    match s.STATE with
    | .S => { s with NUMTRY := 0, STATE := .F }
    | .F => s.SFIL14 cs p
    | .D => s.fill cs false
    | .Z => s.SEOF12 p
    | .B => { s.COUNTP p.num with NUMTRY := 0, STATE := .C }
    | _ => s := by
  have num' : p.num = (s.PKTNUM + 1) % 64 := num
  cases st : s.STATE <;>
    simp only [Sender.hear, st, Sender.SINIT_got, Sender.SFILE_got, Sender.SDATA_got, Sender.SEOF_got, Sender.SEOT_got,
      Sender.answer, kind, num', if_true]

end Answers

/-! The oldest answer under way. -/

section Heads

variable {p : Pkt} {l : List Pkt}

/-- The oldest answer is about the packet the receiver expects, or a packet before it; then all the others are too. -/
theorem head_fresh (ph_ : ph = .agreed ∨ ph = .named ∨ ph = .sent ∨ ph = .ended) (h : LineS cs cr a b n (p :: l) ph) :
    (∀ p' ∈ p :: l, Reply n p') ∨ Reply (before n) p := by
  have split : (∃ stale fresh, p :: l = stale ++ fresh ∧ (∀ p ∈ stale, Reply (before n) p) ∧ ∀ p ∈ fresh, Reply n p) := by
    obtain rfl | rfl | rfl | rfl := ph_
    · exact h.2
    all_goals exact h
  obtain ⟨stale, fresh, eq, old, new⟩ := split
  cases stale with
  | nil =>
    rw [List.nil_append] at eq
    exact .inl (eq ▸ new)
  | cons p' stale =>
    cases eq
    exact .inr (old p List.mem_cons_self)

/-- An acknowledgement that counts says that the receiver has the packet. -/
theorem ack_fresh {m : ℕ} (r : Reply (before n) p) (kind : p.kind = .Y) (num : p.num = m) : m = before (before n) := by
  obtain e | ⟨-, eq⟩ | ⟨e, -⟩ := r
  · rw [kind] at e
    cases e
  · exact num.symm.trans eq
  · rw [kind] at e
    cases e

theorem reply_ack (r : Reply n p) (kind : p.kind = .Y) : p.num = before n := by
  obtain e | ⟨-, eq⟩ | ⟨e, -⟩ := r
  · rw [kind] at e
    cases e
  · exact eq
  · rw [kind] at e
    cases e

theorem reply_nak (r : Reply n p) (kind : p.kind = .N) : p.num = n := by
  obtain e | ⟨e, -⟩ | ⟨-, eq⟩ := r
  · rw [kind] at e
    cases e
  · rw [kind] at e
    cases e
  · exact eq

end Heads

/-! The sender makes a packet of its file. -/

section Fill

variable {f : Sent} {src src' : Source} {out : List ℕ} {SPSIZ CURCHK : ℕ}

theorem Reading.more (h : Reading cs cr a b f src) (more : f.eof = false)
    (next : GTCHR ⟨quotes cs cr a b, cs.FMFLG, cs.BUFLEN⟩ SPSIZ CURCHK src = some (out, src')) (acked : Bool) :
    Reading cs cr a b { f with pieces := f.pieces ++ [(acked, out)] } src' := by
  intro mode buffer good small
  obtain ⟨text, -⟩ := h mode buffer good small
  obtain ⟨bytes, dropped, filled⟩ := GTCHR1_spec next
  have inside : ∀ ch ∈ src.bytes, ch < 256 := fun ch mem => small ch (by rw [text]; exact List.mem_append_right _ mem)
  obtain ⟨_, rfl, back⟩ := filled.back good inside
  have one : PTCHR (quotes cs cr a b) out = bytes := by
    have := back []
    rwa [List.append_nil, PTCHR, List.append_nil] at this
  refine ⟨?_, fun eof => by rw [more] at eof; cases eof⟩
  rw [List.flatMap_append, text, filled.read, filled.binary mode]
  simp [one]

theorem Reading.last (h : Reading cs cr a b f src)
    (last : GTCHR ⟨quotes cs cr a b, cs.FMFLG, cs.BUFLEN⟩ SPSIZ CURCHK src = none) :
    Reading cs cr a b { f with eof := true } src :=
  fun mode buffer good small => ⟨(h mode buffer good small).1, fun _ => (bytes_eq_nil_of_GTCHR1 buffer last).2⟩

theorem fill_cases (cs : SendSet) (s : Sender) (acked : Bool) :
    (∃ out src, GTCHR (s.reader cs) s.par.SPSIZ s.CURCHK s.src = some (out, src) ∧ s.fill cs acked =
      { s with STATE := .D, FILBUF := out, src, file := s.file.map fun f => { f with pieces := f.pieces ++ [(acked, out)] } }) ∨
    GTCHR (s.reader cs) s.par.SPSIZ s.CURCHK s.src = none ∧
      s.fill cs acked = { s with STATE := .Z, file := s.file.map fun f => { f with eof := true } } := by
  simp only [Sender.fill]
  cases next : GTCHR (s.reader cs) s.par.SPSIZ s.CURCHK s.src with
  | none => exact .inr ⟨rfl, rfl⟩
  | some res => exact .inl ⟨res.1, res.2, rfl, rfl⟩

end Fill

/-! The steps of the sender that an answer may bring about. -/

theorem before_one : before 1 = 0 := rfl

theorem LineR.stray (ph : Ph) {s' : Sender} {l : List Pkt} (h : ∀ p ∈ l, Old ph.stage n p) :
    LineR cs cr a b n s' l .astrayF ∧ LineR cs cr a b n s' l .astrayD := by
  have ne := numbers_ne n
  constructor
  · intro p mem num
    exact absurd ((h p mem).1.symm.trans num) ne.1
  · intro p mem num
    exact absurd ((h p mem).1.symm.trans num) ne.1

theorem LineR.next (ph : Ph) {s' : Sender} {l : List Pkt} {ph' : Ph} (h : ∀ p ∈ l, Old ph.stage n p) (stage : ph'.stage = ph.stage)
    (sync : ph' = .naming ∨ ph' = .sending ∨ ph' = .ending ∨ ph' = .closing) : LineR cs cr a b n s' l ph' := by
  have split : ∃ olds curs, l = olds ++ curs ∧ (∀ p ∈ olds, Old ph'.stage n p ∧ ph' ≠ .opening) ∧
      ∀ p ∈ curs, Cur cs cr a b n s' p ph' := by
    refine ⟨l, [], (List.append_nil l).symm, ?_, by simp⟩
    intro p mem
    rw [stage]
    refine ⟨h p mem, ?_⟩
    rintro rfl
    simp at sync
  obtain rfl | rfl | rfl | rfl := sync <;> exact split

/-- What is left of the file that the receiver has open when the sender goes on reading. -/
theorem Open.fill {s : Sender} {r : Receiver} {f : Sent} {l : List (List ℕ)} (o : Open cs cr a b s r f l)
    (more : f.eof = false) (acked : Bool) :
    (s.fill cs acked).PKTNUM = s.PKTNUM ∧ (s.fill cs acked).CZSEEN = s.CZSEEN ∧
      ∃ f', Open cs cr a b (s.fill cs acked) r f' l ∧
        ((s.fill cs acked).STATE = .D ∧ f'.eof = false ∧ f'.pieces = f.pieces ++ [(acked, (s.fill cs acked).FILBUF)] ∨
          (s.fill cs acked).STATE = .Z ∧ f'.eof = true ∧ f'.pieces = f.pieces) := by
  have reader : s.reader cs = ⟨quotes cs cr a b, cs.FMFLG, cs.BUFLEN⟩ := by
    rw [Sender.reader, o.par.1]
    rfl
  obtain ⟨out, src, next, eq⟩ | ⟨last, eq⟩ := fill_cases cs s acked
  · rw [reader] at next
    rw [eq]
    refine ⟨rfl, rfl, { f with pieces := f.pieces ++ [(acked, out)] }, ⟨o.par, ?_, ?_, o.files, o.has⟩, .inl ⟨rfl, more, rfl⟩⟩
    · rw [o.file]
      rfl
    · exact o.reading.more more next acked
  · rw [reader] at last
    rw [eq]
    refine ⟨rfl, rfl, { f with eof := true }, ⟨o.par, ?_, ?_, o.files, o.has⟩, .inr ⟨rfl, rfl, rfl⟩⟩
    · rw [o.file]
      rfl
    · exact o.reading.last last

/-- The file that the receiver has open is the last of those the sender has begun. -/
theorem Open.forall₂ {s : Sender} {r : Receiver} {f : Sent} {l : List (List ℕ)} (o : Open cs cr a b s r f l) :
    List.Forall₂ (Kept cs cr a b) r.files (s.sent ++ [f]) := by
  obtain ⟨done, g, files, all, name, fate⟩ := o.files
  rw [files]
  exact List.rel_append all (.cons ⟨name, fun kept => absurd kept fate⟩ .nil)

variable {s : Sender} {r : Receiver} {p : Pkt} {l : List Pkt}

/-- An acknowledgement that counts: what was on the way is about the packet or those before it. -/
theorem fresh_of_ack (small : n < 64) (ph_ : ph = .agreed ∨ ph = .named ∨ ph = .sent ∨ ph = .ended)
    (h : LineS cs cr a b n (p :: l) ph) (at_ : s.PKTNUM = before n)
    (ack : p.kind = .Y ∧ p.num = s.PKTNUM ∨ p.kind = .N ∧ p.num = next s.PKTNUM) :
    p.num = (if p.kind = .Y then before n else n) ∧ ∀ p' ∈ l, Reply n p' := by
  have ne := numbers_ne n
  obtain all | old := head_fresh ph_ h
  · refine ⟨?_, fun p' mem => all p' (List.mem_cons_of_mem _ mem)⟩
    obtain ⟨kind, num⟩ | ⟨kind, num⟩ := ack
    · rw [kind, if_pos rfl, num, at_]
    · rw [kind, if_neg Kind.noConfusion, num, at_, next_before small]
  · obtain ⟨kind, num⟩ | ⟨kind, num⟩ := ack
    · exact absurd (at_.symm.trans (num.symm.trans (reply_ack old kind))).symm ne.2.2.2.1
    · rw [at_, next_before small] at num
      exact absurd ((reply_nak old kind).symm.trans num) ne.1

/-- Otherwise no answer counts. -/
theorem no_ack (reply : Reply n p) (at_ : s.PKTNUM = n ∨ s.PKTNUM = next n)
    (ack : p.kind = .Y ∧ p.num = s.PKTNUM ∨ p.kind = .N ∧ p.num = next s.PKTNUM) : False := by
  have ne := numbers_ne n
  obtain ⟨kind, num⟩ | ⟨kind, num⟩ := ack
  · have := (reply_ack reply kind).symm.trans num
    grind
  · have := (reply_nak reply kind).symm.trans num
    grind

/-- `SINIT` is acknowledged. -/
theorem Inv.ack_S (h : Inv cs cr a b σ ph n) {l : List Pkt} (toS : σ.toS = p :: l) (st : σ.snd.STATE = .S)
    (kind : p.kind = .Y) (num : p.num = σ.snd.PKTNUM) :
    Inv cs cr a b { σ with snd := σ.snd.hear cs (some p), waiting := false, toS := l } .naming n := by
  have line := h.toS
  rw [toS] at line
  obtain ⟨rfl, at_⟩ | ⟨rfl, at_⟩ := snd_S h.snd st
  · obtain e | ⟨e, -⟩ := line p List.mem_cons_self
    · rw [kind] at e
      cases e
    · rw [kind] at e
      cases e
  · obtain ⟨num', fresh⟩ := fresh_of_ack h.small (by simp) line at_ (.inl ⟨kind, num⟩)
    rw [kind, if_pos rfl] at num'
    obtain ⟨⟨⟨i, par⟩, par'⟩, none_sent, ⟨f, file, pieces, more⟩, none_got⟩ := h.data
    have data := line.1 p List.mem_cons_self kind
    have heard := hear_ack cs kind num
    rw [st] at heard
    have got : σ.rcv.file = none ∧ σ.rcv.done = [] := by
      simp only [Receiver.files, List.append_eq_nil_iff] at none_got
      exact ⟨by simpa using none_got.2, none_got.1⟩
    rw [heard]
    refine ⟨h.small, ⟨?_, .inl rfl⟩, ?_, ?_, fresh, ⟨?_, par'⟩, got.1, ?_, f, file, pieces, more, ?_⟩
    · show next p.num = n
      rw [num', next_before h.small]
    · exact h.rcv
    · exact LineR.next .agreed (fun p mem => (h.toR p mem).1) rfl (.inl rfl)
    · show SPAR cs.own p.data σ.snd.par = settled cs.own cr.own a b
      rw [data, par]
      rfl
    · rw [got.2]
      show List.Forall₂ _ [] σ.snd.sent
      rw [none_sent]
      exact .nil
    · intro _ _ _ _
      refine ⟨?_, fun eof => by rw [more] at eof; cases eof⟩
      simp [pieces, Sender.GETFIL, Source.bytes, Sender.COUNTP, file]

/-- `SINIT` is refused, but the receiver waits for the next packet. -/
theorem Inv.nak_S (h : Inv cs cr a b σ ph n) {l : List Pkt} (toS : σ.toS = p :: l) (st : σ.snd.STATE = .S)
    (kind : p.kind = .N) (num : p.num = next σ.snd.PKTNUM) :
    Inv cs cr a b { σ with snd := σ.snd.hear cs (some p), waiting := false, toS := l } .astrayF n := by
  have line := h.toS
  rw [toS] at line
  obtain ⟨rfl, at_⟩ | ⟨rfl, at_⟩ := snd_S h.snd st
  · have zero := h.snd.2.1
    obtain e | ⟨-, e⟩ := line p List.mem_cons_self
    · rw [kind] at e
      cases e
    · rw [at_, e, zero] at num
      exact absurd num (by decide)
  · obtain ⟨-, fresh⟩ := fresh_of_ack h.small (by simp) line at_ (.inr ⟨kind, num⟩)
    obtain ⟨-, -, -, none_got⟩ := h.data
    have heard := hear_nak cs kind num
    rw [st] at heard
    rw [heard]
    exact ⟨h.small, .inl ⟨at_, .inl rfl⟩, h.rcv, (LineR.stray .agreed fun p mem => (h.toR p mem).1).1, fresh,
      [], List.nil_prefix, by rw [none_got]; exact .nil⟩

/-- What the sender does when it fills a packet, apart from the packet. -/
theorem fill_sent (cs : SendSet) (s : Sender) (acked : Bool) : (s.fill cs acked).PKTNUM = s.PKTNUM ∧ (s.fill cs acked).sent = s.sent ∧
    ((s.fill cs acked).STATE = .D ∨ (s.fill cs acked).STATE = .Z) := by
  obtain ⟨out, src, -, eq⟩ | ⟨-, eq⟩ := fill_cases cs s acked
  · rw [eq]
    exact ⟨rfl, rfl, .inl rfl⟩
  · rw [eq]
    exact ⟨rfl, rfl, .inr rfl⟩

/-- `SFILE` goes on. -/
theorem Inv.next_F (h : Inv cs cr a b σ ph n) {l : List Pkt} (toS : σ.toS = p :: l) (st : σ.snd.STATE = .F)
    (ack : p.kind = .Y ∧ p.num = σ.snd.PKTNUM ∨ p.kind = .N ∧ p.num = next σ.snd.PKTNUM) :
    ∃ ph', Inv cs cr a b { σ with snd := σ.snd.SFIL14 cs p, waiting := false, toS := l } ph' n := by
  have line := h.toS
  have ne := numbers_ne n
  rw [toS] at line
  have sent := fill_sent cs { σ.snd.COUNTP p.num with NUMTRY := 0 } (p.kind = .Y)
  obtain ⟨rfl, at_⟩ | ⟨rfl, at_⟩ | ⟨rfl, at_⟩ | ⟨rfl, at_⟩ := snd_F h.snd st
  · exact (no_ack (line p List.mem_cons_self) (.inl at_) ack).elim
  · obtain ⟨num, fresh⟩ := fresh_of_ack h.small (by simp) line at_ ack
    obtain ⟨f, o, pieces, more⟩ := h.data
    have o' : Open cs cr a b { σ.snd.COUNTP p.num with NUMTRY := 0 } σ.rcv f [] :=
      ⟨o.par, o.file, o.reading, o.files, o.has⟩
    obtain ⟨PKTNUM, -, f', filled, res⟩ := o'.fill more (p.kind = .Y)
    have PKTNUM' : (σ.snd.SFIL14 cs p).PKTNUM = next p.num := PKTNUM
    by_cases kind : p.kind = .Y
    · rw [kind, if_pos rfl] at num
      rw [num, next_before h.small] at PKTNUM'
      obtain ⟨st', more', pieces'⟩ | ⟨st', eof, pieces'⟩ := res
      · refine ⟨.sending, h.small, ⟨PKTNUM', .inl st'⟩, h.rcv, LineR.next .named h.toR rfl (by simp), fresh,
          f', [], filled, pieces'.trans ?_, more'⟩
        rw [pieces]
        exact congrArg (fun x => [(x, (σ.snd.SFIL14 cs p).FILBUF)]) (decide_eq_true kind)
      · refine ⟨.ending, h.small, ⟨PKTNUM', .inl st'⟩, h.rcv, LineR.next .named h.toR rfl (by simp), fresh,
          f', ?_, fun _ => eof⟩
        have none : f'.acked = [] := by simp [Sent.acked, pieces', pieces]
        rw [none]
        exact filled
    · rw [if_neg kind] at num
      rw [num] at PKTNUM'
      refine ⟨.astrayD, h.small, .inr (.inr (.inr ⟨PKTNUM', ?_, ?_⟩)), h.rcv, (LineR.stray .named h.toR).2, fresh,
        _, ?_, filled.forall₂⟩
      · obtain st' | st' := sent.2.2 <;> exact fun e => State.noConfusion (st'.symm.trans e)
      · obtain st' | st' := sent.2.2 <;> exact fun e => State.noConfusion (st'.symm.trans e)
      · have file : (σ.snd.SFIL14 cs p).file = some f' := filled.file
        show _ <+: (σ.snd.SFIL14 cs p).sent ++ (σ.snd.SFIL14 cs p).file.toList
        rw [file]
        exact List.prefix_rfl
  · have at_' : σ.snd.PKTNUM = before n := by
      obtain at_ | at_ := at_
      · exact at_
      · exact (no_ack (line p List.mem_cons_self) (.inr at_) ack).elim
    have toR := h.toR
    have num : next p.num = n ∨ next p.num = next n := by
      obtain ⟨-, num⟩ | ⟨-, num⟩ := ack
      · exact .inl (by rw [num, at_', next_before h.small])
      · exact .inr (by rw [num, at_', next_before h.small])
    have PKTNUM : (σ.snd.SFIL14 cs p).PKTNUM = next p.num := sent.1
    obtain ⟨l', pre, all⟩ := h.data
    refine ⟨.astrayF, h.small, ?_, h.rcv, toR, fun p' mem => line p' (List.mem_cons_of_mem _ mem), l', ?_, all⟩
    · obtain num | num := num
      · obtain st' | st' := sent.2.2
        · exact .inr (.inl ⟨PKTNUM.trans num, .inl st'⟩)
        · exact .inr (.inr (.inl ⟨PKTNUM.trans num, .inl st'⟩))
      · refine .inr (.inr (.inr ⟨PKTNUM.trans num, ?_, ?_⟩))
        · obtain st' | st' := sent.2.2 <;> exact fun e => State.noConfusion (st'.symm.trans e)
        · obtain st' | st' := sent.2.2 <;> exact fun e => State.noConfusion (st'.symm.trans e)
    · show l' <+: (σ.snd.SFIL14 cs p).sent
      rw [show (σ.snd.SFIL14 cs p).sent = σ.snd.sent from sent.2.1]
      exact pre
  · exact (no_ack (line p List.mem_cons_self) at_ ack).elim

/-- `SDATA` is acknowledged. -/
theorem Inv.ack_D (h : Inv cs cr a b σ ph n) {l : List Pkt} (toS : σ.toS = p :: l) (st : σ.snd.STATE = .D)
    (kind : p.kind = .Y) (num : p.num = σ.snd.PKTNUM) :
    ∃ ph', Inv cs cr a b { σ with snd := σ.snd.SDATA_acked cs p, waiting := false, toS := l } ph' n := by
  have line := h.toS
  rw [toS] at line
  obtain ⟨rfl, at_⟩ | ⟨rfl, at_⟩ | ⟨rfl, at_⟩ | ⟨rfl, at_⟩ := snd_D h.snd st
  · exact (no_ack (line p List.mem_cons_self) (.inl at_) (.inl ⟨kind, num⟩)).elim
  · obtain ⟨num', fresh⟩ := fresh_of_ack h.small (by simp) line at_ (.inl ⟨kind, num⟩)
    rw [kind, if_pos rfl] at num'
    have PKTNUM : next p.num = n := by rw [num', next_before h.small]
    obtain ⟨f, o, more⟩ := h.data
    have toR : ∀ p ∈ σ.toR, Old Ph.sent.stage n p := h.toR
    simp only [Sender.SDATA_acked]
    split
    · rename_i asked
      refine ⟨.ending, h.small, ⟨PKTNUM, .inl rfl⟩, h.rcv, LineR.next .sent toR rfl (by simp), fresh,
        f, ⟨o.par, o.file, o.reading, o.files, o.has⟩, fun none => absurd none ?_⟩
      show p.data.headD 0 ≠ 0
      obtain data | data := asked <;> rw [data] <;> decide
    · split
      · rename_i pressed
        exact ⟨.ending, h.small, ⟨PKTNUM, .inl rfl⟩, h.rcv, LineR.next .sent toR rfl (by simp), fresh,
          f, ⟨o.par, o.file, o.reading, o.files, o.has⟩, fun none => absurd none pressed⟩
      · have o' : Open cs cr a b { σ.snd.COUNTP p.num with NUMTRY := 0 } σ.rcv f f.acked :=
          ⟨o.par, o.file, o.reading, o.files, o.has⟩
        obtain ⟨PKTNUM', -, f', filled, ⟨st', more', pieces⟩ | ⟨st', eof, pieces⟩⟩ := o'.fill more true
        · exact ⟨.sending, h.small, ⟨PKTNUM'.trans PKTNUM, .inl st'⟩, h.rcv,
            LineR.next .sent toR rfl (by simp), fresh, f', f.pieces, filled, pieces, more'⟩
        · refine ⟨.ending, h.small, ⟨PKTNUM'.trans PKTNUM, .inl st'⟩, h.rcv,
            LineR.next .sent toR rfl (by simp), fresh, f', ?_, fun _ => eof⟩
          have same : f'.acked = f.acked := by rw [Sent.acked, pieces, Sent.acked]
          rw [same]
          exact filled
  · exact (no_ack (line p List.mem_cons_self) at_ (.inl ⟨kind, num⟩)).elim
  · exact (no_ack (line p List.mem_cons_self) (.inr at_) (.inl ⟨kind, num⟩)).elim

/-- `SDATA` is refused, but the receiver waits for the next packet. -/
theorem Inv.nak_D (h : Inv cs cr a b σ ph n) {l : List Pkt} (toS : σ.toS = p :: l) (st : σ.snd.STATE = .D)
    (kind : p.kind = .N) (num : p.num = next σ.snd.PKTNUM) :
    ∃ ph', Inv cs cr a b { σ with snd := σ.snd.fill cs false, waiting := false, toS := l } ph' n := by
  have line := h.toS
  rw [toS] at line
  obtain ⟨rfl, at_⟩ | ⟨rfl, at_⟩ | ⟨rfl, at_⟩ | ⟨rfl, at_⟩ := snd_D h.snd st
  · exact (no_ack (line p List.mem_cons_self) (.inl at_) (.inr ⟨kind, num⟩)).elim
  · obtain ⟨-, fresh⟩ := fresh_of_ack h.small (by simp) line at_ (.inr ⟨kind, num⟩)
    obtain ⟨f, o, more⟩ := h.data
    have toR : ∀ p ∈ σ.toR, Old Ph.sent.stage n p := h.toR
    obtain ⟨PKTNUM, -, f', filled, ⟨st', more', pieces⟩ | ⟨st', eof, pieces⟩⟩ := o.fill more false
    · refine ⟨.sent, h.small, ⟨PKTNUM.trans at_, .inl st'⟩, h.rcv, toR, ⟨[], l, rfl, by simp, fresh⟩, f', ?_, more'⟩
      have same : f'.acked = f.acked := by simp [Sent.acked, pieces]
      rw [same]
      exact filled
    · refine ⟨.astrayD, h.small, .inl ⟨PKTNUM.trans at_, .inl st'⟩, h.rcv, (LineR.stray .sent toR).2, fresh,
        _, ?_, filled.forall₂⟩
      show _ <+: (σ.snd.fill cs false).sent ++ (σ.snd.fill cs false).file.toList
      rw [filled.file]
      exact List.prefix_rfl
  · exact (no_ack (line p List.mem_cons_self) at_ (.inr ⟨kind, num⟩)).elim
  · exact (no_ack (line p List.mem_cons_self) (.inr at_) (.inr ⟨kind, num⟩)).elim

/-- `SEOF12`: the file is done, and there is another or not. -/
theorem SEOF12_cases (s : Sender) (p : Pkt) : (s.SEOF12 p).PKTNUM = next p.num ∧
    (s.SEOF12 p).sent = s.sent ++ s.file.toList ∧ (s.SEOF12 p).par = s.par ∧
      ((s.SEOF12 p).STATE = .B ∧ (s.SEOF12 p).file = none ∨ (s.SEOF12 p).STATE = .F ∧
        ∃ f, (s.SEOF12 p).file = some f ∧ f.pieces = [] ∧ f.eof = false ∧ (s.SEOF12 p).src = ⟨[], f.text⟩) := by
  simp only [Sender.SEOF12]
  split
  · exact ⟨rfl, rfl, rfl, .inl ⟨rfl, rfl⟩⟩
  · split
    · exact ⟨rfl, rfl, rfl, .inl ⟨rfl, rfl⟩⟩
    · exact ⟨rfl, rfl, rfl, .inr ⟨rfl, _, rfl, rfl, rfl, rfl⟩⟩

/-- `SEOF` goes on. -/
theorem Inv.next_Z (h : Inv cs cr a b σ ph n) {l : List Pkt} (toS : σ.toS = p :: l) (st : σ.snd.STATE = .Z)
    (ack : p.kind = .Y ∧ p.num = σ.snd.PKTNUM ∨ p.kind = .N ∧ p.num = next σ.snd.PKTNUM) :
    ∃ ph', Inv cs cr a b { σ with snd := σ.snd.SEOF12 p, waiting := false, toS := l } ph' n := by
  have line := h.toS
  rw [toS] at line
  obtain ⟨PKTNUM, sent, par, step⟩ := SEOF12_cases σ.snd p
  have ne_S : (σ.snd.SEOF12 p).STATE ≠ .S ∧ (σ.snd.SEOF12 p).STATE ≠ .C := by
    obtain ⟨st', -⟩ | ⟨st', -⟩ := step <;> rw [st'] <;> decide
  obtain ⟨rfl, at_⟩ | ⟨rfl, at_⟩ | ⟨rfl, at_⟩ | ⟨rfl, at_⟩ := snd_Z h.snd st
  · exact (no_ack (line p List.mem_cons_self) (.inl at_) ack).elim
  · obtain ⟨num, fresh⟩ := fresh_of_ack h.small (by simp) line at_ ack
    obtain ⟨settled, none_open, f, file, all⟩ := h.data
    have toR : ∀ p ∈ σ.toR, Old Ph.ended.stage n p := h.toR
    rw [file] at sent
    by_cases kind : p.kind = .Y
    · rw [kind, if_pos rfl] at num
      rw [num, next_before h.small] at PKTNUM
      have settled' : Settled cs cr a b (σ.snd.SEOF12 p) σ.rcv := ⟨par.trans settled.1, settled.2⟩
      obtain ⟨st', none_left⟩ | ⟨st', f', file', pieces, more, src⟩ := step
      · refine ⟨.closing, h.small, ⟨PKTNUM, .inl st'⟩, h.rcv, LineR.next .ended toR rfl (by simp), fresh,
          settled', none_open, none_left, ?_⟩
        show List.Forall₂ _ σ.rcv.done (σ.snd.SEOF12 p).sent
        rw [sent]
        exact all
      · refine ⟨.naming, h.small, ⟨PKTNUM, .inl st'⟩, h.rcv, LineR.next .ended toR rfl (by simp), fresh,
          settled', none_open, ?_, f', file', pieces, more, ?_⟩
        · show List.Forall₂ _ σ.rcv.done (σ.snd.SEOF12 p).sent
          rw [sent]
          exact all
        · intro _ _ _ _
          refine ⟨?_, fun eof => by rw [more] at eof; cases eof⟩
          show f'.text = _ ++ (σ.snd.SEOF12 p).src.bytes
          rw [src, pieces]
          rfl
    · rw [if_neg kind] at num
      rw [num] at PKTNUM
      refine ⟨.astrayF, h.small, .inr (.inr (.inr ⟨PKTNUM, ne_S⟩)), h.rcv, (LineR.stray .ended toR).1, fresh,
        _, List.prefix_rfl, ?_⟩
      show List.Forall₂ _ σ.rcv.files (σ.snd.SEOF12 p).sent
      rw [sent, Receiver.files, none_open, Option.toList_none, List.append_nil]
      exact all
  · exact (no_ack (line p List.mem_cons_self) at_ ack).elim
  · have at_' : σ.snd.PKTNUM = before n := by
      obtain at_ | at_ := at_
      · exact at_
      · exact (no_ack (line p List.mem_cons_self) (.inr at_) ack).elim
    have num : next p.num = n ∨ next p.num = next n := by
      obtain ⟨-, num⟩ | ⟨-, num⟩ := ack
      · exact .inl (by rw [num, at_', next_before h.small])
      · exact .inr (by rw [num, at_', next_before h.small])
    obtain ⟨l', pre, all⟩ := h.data
    have toR : LineR cs cr a b n (σ.snd.SEOF12 p) σ.toR .astrayD := h.toR
    refine ⟨.astrayD, h.small, ?_, h.rcv, toR, fun p' mem => line p' (List.mem_cons_of_mem _ mem), l', ?_, all⟩
    · obtain num | num := num
      · obtain ⟨st', -⟩ | ⟨st', -⟩ := step
        · exact .inr (.inr (.inl ⟨PKTNUM.trans num, .inl st'⟩))
        · exact .inr (.inl ⟨PKTNUM.trans num, .inl st'⟩)
      · exact .inr (.inr (.inr ⟨PKTNUM.trans num, ne_S⟩))
    · show l' <+: (σ.snd.SEOF12 p).sent ++ (σ.snd.SEOF12 p).file.toList
      rw [sent]
      exact pre.trans (List.prefix_append _ _)

/-- `SEOT` goes on. -/
theorem Inv.next_B (h : Inv cs cr a b σ ph n) {l : List Pkt} (toS : σ.toS = p :: l) (st : σ.snd.STATE = .B)
    (ack : p.kind = .Y ∧ p.num = σ.snd.PKTNUM ∨ p.kind = .N ∧ p.num = next σ.snd.PKTNUM) :
    ∃ ph', Inv cs cr a b { σ with
      snd := { σ.snd.COUNTP p.num with NUMTRY := 0, STATE := .C }, waiting := false, toS := l } ph' n := by
  have line := h.toS
  rw [toS] at line
  obtain ⟨rfl, at_⟩ | ⟨rfl, at_⟩ | ⟨rfl, at_⟩ | ⟨rfl, at_⟩ := snd_B h.snd st
  · exact (no_ack (line p List.mem_cons_self) (.inl at_) ack).elim
  · exact ⟨.closed, h.small, .inr rfl, h.rcv, trivial, fun p' mem => line p' (List.mem_cons_of_mem _ mem), h.data⟩
  · exact (no_ack (line p List.mem_cons_self) (.inr at_) ack).elim
  · exact (no_ack (line p List.mem_cons_self) at_ ack).elim

theorem Got.sublist {all : List Pkt} {got : Option Pkt} (head : Got all got l) : l.Sublist all := by
  cases head with
  | nothing => exact List.Sublist.refl _
  | oldest => exact List.sublist_cons_self _ _

theorem Got.eq {all : List Pkt} (head : Got all (some p) l) : all = p :: l := by
  cases head
  rfl

theorem Inv.hear (h : Inv cs cr a b σ ph n) {got : Option Pkt} {toS : List Pkt} (head : Got σ.toS got toS) :
    ∃ ph', Inv cs cr a b { σ with snd := σ.snd.hear cs got, waiting := false, toS } ph' n := by
  have sub := head.sublist
  have step := hears cs σ.snd got
  generalize eq : σ.snd.hear cs got = s' at step
  cases step with
  | same => exact ⟨ph, h.small, h.snd, h.rcv, h.toR, h.toS.lose sub, h.data⟩
  | quit _ more =>
    have q := h.quitS more
    exact ⟨ph, q.small, q.snd, q.rcv, q.toR, q.toS.lose sub, q.data⟩
  | @ack p kind num =>
    have whole := head.eq
    have heard := hear_ack cs kind num
    cases st : σ.snd.STATE <;> rw [st] at heard
    case S =>
      exact ⟨_, h.ack_S whole st kind num⟩
    case F =>
      rw [heard]
      exact h.next_F whole st (.inl ⟨kind, num⟩)
    case D =>
      rw [heard]
      exact h.ack_D whole st kind num
    case Z =>
      rw [heard]
      exact h.next_Z whole st (.inl ⟨kind, num⟩)
    case B =>
      rw [heard]
      exact h.next_B whole st (.inl ⟨kind, num⟩)
    all_goals
      rw [heard]
      exact ⟨ph, h.small, h.snd, h.rcv, h.toR, h.toS.lose sub, h.data⟩
  | @nak p kind num =>
    have whole := head.eq
    have heard := hear_nak cs kind num
    cases st : σ.snd.STATE <;> rw [st] at heard
    case S =>
      exact ⟨_, h.nak_S whole st kind num⟩
    case F =>
      rw [heard]
      exact h.next_F whole st (.inr ⟨kind, num⟩)
    case D =>
      rw [heard]
      exact h.nak_D whole st kind num
    case Z =>
      rw [heard]
      exact h.next_Z whole st (.inr ⟨kind, num⟩)
    case B =>
      rw [heard]
      exact h.next_B whole st (.inr ⟨kind, num⟩)
    all_goals
      rw [heard]
      exact ⟨ph, h.small, h.snd, h.rcv, h.toR, h.toS.lose sub, h.data⟩

end RSX280.Kpkt
