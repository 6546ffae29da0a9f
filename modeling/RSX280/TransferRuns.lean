import Mathlib.Data.List.Forall2
import RSX280.Transfer
import RSX280.Runs

/-!
# What arrives (`kermit/kpkt.mac`)

In every run of a transfer the files of the receiver are the first of those that were sent, in order and each once. A file
that it has kept has the packets that acknowledgements asked for, and nothing else.
-/

namespace RSX280.Kpkt

/-- The packets of a file that acknowledgements asked for. -/
def Sent.acked (f : Sent) : List (List ℕ) := (f.pieces.filter Prod.fst).map Prod.snd

variable (cs : SendSet) (cr : RecvSet) (a b : Agreed)

/-- The quote characters of the sender, which had the parameters `a` when it started. -/
def quotes : Quotes := (settled cs.own cr.own a b).sends

/-- The quote characters of the receiver, which had the parameters `b`. -/
def looks : Quotes := (answered cs.own cr.own a b).takes cr.own

/-- The bytes the receiver gets from the packets. -/
def delivered (l : List (List ℕ)) : List ℕ :=
  l.flatMap fun out => PTCHR (looks cs cr a b) (Sender.wire cs.own (settled cs.own cr.own a b) out)

/-- The sender has read its file into the packets, all of it when it is at the end. -/
def Reading (f : Sent) (src : Source) : Prop :=
  cs.FMFLG = .binary → 0 < cs.BUFLEN → (quotes cs cr a b).Good → (∀ ch ∈ f.text, ch < 256) →
    f.text = (f.pieces.flatMap fun p => PTCHR (quotes cs cr a b) p.2) ++ src.bytes ∧ (f.eof = true → src.bytes = [])

/-- A received file is one that was sent. -/
structure Kept (r : Received) (f : Sent) : Prop where
  name : r.name = cr.nameOf f.name
  bytes : r.fate = .kept → f.eof = true ∧ r.bytes = delivered cs cr a b f.acked ∧
    (cs.FMFLG = .binary → 0 < cs.BUFLEN → (quotes cs cr a b).Good → (∀ ch ∈ f.text, ch < 256) →
      f.text = f.pieces.flatMap fun p => PTCHR (quotes cs cr a b) p.2)

/-! ### The invariant -/

/-- Where a transfer is: what the sender sends, and whether the receiver has it. In the last two cases the sender has taken
a request for the next packet for an acknowledgement, and both no longer understand each other. -/
inductive Ph
  | opening
  | agreed
  | naming
  | named
  | sending
  | sent
  | ending
  | ended
  | closing
  | closed
  | astrayF
  | astrayD

/-- The state of the receiver. -/
def Ph.stage : Ph → State
  | .opening => .R
  | .agreed | .naming | .ended | .closing | .astrayF => .F
  | .named | .sending | .sent | .ending | .astrayD => .D
  | .closed => .C

/-- The number before another. -/
def before (n : ℕ) : ℕ := (n + 63) % 64

/-- The number after another. -/
def next (n : ℕ) : ℕ := (n + 1) % 64

/-- The sender is in the state, or has given up there. -/
def SndAt (st : State) (m : ℕ) (s : Sender) : Prop := s.PKTNUM = m ∧ (s.STATE = st ∨ s.STATE = .A)

/-- The sender, when the receiver expects the number `n`. -/
def SndOk (n : ℕ) (s : Sender) : Ph → Prop
  | .opening => SndAt .S n s ∧ n = 0 ∧ s.NUMPKT = 0
  | .agreed => SndAt .S (before n) s ∧ n = 1 ∧ s.NUMPKT = 0
  | .naming => SndAt .F n s
  | .named => SndAt .F (before n) s
  | .sending => SndAt .D n s
  | .sent => SndAt .D (before n) s
  | .ending => SndAt .Z n s
  | .ended => SndAt .Z (before n) s
  | .closing => SndAt .B n s
  | .closed => SndAt .B n s ∨ s.STATE = .C
  | .astrayF => SndAt .F (before n) s ∨ SndAt .D n s ∨ SndAt .Z n s ∨
      s.PKTNUM = next n ∧ s.STATE ≠ .S ∧ s.STATE ≠ .C
  | .astrayD => SndAt .Z (before n) s ∨ SndAt .F n s ∨ SndAt .B n s ∨
      s.PKTNUM = next n ∧ s.STATE ≠ .S ∧ s.STATE ≠ .C

/-- The receiver expects the number `n`, or has given up. -/
def RcvOk (n : ℕ) (r : Receiver) (ph : Ph) : Prop :=
  r.STATE = ph.stage ∧ r.PKTNUM = n ∨ r.STATE = .A ∧ ph.stage ≠ .C

/-- A packet that the receiver has had. -/
def Old (st : State) (n : ℕ) (p : Pkt) : Prop :=
  p.num = before n ∧ if st = .F then p.kind = .S ∨ p.kind = .Z else p.kind = .F ∨ p.kind = .D ∨ p.kind = .Z

/-- The packet that the sender sends. -/
def Cur (n : ℕ) (s : Sender) (p : Pkt) : Ph → Prop
  | .opening => p = ⟨.S, n, RPAR cs.own a⟩
  | .naming => p = ⟨.F, n, (s.file.map Sent.name).getD []⟩
  | .sending => p = ⟨.D, n, Sender.wire cs.own (settled cs.own cr.own a b) s.FILBUF⟩
  | .ending => p.kind = .Z ∧ p.num = n ∧ (p.data ≠ ['D'.toNat] → ∀ f ∈ s.file, f.eof = true)
  | .closing => p.kind = .B ∧ p.num = n
  | _ => False

/-- An answer of the receiver when it expects the number `n`. -/
def Reply (n : ℕ) (p : Pkt) : Prop :=
  p.kind = .E ∨ p.kind = .Y ∧ p.num = before n ∨ p.kind = .N ∧ p.num = n

/-- The packets on the way to the receiver: those it has had come before those it has not. -/
def LineR (n : ℕ) (s : Sender) (l : List Pkt) (ph : Ph) : Prop :=
  match ph with
  | .opening | .naming | .sending | .ending | .closing =>
    ∃ olds curs, l = olds ++ curs ∧ (∀ p ∈ olds, Old ph.stage n p ∧ ph ≠ .opening) ∧
      ∀ p ∈ curs, Cur cs cr a b n s p ph
  | .agreed => ∀ p ∈ l, Old ph.stage n p ∧ p.kind = .S
  | .named | .sent | .ended => ∀ p ∈ l, Old ph.stage n p
  | .closed => True
  | .astrayF => ∀ p ∈ l, p.num = n → p.kind ≠ .F ∧ p.kind ≠ .B
  | .astrayD => ∀ p ∈ l, p.num = n → p.kind ≠ .D ∧ p.kind ≠ .Z

/-- The packets on the way to the sender: those about earlier packets come first. -/
def LineS (n : ℕ) (l : List Pkt) (ph : Ph) : Prop :=
  match ph with
  | .opening => ∀ p ∈ l, p.kind = .E ∨ p.kind = .N ∧ p.num = n
  | .naming | .sending | .ending | .closing | .astrayF | .astrayD => ∀ p ∈ l, Reply n p
  | .agreed => (∀ p ∈ l, p.kind = .Y → p.data = RPAR cr.own (answered cs.own cr.own a b)) ∧
      ∃ stale fresh, l = stale ++ fresh ∧ (∀ p ∈ stale, Reply (before n) p) ∧ ∀ p ∈ fresh, Reply n p
  | .named | .sent | .ended =>
    ∃ stale fresh, l = stale ++ fresh ∧ (∀ p ∈ stale, Reply (before n) p) ∧ ∀ p ∈ fresh, Reply n p
  | .closed => ∀ p ∈ l, Reply n p ∨ p.kind = .Y ∧ p.num = n

/-- The parameters of both sides are settled. -/
def Settled (s : Sender) (r : Receiver) : Prop :=
  s.par = settled cs.own cr.own a b ∧ r.par = answered cs.own cr.own a b

/-- Before that. -/
def Offers (s : Sender) (r : Receiver) (par : Agreed) : Prop := (∃ x, s.par = { a with INICHK := x }) ∧ r.par = par

/-- The receiver has the bytes of the packets `l` in its open file. -/
def Has (l : List (List ℕ)) (r : Receiver) : Prop :=
  r.STATE ≠ .A → ∃ g, r.file = some g ∧ g.fate = .opened ∧ (r.DSCFLG = false → g.bytes = delivered cs cr a b l)

/-- The files of both sides while the receiver has one open. -/
structure Open (s : Sender) (r : Receiver) (f : Sent) (l : List (List ℕ)) : Prop where
  par : Settled cs cr a b s r
  file : s.file = some f
  reading : Reading cs cr a b f s.src
  files : ∃ done g, r.files = done ++ [g] ∧ List.Forall₂ (Kept cs cr a b) done s.sent ∧
    g.name = cr.nameOf f.name ∧ g.fate ≠ .kept
  has : Has cs cr a b l r

/-- The files of both sides. -/
def Data (s : Sender) (r : Receiver) : Ph → Prop
  | .opening => Offers a s r b ∧ s.sent = [] ∧
      (∃ f, s.file = some f ∧ f.pieces = [] ∧ f.eof = false) ∧ r.files = []
  | .agreed => Offers a s r (answered cs.own cr.own a b) ∧ s.sent = [] ∧
      (∃ f, s.file = some f ∧ f.pieces = [] ∧ f.eof = false) ∧ r.files = []
  | .naming => Settled cs cr a b s r ∧ r.file = none ∧ List.Forall₂ (Kept cs cr a b) r.done s.sent ∧
      ∃ f, s.file = some f ∧ f.pieces = [] ∧ f.eof = false ∧ Reading cs cr a b f s.src
  | .named => ∃ f, Open cs cr a b s r f [] ∧ f.pieces = [] ∧ f.eof = false
  | .sending => ∃ f pre, Open cs cr a b s r f ((pre.filter Prod.fst).map Prod.snd) ∧
      f.pieces = pre ++ [(true, s.FILBUF)] ∧ f.eof = false
  | .sent => ∃ f, Open cs cr a b s r f f.acked ∧ f.eof = false
  | .ending => ∃ f, Open cs cr a b s r f f.acked ∧ (s.CZSEEN = 0 → f.eof = true)
  | .ended => Settled cs cr a b s r ∧ r.file = none ∧ ∃ f, s.file = some f ∧
      List.Forall₂ (Kept cs cr a b) r.done (s.sent ++ [f])
  | .closing | .closed => Settled cs cr a b s r ∧ r.file = none ∧ s.file = none ∧
      List.Forall₂ (Kept cs cr a b) r.done s.sent
  | .astrayF => ∃ l, l <+: s.sent ∧ List.Forall₂ (Kept cs cr a b) r.files l
  | .astrayD => ∃ l, l <+: s.sent ++ s.file.toList ∧ List.Forall₂ (Kept cs cr a b) r.files l

/-- The invariant of a transfer. -/
structure Inv (σ : Sys) (ph : Ph) (n : ℕ) : Prop where
  small : n < 64
  snd : SndOk n σ.snd ph
  rcv : RcvOk n σ.rcv ph
  toR : LineR cs cr a b n σ.snd σ.toR ph
  toS : LineS cs cr a b n σ.toS ph
  data : Data cs cr a b σ.snd σ.rcv ph

variable {cs : SendSet} {cr : RecvSet} {a b : Agreed} {σ : Sys} {ph : Ph} {n : ℕ}

theorem before_lt (n : ℕ) : before n < 64 := Nat.mod_lt _ (by decide)

theorem next_lt (n : ℕ) : next n < 64 := Nat.mod_lt _ (by decide)

theorem next_before (small : n < 64) : next (before n) = n := by
  simp only [next, before]
  omega

theorem before_next (small : n < 64) : before (next n) = n := by
  simp only [next, before]
  omega

/-- Four numbers in a row are different. -/
theorem numbers_ne (n : ℕ) : before n ≠ n ∧ next n ≠ n ∧ before n ≠ next n ∧ before (before n) ≠ before n ∧
    before (before n) ≠ n ∧ next (next n) ≠ before n ∧ next (next n) ≠ n ∧ next (next n) ≠ next n := by
  simp only [next, before]
  omega

/-! ### The line loses packets -/

/-- What is left of two lists one after the other. -/
theorem split_sublist {l l₁ l₂ : List Pkt} (h : l.Sublist (l₁ ++ l₂)) {P Q : Pkt → Prop} (h₁ : ∀ p ∈ l₁, P p)
    (h₂ : ∀ p ∈ l₂, Q p) : ∃ m₁ m₂, l = m₁ ++ m₂ ∧ (∀ p ∈ m₁, P p) ∧ ∀ p ∈ m₂, Q p := by
  obtain ⟨m₁, m₂, rfl, s₁, s₂⟩ := List.sublist_append_iff.1 h
  exact ⟨m₁, m₂, rfl, fun p mem => h₁ p (s₁.subset mem), fun p mem => h₂ p (s₂.subset mem)⟩

theorem LineR.lose {s : Sender} {l m : List Pkt} (h : LineR cs cr a b n s m ph) (sub : l.Sublist m) :
    LineR cs cr a b n s l ph := by
  cases ph
  case opening | naming | sending | ending | closing =>
    obtain ⟨olds, curs, split, old, cur⟩ := h
    exact split_sublist (split ▸ sub) old cur
  case closed => trivial
  all_goals exact fun p mem => h p (sub.subset mem)

theorem LineS.lose {l m : List Pkt} (h : LineS cs cr a b n m ph) (sub : l.Sublist m) : LineS cs cr a b n l ph := by
  cases ph
  case agreed =>
    obtain ⟨params, stale, fresh, split, old, new⟩ := h
    exact ⟨fun p mem => params p (sub.subset mem), split_sublist (split ▸ sub) old new⟩
  case named | sent | ended =>
    obtain ⟨stale, fresh, split, old, new⟩ := h
    exact split_sublist (split ▸ sub) old new
  all_goals exact fun p mem => h p (sub.subset mem)

theorem Inv.loseR (h : Inv cs cr a b σ ph n) {l : List Pkt} (sub : l.Sublist σ.toR) :
    Inv cs cr a b { σ with toR := l } ph n :=
  ⟨h.small, h.snd, h.rcv, h.toR.lose sub, h.toS, h.data⟩

theorem Inv.loseS (h : Inv cs cr a b σ ph n) {l : List Pkt} (sub : l.Sublist σ.toS) :
    Inv cs cr a b { σ with toS := l } ph n :=
  ⟨h.small, h.snd, h.rcv, h.toR, h.toS.lose sub, h.data⟩

/-! ### The keys -/

theorem Inv.keyS (h : Inv cs cr a b σ ph n) {key : ℕ} (hit : key ≠ 0) :
    Inv cs cr a b { σ with snd := { σ.snd with CZSEEN := key } } ph n := by
  refine ⟨h.small, ?_, h.rcv, ?_, h.toS, ?_⟩
  · have := h.snd
    cases ph <;> exact this
  · have := h.toR
    cases ph <;> exact this
  · have data := h.data
    cases ph
    case named =>
      obtain ⟨f, o, rest⟩ := data
      exact ⟨f, ⟨o.par, o.file, o.reading, o.files, o.has⟩, rest⟩
    case sending =>
      obtain ⟨f, pre, o, rest⟩ := data
      exact ⟨f, pre, ⟨o.par, o.file, o.reading, o.files, o.has⟩, rest⟩
    case sent =>
      obtain ⟨f, o, rest⟩ := data
      exact ⟨f, ⟨o.par, o.file, o.reading, o.files, o.has⟩, rest⟩
    case ending =>
      obtain ⟨f, o, -⟩ := data
      exact ⟨f, ⟨o.par, o.file, o.reading, o.files, o.has⟩, fun none => absurd none hit⟩
    all_goals exact data

theorem Inv.keyR (h : Inv cs cr a b σ ph n) (key : ℕ) :
    Inv cs cr a b { σ with rcv := { σ.rcv with CZSEEN := key } } ph n := by
  refine ⟨h.small, h.snd, h.rcv, h.toR, h.toS, ?_⟩
  have data := h.data
  cases ph
  case named | sent | ending =>
    obtain ⟨f, o, rest⟩ := data
    exact ⟨f, ⟨o.par, o.file, o.reading, o.files, o.has⟩, rest⟩
  case sending =>
    obtain ⟨f, pre, o, rest⟩ := data
    exact ⟨f, pre, ⟨o.par, o.file, o.reading, o.files, o.has⟩, rest⟩
  all_goals exact data

/-! ### The sender sends -/

/-- What `SEND2` does up to where it waits. -/
inductive Sends (cs : SendSet) (s : Sender) : Sender → Option Pkt → Prop
  | idle : Sends cs s s none
  | quit (at_ : s.STATE ≠ .C) : Sends cs s s.abort none
  | init (at_ : s.STATE = .S) : Sends cs s
      { s with NUMTRY := s.NUMTRY + 1, CURCHK := '1'.toNat, par := { s.par with INICHK := cs.own.CHKTYP } }
      (some ⟨.S, s.NUMPKT % 256, RPAR cs.own s.par⟩)
  | file (at_ : s.STATE = .F) : Sends cs s { s with NUMTRY := s.NUMTRY + 1, CZSEEN := 0 }
      (some ⟨.F, s.PKTNUM, (s.file.map Sent.name).getD []⟩)
  | data (at_ : s.STATE = .D) : Sends cs s { s with NUMTRY := s.NUMTRY + 1 }
      (some ⟨.D, s.PKTNUM, Sender.wire cs.own s.par s.FILBUF⟩)
  | eof (at_ : s.STATE = .Z) : Sends cs s { s with NUMTRY := s.NUMTRY + 1 }
      (some ⟨.Z, s.PKTNUM, if s.CZSEEN = 0 then [] else ['D'.toNat]⟩)
  | eot (at_ : s.STATE = .B) : Sends cs s { s with NUMTRY := s.NUMTRY + 1 } (some ⟨.B, s.PKTNUM, []⟩)

theorem sends (cs : SendSet) (s : Sender) : Sends cs s (s.send cs).1 (s.send cs).2 := by
  cases st : s.STATE <;> simp only [Sender.send, st]
  case S =>
    simp only [Sender.SINIT, Sender.attempt]
    split
    · exact .quit (by rw [st]; decide)
    · exact .init st
  case F =>
    simp only [Sender.SFILE, Sender.attempt]
    split
    · exact .quit (by rw [st]; decide)
    · exact .file st
  case D =>
    simp only [Sender.SDATA, Sender.attempt]
    split
    · exact .quit (by rw [st]; decide)
    · exact .data st
  case Z =>
    simp only [Sender.SEOF, Sender.attempt]
    split
    · exact .quit (by rw [st]; decide)
    · exact .eof st
  case B =>
    simp only [Sender.SEOT, Sender.attempt]
    split
    · exact .quit (by rw [st]; decide)
    · exact .eot st
  all_goals exact .idle

/-- The parts of the sender that say what it sends. -/
structure Sender.Same (s s' : Sender) : Prop where
  par : s'.par = s.par
  file : s'.file = s.file
  src : s'.src = s.src
  sent : s'.sent = s.sent
  FILBUF : s'.FILBUF = s.FILBUF

theorem Data.same {s s' : Sender} {r : Receiver} (h : Data cs cr a b s r ph) (eq : s.Same s')
    (key : ph = .ending → s'.CZSEEN = 0 → s.CZSEEN = 0) : Data cs cr a b s' r ph := by
  obtain ⟨par, file, src, sent, FILBUF⟩ := eq
  have op : ∀ {f l}, Open cs cr a b s r f l → Open cs cr a b s' r f l := by
    intro f l o
    exact ⟨⟨par.trans o.par.1, o.par.2⟩, file.trans o.file, src ▸ o.reading, sent ▸ o.files, o.has⟩
  cases ph
  case named =>
    obtain ⟨f, o, rest⟩ := h
    exact ⟨f, op o, rest⟩
  case sending =>
    obtain ⟨f, pre, o, rest⟩ := h
    exact ⟨f, pre, op o, FILBUF ▸ rest⟩
  case sent =>
    obtain ⟨f, o, rest⟩ := h
    exact ⟨f, op o, rest⟩
  case ending =>
    obtain ⟨f, o, rest⟩ := h
    exact ⟨f, op o, fun none => rest (key rfl none)⟩
  all_goals simp only [Data, Settled, Offers, par, file, src, sent] at h ⊢
  all_goals exact h

theorem LineR.same {s s' : Sender} {l : List Pkt} (h : LineR cs cr a b n s l ph) (file : s'.file = s.file)
    (FILBUF : s'.FILBUF = s.FILBUF) : LineR cs cr a b n s' l ph := by
  cases ph <;> simp only [LineR, Cur, file, FILBUF] at h ⊢ <;> exact h

theorem SndOk.same {s s' : Sender} (h : SndOk n s ph) (STATE : s'.STATE = s.STATE) (PKTNUM : s'.PKTNUM = s.PKTNUM)
    (NUMPKT : s'.NUMPKT = s.NUMPKT) : SndOk n s' ph := by
  cases ph <;> simpa only [SndOk, SndAt, STATE, PKTNUM, NUMPKT] using h

theorem SndOk.abort {s : Sender} (h : SndOk n s ph) (more : s.STATE ≠ .C) : SndOk n s.abort ph := by
  have at_ : ∀ {st m}, SndAt st m s → SndAt st m s.abort := fun h => ⟨h.1, .inr rfl⟩
  cases ph
  case closed => exact .inl (at_ (h.resolve_right more))
  case astrayF | astrayD =>
    obtain h | h | h | h := h
    · exact .inl (at_ h)
    · exact .inr (.inl (at_ h))
    · exact .inr (.inr (.inl (at_ h)))
    · exact .inr (.inr (.inr ⟨h.1, State.noConfusion, State.noConfusion⟩))
  case opening | agreed => exact ⟨at_ h.1, h.2⟩
  all_goals exact at_ h

theorem Inv.quitS (h : Inv cs cr a b σ ph n) (more : σ.snd.STATE ≠ .C) :
    Inv cs cr a b { σ with snd := σ.snd.abort } ph n :=
  ⟨h.small, h.snd.abort more, h.rcv, h.toR.same rfl rfl, h.toS, h.data.same ⟨rfl, rfl, rfl, rfl, rfl⟩ fun _ => id⟩

section At

variable {s : Sender} (h : SndOk n s ph)
include h

theorem snd_S (st : s.STATE = .S) : ph = .opening ∧ s.PKTNUM = n ∨ ph = .agreed ∧ s.PKTNUM = before n := by
  cases ph <;> simp_all [SndOk, SndAt]

theorem snd_F (st : s.STATE = .F) : ph = .naming ∧ s.PKTNUM = n ∨ ph = .named ∧ s.PKTNUM = before n ∨
    ph = .astrayF ∧ (s.PKTNUM = before n ∨ s.PKTNUM = next n) ∨ ph = .astrayD ∧ (s.PKTNUM = n ∨ s.PKTNUM = next n) := by
  cases ph <;> simp_all [SndOk, SndAt]

theorem snd_D (st : s.STATE = .D) : ph = .sending ∧ s.PKTNUM = n ∨ ph = .sent ∧ s.PKTNUM = before n ∨
    ph = .astrayF ∧ (s.PKTNUM = n ∨ s.PKTNUM = next n) ∨ ph = .astrayD ∧ s.PKTNUM = next n := by
  cases ph <;> simp_all [SndOk, SndAt]

theorem snd_Z (st : s.STATE = .Z) : ph = .ending ∧ s.PKTNUM = n ∨ ph = .ended ∧ s.PKTNUM = before n ∨
    ph = .astrayF ∧ (s.PKTNUM = n ∨ s.PKTNUM = next n) ∨
    ph = .astrayD ∧ (s.PKTNUM = before n ∨ s.PKTNUM = next n) := by
  cases ph <;> simp_all [SndOk, SndAt]

theorem snd_B (st : s.STATE = .B) : ph = .closing ∧ s.PKTNUM = n ∨ ph = .closed ∧ s.PKTNUM = n ∨
    ph = .astrayF ∧ s.PKTNUM = next n ∨ ph = .astrayD ∧ (s.PKTNUM = n ∨ s.PKTNUM = next n) := by
  cases ph <;> simp_all [SndOk, SndAt]

end At

/-- One more of the packets that the receiver has not had. -/
theorem LineR.push {s : Sender} {l : List Pkt} (h : LineR cs cr a b n s l ph) {p : Pkt}
    (sync : ph = .opening ∨ ph = .naming ∨ ph = .sending ∨ ph = .ending ∨ ph = .closing)
    (cur : Cur cs cr a b n s p ph) : LineR cs cr a b n s (l ++ [p]) ph := by
  have push : (∃ olds curs, l = olds ++ curs ∧ (∀ p ∈ olds, Old ph.stage n p ∧ ph ≠ .opening) ∧
      ∀ p ∈ curs, Cur cs cr a b n s p ph) → ∃ olds curs, l ++ [p] = olds ++ curs ∧
      (∀ p ∈ olds, Old ph.stage n p ∧ ph ≠ .opening) ∧ ∀ p ∈ curs, Cur cs cr a b n s p ph := by
    rintro ⟨olds, curs, rfl, old, new⟩
    refine ⟨olds, curs ++ [p], by rw [List.append_assoc], old, ?_⟩
    intro p' mem
    obtain mem | mem := List.mem_append.1 mem
    · exact new p' mem
    · rw [List.mem_singleton.1 mem]
      exact cur
  obtain rfl | rfl | rfl | rfl | rfl := sync <;> exact push h

/-- One more of the packets that it has had, or cannot take. -/
theorem LineR.push_old {s : Sender} {l : List Pkt} (h : LineR cs cr a b n s l ph) {p : Pkt}
    (old : match ph with
      | .agreed => Old ph.stage n p ∧ p.kind = .S
      | .named | .sent | .ended => Old ph.stage n p
      | .closed => True
      | .astrayF => p.num = n → p.kind ≠ .F ∧ p.kind ≠ .B
      | .astrayD => p.num = n → p.kind ≠ .D ∧ p.kind ≠ .Z
      | _ => False) : LineR cs cr a b n s (l ++ [p]) ph := by
  have push : ∀ {P : Pkt → Prop}, (∀ p ∈ l, P p) → P p → ∀ p' ∈ l ++ [p], P p' := by
    intro P all one p' mem
    obtain mem | mem := List.mem_append.1 mem
    · exact all p' mem
    · rw [List.mem_singleton.1 mem]
      exact one
  cases ph
  case agreed | named | sent | ended | astrayF | astrayD => exact push h old
  case closed => trivial
  all_goals exact old.elim

theorem Inv.send (h : Inv cs cr a b σ ph n) : Inv cs cr a b { σ with
    snd := (σ.snd.send cs).1, waiting := (σ.snd.send cs).2.isSome, toR := σ.toR ++ (σ.snd.send cs).2.toList } ph n := by
  have step := sends cs σ.snd
  have ne := numbers_ne n
  generalize (σ.snd.send cs).1 = s', (σ.snd.send cs).2 = p at step
  cases step with
  | idle =>
    rw [Option.toList_none, List.append_nil]
    exact ⟨h.small, h.snd, h.rcv, h.toR, h.toS, h.data⟩
  | quit more =>
    have q := h.quitS more
    rw [Option.toList_none, List.append_nil]
    exact ⟨q.small, q.snd, q.rcv, q.toR, q.toS, q.data⟩
  | init at_ =>
    have offer : ∀ {x : Agreed}, (∃ i, x = { a with INICHK := i }) → RPAR cs.own x = RPAR cs.own a := by
      rintro x ⟨i, rfl⟩
      rfl
    refine ⟨h.small, h.snd.same rfl rfl rfl, h.rcv, ?_, h.toS, ?_⟩
    · obtain ⟨rfl, -⟩ | ⟨rfl, num⟩ := snd_S h.snd at_
      · refine (h.toR.same rfl rfl).push (.inl rfl) ?_
        have zero := h.snd.2
        rw [zero.2, offer h.data.1.1, zero.1]
        rfl
      · refine (h.toR.same rfl rfl).push_old ⟨⟨?_, .inl rfl⟩, rfl⟩
        have one := h.snd.2
        rw [one.2, one.1]
        rfl
    · obtain ⟨rfl, -⟩ | ⟨rfl, -⟩ := snd_S h.snd at_
      · obtain ⟨⟨⟨i, par⟩, other⟩, rest⟩ := h.data
        exact ⟨⟨⟨cs.own.CHKTYP, by rw [par]⟩, other⟩, rest⟩
      · obtain ⟨⟨⟨i, par⟩, other⟩, rest⟩ := h.data
        exact ⟨⟨⟨cs.own.CHKTYP, by rw [par]⟩, other⟩, rest⟩
  | file at_ =>
    refine ⟨h.small, h.snd.same rfl rfl rfl, h.rcv, ?_, h.toS, h.data.same ⟨rfl, rfl, rfl, rfl, rfl⟩ ?_⟩
    · obtain ⟨rfl, num⟩ | ⟨rfl, num⟩ | ⟨rfl, num⟩ | ⟨rfl, num⟩ := snd_F h.snd at_
      · exact (h.toR.same rfl rfl).push (by simp) (by rw [num]; rfl)
      · exact (h.toR.same rfl rfl).push_old ⟨num, .inl rfl⟩
      · refine (h.toR.same rfl rfl).push_old ?_
        grind
      · exact (h.toR.same rfl rfl).push_old fun _ => ⟨Kind.noConfusion, Kind.noConfusion⟩
    · rintro rfl
      have := h.snd
      simp [SndOk, SndAt, at_] at this
  | data at_ =>
    refine ⟨h.small, h.snd.same rfl rfl rfl, h.rcv, ?_, h.toS, h.data.same ⟨rfl, rfl, rfl, rfl, rfl⟩ fun _ => id⟩
    obtain ⟨rfl, num⟩ | ⟨rfl, num⟩ | ⟨rfl, num⟩ | ⟨rfl, num⟩ := snd_D h.snd at_
    · refine (h.toR.same rfl rfl).push (by simp) ?_
      obtain ⟨f, pre, o, -⟩ := h.data
      rw [num, o.par.1]
      rfl
    · exact (h.toR.same rfl rfl).push_old ⟨num, .inr (.inl rfl)⟩
    · exact (h.toR.same rfl rfl).push_old fun _ => ⟨Kind.noConfusion, Kind.noConfusion⟩
    · refine (h.toR.same rfl rfl).push_old ?_
      grind
  | eof at_ =>
    refine ⟨h.small, h.snd.same rfl rfl rfl, h.rcv, ?_, h.toS, h.data.same ⟨rfl, rfl, rfl, rfl, rfl⟩ fun _ => id⟩
    obtain ⟨rfl, num⟩ | ⟨rfl, num⟩ | ⟨rfl, num⟩ | ⟨rfl, num⟩ := snd_Z h.snd at_
    · refine (h.toR.same rfl rfl).push (by simp) ⟨rfl, num, ?_⟩
      obtain ⟨f, o, key⟩ := h.data
      intro none f' mem
      have whole : f.eof = true := by
        apply key
        by_contra some
        exact none (if_neg some)
      have same : some f = some f' := o.file.symm.trans mem
      cases same
      exact whole
    · exact (h.toR.same rfl rfl).push_old ⟨num, .inr rfl⟩
    · exact (h.toR.same rfl rfl).push_old fun _ => ⟨Kind.noConfusion, Kind.noConfusion⟩
    · refine (h.toR.same rfl rfl).push_old ?_
      grind
  | eot at_ =>
    refine ⟨h.small, h.snd.same rfl rfl rfl, h.rcv, ?_, h.toS, h.data.same ⟨rfl, rfl, rfl, rfl, rfl⟩ fun _ => id⟩
    obtain ⟨rfl, num⟩ | ⟨rfl, num⟩ | ⟨rfl, num⟩ | ⟨rfl, num⟩ := snd_B h.snd at_
    · exact (h.toR.same rfl rfl).push (by simp) ⟨rfl, num⟩
    · trivial
    · refine (h.toR.same rfl rfl).push_old ?_
      grind
    · exact (h.toR.same rfl rfl).push_old fun _ => ⟨Kind.noConfusion, Kind.noConfusion⟩

end RSX280.Kpkt
