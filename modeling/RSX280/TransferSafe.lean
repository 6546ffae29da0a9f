import RSX280.TransferTurns

/-!
# The invariant of a transfer (`kermit/kpkt.mac`)

Whatever the line loses and whenever either side times out or gives up, the receiver is where the sender thinks it is, or
both have gone astray for good. In either case its files are the first of the sender's.
-/

namespace RSX280.Kpkt

variable {cs : SendSet} {cr : RecvSet} {a b : Agreed} {σ : Sys} {ph : Ph} {n : ℕ}

/-! ### Turns that take nothing -/

theorem LineS.push {l m : List Pkt} (h : LineS cs cr a b n l ph) (more : ∀ q ∈ m, Reply n q)
    (first : ph = .opening → ∀ q ∈ m, q.kind ≠ .Y)
    (params : ph = .agreed → ∀ q ∈ m, q.kind = .Y → q.data = RPAR cr.own (answered cs.own cr.own a b)) :
    LineS cs cr a b n (l ++ m) ph := by
  have both : ∀ {P : Pkt → Prop}, (∀ q ∈ l, P q) → (∀ q ∈ m, P q) → ∀ q ∈ l ++ m, P q := by
    intro P one two q mem
    obtain mem | mem := List.mem_append.1 mem
    · exact one q mem
    · exact two q mem
  have parts : (∃ stale fresh, l = stale ++ fresh ∧ (∀ p ∈ stale, Reply (before n) p) ∧ ∀ p ∈ fresh, Reply n p) →
      ∃ stale fresh, l ++ m = stale ++ fresh ∧ (∀ p ∈ stale, Reply (before n) p) ∧ ∀ p ∈ fresh, Reply n p := by
    rintro ⟨stale, fresh, rfl, old, new⟩
    refine ⟨stale, fresh ++ m, by rw [List.append_assoc], old, ?_⟩
    intro q mem
    obtain mem | mem := List.mem_append.1 mem
    · exact new q mem
    · exact more q mem
  cases ph
  case opening =>
    refine both h fun q mem => ?_
    obtain e | ⟨e, -⟩ | e := more q mem
    · exact .inl e
    · exact absurd e (first rfl q mem)
    · exact .inr e
  case agreed => exact ⟨both h.1 (params rfl), parts h.2⟩
  case named | sent | ended => exact parts h
  case closed => exact both h fun q mem => .inl (more q mem)
  all_goals exact both h more

theorem Receiver.Same.files {r r' : Receiver} (same : r.Same r') : r'.files = r.files := by
  rw [Receiver.files, same.done, same.file, Receiver.files]

theorem Open.stay {s : Sender} {r r' : Receiver} {f : Sent} {l : List (List ℕ)} (o : Open cs cr a b s r f l)
    (same : r.Same r') (up : r'.STATE ≠ .A → r.STATE ≠ .A) : Open cs cr a b s r' f l := by
  refine ⟨⟨o.par.1, same.par.trans o.par.2⟩, o.file, o.reading, ?_, ?_⟩
  · rw [same.files]
    exact o.files
  · intro st
    rw [same.file, same.DSCFLG]
    exact o.has (up st)

theorem Data.stay {s : Sender} {r r' : Receiver} (h : Data cs cr a b s r ph) (same : r.Same r')
    (up : r'.STATE ≠ .A → r.STATE ≠ .A) : Data cs cr a b s r' ph := by
  have files := same.files
  cases ph
  case named | sent | ending =>
    obtain ⟨f, o, rest⟩ := h
    exact ⟨f, o.stay same up, rest⟩
  case sending =>
    obtain ⟨f, pre, o, rest⟩ := h
    exact ⟨f, pre, o.stay same up, rest⟩
  all_goals simp only [Data, Settled, Offers, files, same.par, same.done, same.file] at h ⊢
  all_goals exact h

/-- The receiver has not had the packet that it expects. -/
theorem Inv.stay (h : Inv cs cr a b σ ph n) {r' : Receiver} (same : σ.rcv.Same r')
    (at_ : r'.STATE = σ.rcv.STATE ∧ r'.PKTNUM = σ.rcv.PKTNUM ∨ r'.STATE = .A ∧ ph.stage ≠ .C) {toR m : List Pkt}
    (sub : toR.Sublist σ.toR) (more : ∀ q ∈ m, Reply n q) (first : ph = .opening → ∀ q ∈ m, q.kind ≠ .Y)
    (params : ph = .agreed → ∀ q ∈ m, q.kind = .Y → q.data = RPAR cr.own (answered cs.own cr.own a b)) :
    Inv cs cr a b { σ with rcv := r', toR, toS := σ.toS ++ m } ph n := by
  refine ⟨h.small, h.snd, ?_, h.toR.lose sub, h.toS.push more first params, h.data.stay same ?_⟩
  · obtain ⟨STATE, PKTNUM⟩ | gone := at_
    · have rcv := h.rcv
      simp only [RcvOk, ← STATE, ← PKTNUM] at rcv
      exact rcv
    · exact .inr gone
  · intro up
    obtain ⟨STATE, -⟩ | ⟨gone, -⟩ := at_
    · rwa [← STATE]
    · exact absurd gone up

/-! ### Where the receiver is -/

section Places

variable {r : Receiver} (h : RcvOk n r ph)
include h

theorem rcv_up (up : r.STATE ≠ .A) : r.STATE = ph.stage ∧ r.PKTNUM = n := h.resolve_right fun gone => up gone.1

theorem rcv_R (st : r.STATE = .R) : ph = .opening := by
  have at_ := (rcv_up h (by simp [st])).1
  rw [st] at at_
  cases ph <;> simp [Ph.stage] at at_ ⊢

theorem rcv_F (st : r.STATE = .F) : ph = .agreed ∨ ph = .naming ∨ ph = .ended ∨ ph = .closing ∨ ph = .astrayF := by
  have at_ := (rcv_up h (by simp [st])).1
  rw [st] at at_
  cases ph <;> simp [Ph.stage] at at_ ⊢

theorem rcv_D (st : r.STATE = .D) : ph = .named ∨ ph = .sending ∨ ph = .sent ∨ ph = .ending ∨ ph = .astrayD := by
  have at_ := (rcv_up h (by simp [st])).1
  rw [st] at at_
  cases ph <;> simp [Ph.stage] at at_ ⊢

end Places

/-! ### The packet that the receiver expects -/

section Expected

variable {s : Sender} {p : Pkt} {l : List Pkt} (h : LineR cs cr a b n s (p :: l) ph)
include h

/-- When it comes, all that follow are the same packet. -/
theorem head_cur (sync : ph = .opening ∨ ph = .naming ∨ ph = .sending ∨ ph = .ending ∨ ph = .closing) (num : p.num = n) :
    ∀ q ∈ p :: l, Cur cs cr a b n s q ph := by
  have split : ∃ olds curs, p :: l = olds ++ curs ∧ (∀ p ∈ olds, Old ph.stage n p ∧ ph ≠ .opening) ∧
      ∀ p ∈ curs, Cur cs cr a b n s p ph := by
    obtain rfl | rfl | rfl | rfl | rfl := sync <;> exact h
  obtain ⟨olds, curs, eq, old, cur⟩ := split
  cases olds with
  | nil =>
    rw [List.nil_append] at eq
    exact eq ▸ cur
  | cons o olds =>
    cases eq
    exact absurd ((old p List.mem_cons_self).1.1.symm.trans num) (numbers_ne n).1

theorem expected_F (at_ : ph = .agreed ∨ ph = .naming ∨ ph = .ended ∨ ph = .closing ∨ ph = .astrayF) (num : p.num = n)
    (kind : p.kind = .F ∨ p.kind = .B) :
    p.kind = .F ∧ ph = .naming ∨ p.kind = .B ∧ ph = .closing := by
  obtain rfl | rfl | rfl | rfl | rfl := at_
  · exact absurd ((h p List.mem_cons_self).1.1.symm.trans num) (numbers_ne n).1
  · rw [show p = _ from head_cur h (by simp) num p List.mem_cons_self]
    exact .inl ⟨rfl, rfl⟩
  · exact absurd ((h p List.mem_cons_self).1.symm.trans num) (numbers_ne n).1
  · exact .inr ⟨(head_cur h (by simp) num p List.mem_cons_self).1, rfl⟩
  · obtain ⟨ne, ne'⟩ := h p List.mem_cons_self num
    obtain kind | kind := kind
    · exact absurd kind ne
    · exact absurd kind ne'

theorem expected_D (at_ : ph = .named ∨ ph = .sending ∨ ph = .sent ∨ ph = .ending ∨ ph = .astrayD) (num : p.num = n)
    (kind : p.kind = .D ∨ p.kind = .Z) :
    p.kind = .D ∧ ph = .sending ∨ p.kind = .Z ∧ ph = .ending := by
  obtain rfl | rfl | rfl | rfl | rfl := at_
  · exact absurd ((h p List.mem_cons_self).1.symm.trans num) (numbers_ne n).1
  · rw [show p = _ from head_cur h (by simp) num p List.mem_cons_self]
    exact .inl ⟨rfl, rfl⟩
  · exact absurd ((h p List.mem_cons_self).1.symm.trans num) (numbers_ne n).1
  · exact .inr ⟨(head_cur h (by simp) num p List.mem_cons_self).1, rfl⟩
  · obtain ⟨ne, ne'⟩ := h p List.mem_cons_self num
    obtain kind | kind := kind
    · exact absurd kind ne
    · exact absurd kind ne'

end Expected

/-- An acknowledgement of the packet just taken, with what may follow it. -/
theorem push_fresh (small : n < 64) {toS m : List Pkt} {data : List ℕ} (old : ∀ q ∈ toS, Reply n q)
    (errors : ∀ q ∈ m, q.kind = .E) : ∃ stale fresh, toS ++ (⟨.Y, n, data⟩ :: m) = stale ++ fresh ∧
      (∀ q ∈ stale, Reply (before (next n)) q) ∧ ∀ q ∈ fresh, Reply (next n) q := by
  refine ⟨toS, ⟨.Y, n, data⟩ :: m, rfl, ?_, ?_⟩
  · rw [before_next small]
    exact old
  · intro q mem
    obtain rfl | mem := List.mem_cons.1 mem
    · exact .inr (.inl ⟨rfl, (before_next small).symm⟩)
    · exact .inl (errors q mem)

/-! ### Turns that take the packet -/

/-- The file that is open, while the receiver has not given up. -/
theorem Open.last {s : Sender} {r : Receiver} {f : Sent} {l : List (List ℕ)} (o : Open cs cr a b s r f l)
    (up : r.STATE ≠ .A) : ∃ g, r.file = some g ∧ g.name = cr.nameOf f.name ∧ g.fate = .opened ∧
      (r.DSCFLG = false → g.bytes = delivered cs cr a b l) ∧ List.Forall₂ (Kept cs cr a b) r.done s.sent := by
  obtain ⟨done, g, files, all, name, -⟩ := o.files
  obtain ⟨g', file, opened, bytes⟩ := o.has up
  rw [Receiver.files, file, Option.toList_some] at files
  obtain ⟨rfl, eq⟩ := List.append_inj' files rfl
  cases eq
  exact ⟨g, file, name, opened, bytes, all⟩

/-- The receiver gives up while a file is open. -/
theorem Open.lost {s : Sender} {r r' : Receiver} {f : Sent} {l l' : List (List ℕ)} {fate : Fate}
    (o : Open cs cr a b s r f l) (up : r.STATE ≠ .A) (fin : r.Finished r' fate) (gone : fate ≠ .kept)
    (STATE : r'.STATE = .A) : Open cs cr a b s r' f l' := by
  obtain ⟨g, file, name, -, -, all⟩ := o.last up
  refine ⟨⟨o.par.1, fin.par.trans o.par.2⟩, o.file, o.reading, ⟨r.done, { g with fate }, ?_, all, name, gone⟩,
    fun up => absurd STATE up⟩
  rw [Receiver.files, fin.done, fin.file, file]
  exact List.append_nil _

/-- The last of several may be replaced. -/
theorem forall₂_last {P : Received → Sent → Prop} {g g' : Received} (keep : ∀ f, P g f → P g' f) :
    ∀ {done : List Received} {l : List Sent}, List.Forall₂ P (done ++ [g]) l → List.Forall₂ P (done ++ [g']) l
  | [], _, .cons last .nil => .cons (keep _ last) .nil
  | _ :: _, _, .cons first rest => .cons first (forall₂_last keep rest)

theorem forall₂_lost {r r' : Receiver} {l : List Sent} {fate : Fate} (all : List.Forall₂ (Kept cs cr a b) r.files l)
    (fin : r.Finished r' fate) (gone : fate ≠ .kept) : List.Forall₂ (Kept cs cr a b) r'.files l := by
  rw [Receiver.files, fin.done, fin.file, Option.toList_none, List.append_nil]
  cases file : r.file with
  | none =>
    rw [Receiver.files, file] at all
    exact all
  | some g =>
    rw [Receiver.files, file, Option.toList_some] at all
    exact forall₂_last (fun f kept => ⟨kept.name, fun eq => absurd eq gone⟩) all

theorem Inv.lost (h : Inv cs cr a b σ ph n) (at_ : σ.rcv.STATE = .D) {r' : Receiver} {fate : Fate}
    (fin : σ.rcv.Finished r' fate) (gone : fate ≠ .kept) (STATE : r'.STATE = .A) {toR m : List Pkt}
    (sub : toR.Sublist σ.toR) (errors : ∀ q ∈ m, q.kind = .E) :
    Inv cs cr a b { σ with rcv := r', toR, toS := σ.toS ++ m } ph n := by
  have up : σ.rcv.STATE ≠ .A := by simp [at_]
  have silent : ∀ q ∈ m, q.kind ≠ .Y := by
    intro q mem
    rw [errors q mem]
    exact Kind.noConfusion
  refine ⟨h.small, h.snd, .inr ⟨STATE, ?_⟩, h.toR.lose sub, h.toS.push (fun q mem => .inl (errors q mem))
    (fun _ => silent) (fun _ q mem e => absurd e (silent q mem)), ?_⟩
  · obtain rfl | rfl | rfl | rfl | rfl := rcv_D h.rcv at_ <;> exact State.noConfusion
  · have data := h.data
    obtain rfl | rfl | rfl | rfl | rfl := rcv_D h.rcv at_
    · obtain ⟨f, o, rest⟩ := data
      exact ⟨f, o.lost up fin gone STATE, rest⟩
    · obtain ⟨f, pre, o, rest⟩ := data
      exact ⟨f, pre, o.lost up fin gone STATE, rest⟩
    · obtain ⟨f, o, rest⟩ := data
      exact ⟨f, o.lost up fin gone STATE, rest⟩
    · obtain ⟨f, o, rest⟩ := data
      exact ⟨f, o.lost up fin gone STATE, rest⟩
    · obtain ⟨l, pre, all⟩ := data
      exact ⟨l, pre, forall₂_lost all fin gone⟩

section Takes

variable {p : Pkt} {l : List Pkt} {r' : Receiver} (h : Inv cs cr a b σ ph n) (whole : σ.toR = p :: l)
include h whole

/-- `RINIT` takes the parameters. -/
theorem Inv.agree (at_ : σ.rcv.STATE = .R) (STATE : r'.STATE = .F) (PKTNUM : r'.PKTNUM = next p.num)
    (par : r'.par = SPAR cr.own p.data σ.rcv.par) (files : r'.files = σ.rcv.files) :
    Inv cs cr a b { σ with
      rcv := r', toR := l, toS := σ.toS ++ [⟨.Y, p.num, RPAR cr.own (SPAR cr.own p.data σ.rcv.par)⟩] } .agreed 1 := by
  obtain rfl := rcv_R h.rcv at_
  obtain ⟨snd, rfl, NUMPKT⟩ := h.snd
  have cur : ∀ q ∈ p :: l, q = ⟨.S, 0, RPAR cs.own a⟩ := by
    obtain ⟨olds, curs, eq, old, cur⟩ := h.toR
    intro q mem
    rw [← whole, eq] at mem
    obtain mem | mem := List.mem_append.1 mem
    · exact absurd rfl (old q mem).2
    · exact cur q mem
  have line : ∀ q ∈ σ.toS, q.kind = .E ∨ q.kind = .N ∧ q.num = 0 := h.toS
  obtain ⟨⟨offer, rfl⟩, sent, file, none_got⟩ := h.data
  have eq := cur p List.mem_cons_self
  have num : p.num = 0 := by rw [eq]
  have learned : SPAR cr.own p.data σ.rcv.par = answered cs.own cr.own a σ.rcv.par := by
    rw [eq]
    rfl
  rw [num, learned]
  rw [num] at PKTNUM
  rw [learned] at par
  refine ⟨by decide, ⟨snd, rfl, NUMPKT⟩, .inl ⟨STATE, PKTNUM⟩, ?_, ⟨?_, σ.toS, _, rfl, ?_, ?_⟩, ⟨offer, par⟩, sent, file,
    files.trans none_got⟩
  · intro q mem
    rw [cur q (List.mem_cons_of_mem _ mem)]
    exact ⟨⟨rfl, .inl rfl⟩, rfl⟩
  · intro q mem kind
    obtain mem | mem := List.mem_append.1 mem
    · obtain e | ⟨e, -⟩ := line q mem
      · exact absurd (e.symm.trans kind) Kind.noConfusion
      · exact absurd (e.symm.trans kind) Kind.noConfusion
    · rw [List.mem_singleton.1 mem]
  · intro q mem
    obtain e | e := line q mem
    · exact .inl e
    · exact .inr (.inr e)
  · intro q mem
    rw [List.mem_singleton.1 mem]
    exact .inr (.inl ⟨rfl, rfl⟩)

/-- `RFILE3` opens a file. -/
theorem Inv.name (at_ : σ.rcv.STATE = .F) (kind : p.kind = .F) (num : p.num = σ.rcv.PKTNUM) (STATE : r'.STATE = .D)
    (PKTNUM : r'.PKTNUM = next σ.rcv.PKTNUM) (par : r'.par = σ.rcv.par) (done : r'.done = σ.rcv.done)
    (file : r'.file = some ⟨cr.nameOf p.data, [], .opened⟩) :
    Inv cs cr a b { σ with rcv := r', toR := l, toS := σ.toS ++ [⟨.Y, p.num, []⟩] } .named (next n) := by
  have here : σ.rcv.PKTNUM = n := (rcv_up h.rcv (by simp [at_])).2
  have num : p.num = n := num.trans here
  have toR := h.toR
  rw [whole] at toR
  obtain ⟨-, rfl⟩ | ⟨kind', -⟩ := expected_F toR (rcv_F h.rcv at_) num (.inl kind)
  · obtain ⟨settled, -, all, f, file', pieces, more, reading⟩ := h.data
    have cur := head_cur toR (by simp) num
    have sent : p = ⟨.F, n, (σ.snd.file.map Sent.name).getD []⟩ := cur p List.mem_cons_self
    have name : p.data = f.name := by
      rw [sent, file']
      rfl
    rw [num]
    rw [here] at PKTNUM
    refine ⟨next_lt n, ?_, .inl ⟨STATE, PKTNUM⟩, ?_, push_fresh h.small h.toS (by simp), f,
      ⟨⟨settled.1, par.trans settled.2⟩, file', reading,
        ⟨σ.rcv.done, ⟨cr.nameOf p.data, [], .opened⟩, ?_, all, ?_, Fate.noConfusion⟩, ?_⟩, pieces, more⟩
    · show SndAt .F (before (next n)) σ.snd
      rw [before_next h.small]
      exact h.snd
    · intro q mem
      rw [show q = _ from cur q (List.mem_cons_of_mem _ mem)]
      exact ⟨(before_next h.small).symm, .inl rfl⟩
    · rw [Receiver.files, done, file]
      rfl
    · exact congrArg cr.nameOf name
    · exact fun _ => ⟨_, file, rfl, fun _ => rfl⟩
  · exact absurd (kind.symm.trans kind') Kind.noConfusion

/-- `RFILE` ends the transfer. -/
theorem Inv.close (at_ : σ.rcv.STATE = .F) (kind : p.kind = .B) (num : p.num = σ.rcv.PKTNUM) (same : σ.rcv.Same r')
    (STATE : r'.STATE = .C) (PKTNUM : r'.PKTNUM = σ.rcv.PKTNUM) :
    Inv cs cr a b { σ with rcv := r', toR := l, toS := σ.toS ++ [⟨.Y, p.num, []⟩] } .closed n := by
  have here : σ.rcv.PKTNUM = n := (rcv_up h.rcv (by simp [at_])).2
  have num : p.num = n := num.trans here
  have toR := h.toR
  rw [whole] at toR
  obtain ⟨kind', -⟩ | ⟨-, rfl⟩ := expected_F toR (rcv_F h.rcv at_) num (.inr kind)
  · exact absurd (kind.symm.trans kind') Kind.noConfusion
  · obtain ⟨settled, none_open, none_left, all⟩ := h.data
    have line : ∀ q ∈ σ.toS, Reply n q := h.toS
    refine ⟨h.small, .inl h.snd, .inl ⟨STATE, PKTNUM.trans here⟩, trivial, ?_, ⟨settled.1, same.par.trans settled.2⟩,
      same.file.trans none_open, none_left, same.done ▸ all⟩
    intro q mem
    obtain mem | mem := List.mem_append.1 mem
    · exact .inl (line q mem)
    · rw [List.mem_singleton.1 mem]
      exact .inr ⟨rfl, num⟩

/-- `RDATA` takes the bytes of a packet. -/
theorem Inv.data_ (at_ : σ.rcv.STATE = .D) (kind : p.kind = .D) (num : p.num = σ.rcv.PKTNUM) (STATE : r'.STATE = .D)
    (PKTNUM : r'.PKTNUM = next σ.rcv.PKTNUM) (par : r'.par = σ.rcv.par) (done : r'.done = σ.rcv.done)
    (DSCFLG : r'.DSCFLG = σ.rcv.DSCFLG) (file : r'.file = if σ.rcv.DSCFLG then σ.rcv.file else
      σ.rcv.file.map fun f => { f with bytes := f.bytes ++ PTCHR (σ.rcv.par.takes cr.own) p.data }) (x : List ℕ) :
    Inv cs cr a b { σ with rcv := r', toR := l, toS := σ.toS ++ [⟨.Y, p.num, x⟩] } .sent (next n) := by
  have up : σ.rcv.STATE ≠ .A := by simp [at_]
  have here : σ.rcv.PKTNUM = n := (rcv_up h.rcv up).2
  have num : p.num = n := num.trans here
  have toR := h.toR
  rw [whole] at toR
  obtain ⟨-, rfl⟩ | ⟨kind', -⟩ := expected_D toR (rcv_D h.rcv at_) num (.inl kind)
  · obtain ⟨f, pre, o, pieces, more⟩ := h.data
    have cur := head_cur toR (by simp) num
    have sent : p = ⟨.D, n, Sender.wire cs.own (settled cs.own cr.own a b) σ.snd.FILBUF⟩ := cur p List.mem_cons_self
    have acked : f.acked = (pre.filter Prod.fst).map Prod.snd ++ [σ.snd.FILBUF] := by
      rw [Sent.acked, pieces]
      simp
    obtain ⟨g, file', name, opened, bytes, all⟩ := o.last up
    rw [num]
    rw [here] at PKTNUM
    have got : ∃ g', r'.file = some g' ∧ g'.name = g.name ∧ g'.fate = .opened ∧
        (r'.DSCFLG = false → g'.bytes = delivered cs cr a b f.acked) := by
      cases reject : σ.rcv.DSCFLG with
      | true =>
        rw [reject, if_pos rfl] at file
        exact ⟨g, file.trans file', rfl, opened, fun accept => absurd (accept.symm.trans (DSCFLG.trans reject)) (by decide)⟩
      | false =>
        rw [reject, if_neg (by decide), file'] at file
        refine ⟨_, file, rfl, opened, fun _ => ?_⟩
        show g.bytes ++ _ = _
        rw [bytes reject, acked, delivered, delivered, List.flatMap_append, o.par.2, sent]
        simp [looks]
    obtain ⟨g', file'', name', opened', bytes'⟩ := got
    refine ⟨next_lt n, ?_, .inl ⟨STATE, PKTNUM⟩, ?_, push_fresh h.small h.toS (by simp), f,
      ⟨⟨o.par.1, par.trans o.par.2⟩, o.file, o.reading, ⟨σ.rcv.done, g', ?_, all, name'.trans name, ?_⟩,
        fun _ => ⟨g', file'', opened', bytes'⟩⟩, more⟩
    · show SndAt .D (before (next n)) σ.snd
      rw [before_next h.small]
      exact h.snd
    · intro q mem
      rw [show q = _ from cur q (List.mem_cons_of_mem _ mem)]
      exact ⟨(before_next h.small).symm, .inr (.inl rfl)⟩
    · rw [Receiver.files, done, file'']
      rfl
    · rw [opened']
      exact Fate.noConfusion
  · exact absurd (kind.symm.trans kind') Kind.noConfusion

/-- `RDATA3` closes the file. -/
theorem Inv.eof {m : List Pkt} {fate : Fate} (at_ : σ.rcv.STATE = .D) (kind : p.kind = .Z) (num : p.num = σ.rcv.PKTNUM)
    (fin : σ.rcv.Finished r' fate) (kept : fate = .kept → p.data ≠ ['D'.toNat] ∧ σ.rcv.DSCFLG = false)
    (STATE : r'.STATE = .F ∧ r'.PKTNUM = next σ.rcv.PKTNUM ∨ r'.STATE = .A) (errors : ∀ q ∈ m, q.kind = .E) :
    Inv cs cr a b { σ with rcv := r', toR := l, toS := σ.toS ++ (⟨.Y, p.num, []⟩ :: m) } .ended (next n) := by
  have up : σ.rcv.STATE ≠ .A := by simp [at_]
  have here : σ.rcv.PKTNUM = n := (rcv_up h.rcv up).2
  have num : p.num = n := num.trans here
  have toR := h.toR
  rw [whole] at toR
  obtain ⟨kind', -⟩ | ⟨-, rfl⟩ := expected_D toR (rcv_D h.rcv at_) num (.inr kind)
  · exact absurd (kind.symm.trans kind') Kind.noConfusion
  · obtain ⟨f, o, -⟩ := h.data
    have cur := head_cur toR (by simp) num
    obtain ⟨g, file, name, -, bytes, all⟩ := o.last up
    rw [num]
    rw [here] at STATE
    refine ⟨next_lt n, ?_, ?_, ?_, push_fresh h.small h.toS errors, ⟨o.par.1, fin.par.trans o.par.2⟩, fin.file, f, o.file, ?_⟩
    · show SndAt .Z (before (next n)) σ.snd
      rw [before_next h.small]
      exact h.snd
    · obtain up | gone := STATE
      · exact .inl up
      · exact .inr ⟨gone, State.noConfusion⟩
    · intro q mem
      obtain ⟨kind, num, -⟩ := cur q (List.mem_cons_of_mem _ mem)
      exact ⟨num.trans (before_next h.small).symm, .inr kind⟩
    · rw [fin.done, file]
      refine List.rel_append all (.cons ⟨name, fun eq => ?_⟩ .nil)
      obtain ⟨asked, accept⟩ := kept eq
      have eof : f.eof = true := (cur p List.mem_cons_self).2.2 asked f o.file
      refine ⟨eof, bytes accept, fun mode buffer good small => ?_⟩
      obtain ⟨text, ends⟩ := o.reading mode buffer good small
      rw [ends eof, List.append_nil] at text
      exact text

end Takes

theorem Inv.turn (h : Inv cs cr a b σ ph n) (d : Disk) {got : Option Pkt} {toR : List Pkt} (head : Got σ.toR got toR) :
    ∃ ph' n', Inv cs cr a b { σ with
      rcv := (σ.rcv.turn cr d got).1, toR, toS := σ.toS ++ (σ.rcv.turn cr d got).2 } ph' n' := by
  have sub := head.sublist
  have step := turns cr d σ.rcv got
  generalize (σ.rcv.turn cr d got).1 = r', (σ.rcv.turn cr d got).2 = m at step
  cases step with
  | idle => exact ⟨ph, n, h.stay ⟨rfl, rfl, rfl, rfl⟩ (.inl ⟨rfl, rfl⟩) sub (by simp) (by simp) (by simp)⟩
  | nak _ up same STATE PKTNUM =>
    refine ⟨ph, n, h.stay same (.inl ⟨STATE, PKTNUM⟩) sub ?_ (by simp) (by simp)⟩
    simp only [List.mem_singleton, forall_eq]
    exact .inr (.inr ⟨rfl, (rcv_up h.rcv up).2⟩)
  | @again p _ data at_ params same STATE PKTNUM =>
    have up : σ.rcv.STATE ≠ .A := by
      obtain at_ | at_ := at_ <;> simp [at_]
    refine ⟨ph, n, h.stay same (.inl ⟨STATE, PKTNUM⟩) sub ?_ ?_ ?_⟩
    · simp only [List.mem_singleton, forall_eq]
      exact .inr (.inl ⟨rfl, congrArg before (rcv_up h.rcv up).2⟩)
    · rintro rfl
      have := (rcv_up h.rcv up).1
      obtain at_ | at_ := at_ <;> rw [at_] at this <;> cases this
    · rintro rfl
      have first := (h.toR p (by rw [head.eq]; exact List.mem_cons_self)).2
      simp only [List.mem_singleton, forall_eq]
      intro _
      rw [params first, h.data.1.2]
  | quit _ at_ same STATE =>
    refine ⟨ph, n, h.stay same (.inr ⟨STATE, ?_⟩) sub (by simp) (by simp) (by simp)⟩
    rw [← (rcv_up h.rcv (by obtain at_ | at_ := at_ <;> simp [at_])).1]
    obtain at_ | at_ := at_ <;> simp [at_]
  | lost _ at_ fin gone STATE errors => exact ⟨ph, n, h.lost at_ fin gone STATE sub errors⟩
  | agree at_ _ STATE PKTNUM par files => exact ⟨_, _, h.agree head.eq at_ STATE PKTNUM par files⟩
  | name at_ kind num STATE PKTNUM par done file =>
    exact ⟨_, _, h.name head.eq at_ kind num STATE PKTNUM par done file⟩
  | close at_ kind num same STATE PKTNUM => exact ⟨_, _, h.close head.eq at_ kind num same STATE PKTNUM⟩
  | data at_ kind num STATE PKTNUM par done DSCFLG file =>
    exact ⟨_, _, h.data_ head.eq at_ kind num STATE PKTNUM par done DSCFLG file _⟩
  | eof at_ kind num fin kept STATE errors => exact ⟨_, _, h.eof head.eq at_ kind num fin kept STATE errors⟩

/-! ### Whole transfers -/

variable {τ : Sys}

theorem Start.inv (h : Start σ) : Inv cs cr σ.snd.par σ.rcv.par σ .opening 0 := by
  obtain ⟨name, text, file⟩ := h.file
  refine ⟨by decide, ⟨⟨h.snd.2.1, .inl h.snd.1⟩, rfl, h.snd.2.2.1⟩, .inl ⟨h.rcv.1, h.rcv.2.1⟩, ⟨[], [], h.line.2.1, ?_⟩, ?_,
    ⟨⟨_, rfl⟩, rfl⟩, h.sent, ⟨_, file, rfl, rfl⟩, ?_⟩
  · simp
  · rw [h.line.2.2]
    simp [LineS]
  · rw [Receiver.files, h.files.1, h.files.2]
    rfl

theorem Inv.step (h : Inv cs cr a b σ ph n) (step : Step cs cr σ τ) : ∃ ph' n', Inv cs cr a b τ ph' n' := by
  cases step with
  | send => exact ⟨_, _, h.send⟩
  | hear _ head =>
    obtain ⟨ph', h'⟩ := h.hear head
    exact ⟨ph', n, h'⟩
  | turn d head => exact h.turn d head
  | loseR sub => exact ⟨_, _, h.loseR sub⟩
  | loseS sub => exact ⟨_, _, h.loseS sub⟩
  | keyS key hit => exact ⟨_, _, h.keyS (by obtain rfl | rfl := hit <;> decide)⟩
  | keyR key => exact ⟨_, _, h.keyR key⟩

theorem Inv.of_reach (start : Start σ) (run : Reach (Step cs cr) σ τ) :
    ∃ ph n, Inv cs cr σ.snd.par σ.rcv.par τ ph n :=
  Reach.invariant (P := fun τ => ∃ ph n, Inv cs cr σ.snd.par σ.rcv.par τ ph n) run ⟨_, _, start.inv⟩
    fun _ _ h step => h.choose_spec.choose_spec.step step

theorem Data.files {s : Sender} {r : Receiver} (h : Data cs cr a b s r ph) :
    ∃ l, l <+: s.sent ++ s.file.toList ∧ List.Forall₂ (Kept cs cr a b) r.files l := by
  have opened : ∀ {f l}, Open cs cr a b s r f l →
      ∃ l, l <+: s.sent ++ s.file.toList ∧ List.Forall₂ (Kept cs cr a b) r.files l := by
    intro f l o
    refine ⟨s.sent ++ [f], ?_, o.forall₂⟩
    rw [o.file]
    exact List.prefix_rfl
  have closed : r.file = none → List.Forall₂ (Kept cs cr a b) r.done s.sent →
      ∃ l, l <+: s.sent ++ s.file.toList ∧ List.Forall₂ (Kept cs cr a b) r.files l := by
    intro none_open all
    refine ⟨s.sent, List.prefix_append _ _, ?_⟩
    rw [Receiver.files, none_open, Option.toList_none, List.append_nil]
    exact all
  cases ph
  case opening | agreed =>
    refine ⟨[], List.nil_prefix, ?_⟩
    rw [h.2.2.2]
    exact .nil
  case naming => exact closed h.2.1 h.2.2.1
  case named | sent | ending => exact opened h.choose_spec.1
  case sending => exact opened h.choose_spec.choose_spec.1
  case ended =>
    obtain ⟨-, none_open, f, file, all⟩ := h
    refine ⟨s.sent ++ [f], ?_, ?_⟩
    · rw [file]
      exact List.prefix_rfl
    · rw [Receiver.files, none_open, Option.toList_none, List.append_nil]
      exact all
  case closing | closed => exact closed h.2.1 h.2.2.2
  case astrayF => exact ⟨h.choose, h.choose_spec.1.trans (List.prefix_append _ _), h.choose_spec.2⟩
  case astrayD => exact h

/-- What the sender was given: what it has sent, what it is sending, and what is left. -/
def Sender.given (s : Sender) : List (List ℕ × List ℕ) :=
  (s.sent ++ s.file.toList).map (fun f => (f.name, f.text)) ++ s.todo

theorem given_send (s : Sender) : (s.send cs).1.given = s.given := by
  have step := sends cs s
  generalize (s.send cs).1 = s', (s.send cs).2 = p at step
  cases step <;> rfl

theorem given_fill (s : Sender) (acked : Bool) : (s.fill cs acked).given = s.given := by
  obtain ⟨out, src, -, eq⟩ | ⟨-, eq⟩ := fill_cases cs s acked
  · rw [eq]
    cases file : s.file <;> simp [Sender.given, file]
  · rw [eq]
    cases file : s.file <;> simp [Sender.given, file]

theorem given_SEOF12 (s : Sender) (p : Pkt) : (s.SEOF12 p).given = s.given := by
  simp only [Sender.SEOF12]
  split
  · simp [Sender.given, Sender.COUNTP]
  · split
    · rename_i none_left
      have none_left : s.todo = [] := none_left
      simp [Sender.given, Sender.COUNTP, none_left]
    · rename_i name text todo next
      have next : s.todo = (name, text) :: todo := next
      simp [Sender.given, Sender.GETFIL, next]

theorem given_hear (s : Sender) (got : Option Pkt) : (s.hear cs got).given = s.given := by
  have step := hears cs s got
  generalize eq : s.hear cs got = s' at step
  cases step with
  | same => rfl
  | quit => rfl
  | @ack p kind num =>
    rw [hear_ack cs kind num]
    cases s.STATE
    case F => exact given_fill _ _
    case D =>
      simp only [Sender.SDATA_acked]
      split
      · rfl
      · split
        · rfl
        · exact given_fill _ _
    case Z => exact given_SEOF12 s p
    all_goals rfl
  | @nak p kind num =>
    rw [hear_nak cs kind num]
    cases s.STATE
    case F => exact given_fill _ _
    case D => exact given_fill _ _
    case Z => exact given_SEOF12 s p
    all_goals rfl

theorem given_step (step : Step cs cr σ τ) : τ.snd.given = σ.snd.given := by
  cases step with
  | send => exact given_send _
  | hear => exact given_hear _ _
  | _ => rfl

theorem given_of_reach (run : Reach (Step cs cr) σ τ) : τ.snd.given = σ.snd.given :=
  Reach.invariant (P := fun τ => τ.snd.given = σ.snd.given) run rfl fun _ _ eq step => (given_step step).trans eq

theorem Inv.closed (h : Inv cs cr a b σ ph n) (complete : σ.snd.STATE = .C) : ph = .closed := by
  have snd := h.snd
  cases ph <;> simp_all [SndOk, SndAt]

end RSX280.Kpkt
