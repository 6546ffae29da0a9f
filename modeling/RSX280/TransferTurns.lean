import RSX280.Memory
import RSX280.TransferHears

/-!
# The turns of the receiver (`kermit/kpkt.mac`)

The receiver takes a packet that has the number it expects, and acknowledges the packet before once more. Everything else
it refuses.
-/

namespace RSX280.Kpkt

variable {cs : SendSet} {cr : RecvSet} {a b : Agreed} {σ : Sys} {ph : Ph} {n : ℕ}

/-- The files of the receiver, and how it takes the bytes of the open one. -/
structure Receiver.Same (r r' : Receiver) : Prop where
  par : r'.par = r.par
  done : r'.done = r.done
  file : r'.file = r.file
  DSCFLG : r'.DSCFLG = r.DSCFLG

/-- The open file is finished. -/
structure Receiver.Finished (r r' : Receiver) (fate : Fate) : Prop where
  par : r'.par = r.par
  done : r'.done = r.done ++ (r.file.map fun f => { f with fate }).toList
  file : r'.file = none

/-- What `READ2` does in a turn. -/
inductive Turns (cr : RecvSet) (r : Receiver) : Option Pkt → Receiver → List Pkt → Prop
  | idle (got : Option Pkt) : Turns cr r got r []
  | nak {r' : Receiver} (got : Option Pkt) (at_ : r.STATE ≠ .A) (same : r.Same r') (STATE : r'.STATE = r.STATE)
      (PKTNUM : r'.PKTNUM = r.PKTNUM) : Turns cr r got r' [⟨.N, r.PKTNUM, []⟩]
  | again {p : Pkt} {r' : Receiver} {data : List ℕ} (at_ : r.STATE = .F ∨ r.STATE = .D)
      (params : p.kind = .S → data = RPAR cr.own r.par) (same : r.Same r') (STATE : r'.STATE = r.STATE)
      (PKTNUM : r'.PKTNUM = r.PKTNUM) : Turns cr r (some p) r' [⟨.Y, before r.PKTNUM, data⟩]
  | quit {r' : Receiver} (got : Option Pkt) (at_ : r.STATE = .R ∨ r.STATE = .F) (same : r.Same r')
      (STATE : r'.STATE = .A) : Turns cr r got r' []
  | lost {r' : Receiver} {l : List Pkt} {fate : Fate} (got : Option Pkt) (at_ : r.STATE = .D) (fin : r.Finished r' fate)
      (gone : fate ≠ .kept) (STATE : r'.STATE = .A) (errors : ∀ q ∈ l, q.kind = .E) : Turns cr r got r' l
  | agree {p : Pkt} {r' : Receiver} (at_ : r.STATE = .R) (kind : p.kind = .S) (STATE : r'.STATE = .F)
      (PKTNUM : r'.PKTNUM = next p.num) (par : r'.par = SPAR cr.own p.data r.par) (files : r'.files = r.files) :
      Turns cr r (some p) r' [⟨.Y, p.num, RPAR cr.own (SPAR cr.own p.data r.par)⟩]
  | name {p : Pkt} {r' : Receiver} (at_ : r.STATE = .F) (kind : p.kind = .F) (num : p.num = r.PKTNUM)
      (STATE : r'.STATE = .D) (PKTNUM : r'.PKTNUM = next r.PKTNUM) (par : r'.par = r.par) (done : r'.done = r.done)
      (file : r'.file = some ⟨cr.nameOf p.data, [], .opened⟩) : Turns cr r (some p) r' [⟨.Y, p.num, []⟩]
  | close {p : Pkt} {r' : Receiver} (at_ : r.STATE = .F) (kind : p.kind = .B) (num : p.num = r.PKTNUM)
      (same : r.Same r') (STATE : r'.STATE = .C) (PKTNUM : r'.PKTNUM = r.PKTNUM) : Turns cr r (some p) r' [⟨.Y, p.num, []⟩]
  | data {p : Pkt} {r' : Receiver} {x : List ℕ} (at_ : r.STATE = .D) (kind : p.kind = .D) (num : p.num = r.PKTNUM)
      (STATE : r'.STATE = .D) (PKTNUM : r'.PKTNUM = next r.PKTNUM) (par : r'.par = r.par) (done : r'.done = r.done)
      (DSCFLG : r'.DSCFLG = r.DSCFLG) (file : r'.file = if r.DSCFLG then r.file else
        r.file.map fun f => { f with bytes := f.bytes ++ PTCHR (r.par.takes cr.own) p.data }) :
      Turns cr r (some p) r' [⟨.Y, p.num, x⟩]
  | eof {p : Pkt} {r' : Receiver} {l : List Pkt} {fate : Fate} (at_ : r.STATE = .D) (kind : p.kind = .Z)
      (num : p.num = r.PKTNUM) (fin : r.Finished r' fate) (whole : fate = .kept → p.data ≠ ['D'.toNat] ∧ r.DSCFLG = false)
      (STATE : r'.STATE = .F ∧ r'.PKTNUM = next r.PKTNUM ∨ r'.STATE = .A) (errors : ∀ q ∈ l, q.kind = .E) :
      Turns cr r (some p) r' (⟨.Y, p.num, []⟩ :: l)

section Turn

variable (cr) (d : Disk) (r : Receiver) {r₀ : Receiver}

theorem turns_RINIT (st : r.STATE = .R) (got : Option Pkt) :
    Turns cr r got (r.RINIT cr got).1 (r.RINIT cr got).2 := by
  have ne : r.STATE ≠ .A := by simp [st]
  simp only [Receiver.RINIT]
  split
  · exact .quit got (.inl st) ⟨rfl, rfl, rfl, rfl⟩ rfl
  · cases got with
    | none => exact .nak none ne ⟨rfl, rfl, rfl, rfl⟩ rfl rfl
    | some p =>
      cases kind : p.kind <;> simp only [kind]
      case S => exact .agree st kind rfl rfl rfl rfl
      case E => exact .quit _ (.inl st) ⟨rfl, rfl, rfl, rfl⟩ rfl
      all_goals exact .nak _ ne ⟨rfl, rfl, rfl, rfl⟩ rfl rfl

/-- `r₀` is the receiver in the middle of a turn, with the number of the packet in `ARGBLK`. -/
structure Receiver.Took (r r₀ : Receiver) (p : Pkt) : Prop where
  same : r.Same r₀
  STATE : r₀.STATE = r.STATE
  PKTNUM : r₀.PKTNUM = r.PKTNUM
  ARGBLK : r₀.ARGBLK = p.num

variable {r} {p : Pkt}

theorem turns_TRYAGN (took : r.Took r₀ p) (at_ : r.STATE = .F ∨ r.STATE = .D) (kind : p.kind ≠ .S) :
    Turns cr r (some p) r₀.TRYAGN.1 r₀.TRYAGN.2 := by
  obtain ⟨⟨par, done, file, DSCFLG⟩, STATE, PKTNUM, -⟩ := took
  have ne : r.STATE ≠ .A := by
    obtain at_ | at_ := at_ <;> simp [at_]
  simp only [Receiver.TRYAGN]
  split
  · rename_i old
    simp only [Receiver.ACKP, old, PKTNUM]
    exact .again at_ (absurd · kind) ⟨par, done, file, DSCFLG⟩ STATE rfl
  · simp only [Receiver.NAK, PKTNUM]
    exact .nak _ ne ⟨par, done, file, DSCFLG⟩ STATE rfl

theorem turns_RFIL12 (took : r.Took r₀ p) (at_ : r.STATE = .F) : Turns cr r (some p) (r₀.RFIL12 cr).1 (r₀.RFIL12 cr).2 := by
  obtain ⟨⟨par, done, file, DSCFLG⟩, STATE, PKTNUM, -⟩ := took
  simp only [Receiver.RFIL12]
  split
  · rename_i old
    simp only [old, PKTNUM, par]
    exact .again (.inl at_) (fun _ => rfl) ⟨rfl, done, file, DSCFLG⟩ STATE rfl
  · simp only [Receiver.NAK, PKTNUM]
    exact .nak _ (by simp [at_]) ⟨par, done, file, DSCFLG⟩ STATE rfl

theorem turns_RFILE3 (took : r.Took r₀ p) (at_ : r.STATE = .F) (kind : p.kind = .F) :
    Turns cr r (some p) (r₀.RFILE3 cr p d).1 (r₀.RFILE3 cr p d).2 := by
  obtain ⟨⟨par, done, file, DSCFLG⟩, STATE, PKTNUM, ARGBLK⟩ := took
  simp only [Receiver.RFILE3]
  split
  · rename_i expected
    have expected : r₀.ARGBLK = r₀.PKTNUM := of_decide_eq_true expected
    have num : p.num = r.PKTNUM := by rw [← ARGBLK, expected, PKTNUM]
    have count : next r₀.ARGBLK = next r.PKTNUM := by rw [ARGBLK, num]
    split
    · exact .quit _ (.inr at_) ⟨par, done, file, DSCFLG⟩ rfl
    · simp only [Receiver.RFIL3A, Receiver.ACKP, Receiver.COUNTP, ARGBLK]
      exact .name at_ kind num rfl (ARGBLK ▸ count) par done rfl
    · simp only [Receiver.RFIL3A, Receiver.ACKP, Receiver.COUNTP, ARGBLK]
      exact .name at_ kind num rfl (ARGBLK ▸ count) par done rfl
  · simp only [Receiver.NAK, PKTNUM]
    exact .nak _ (by simp [at_]) ⟨par, done, file, DSCFLG⟩ STATE rfl

theorem turns_RFILE (st : r.STATE = .F) (got : Option Pkt) :
    Turns cr r got (r.RFILE cr d got).1 (r.RFILE cr d got).2 := by
  have ne : r.STATE ≠ .A := by simp [st]
  simp only [Receiver.RFILE]
  split
  · exact .quit got (.inr st) ⟨rfl, rfl, rfl, rfl⟩ rfl
  · cases got with
    | none => exact .nak none ne ⟨rfl, rfl, rfl, rfl⟩ rfl rfl
    | some p =>
      have took : r.Took { r with NUMTRY := r.NUMTRY + 1, ARGBLK := p.num } p := ⟨⟨rfl, rfl, rfl, rfl⟩, rfl, rfl, rfl⟩
      cases kind : p.kind <;> simp only [kind]
      case S =>
        split
        · exact .quit _ (.inr st) ⟨rfl, rfl, rfl, rfl⟩ rfl
        · exact turns_RFIL12 cr took st
      case Z =>
        split
        · exact .quit _ (.inr st) ⟨rfl, rfl, rfl, rfl⟩ rfl
        · exact turns_TRYAGN cr took (.inl st) (by simp [kind])
      case F => exact turns_RFILE3 cr d took st kind
      case B =>
        split
        · rename_i expected
          exact .close st kind (of_decide_eq_true expected) ⟨rfl, rfl, rfl, rfl⟩ rfl rfl
        · exact .nak _ ne ⟨rfl, rfl, rfl, rfl⟩ rfl rfl
      all_goals exact .quit _ (.inr st) ⟨rfl, rfl, rfl, rfl⟩ rfl

theorem Receiver.Same.finished {r' : Receiver} (same : r.Same r₀) (fate : Fate) (par : r'.par = r₀.par)
    (done : r'.done = (r₀.finish fate).done) (file : r'.file = none) : r.Finished r' fate :=
  ⟨par.trans same.par, by rw [done, Receiver.finish, same.done, same.file], file⟩

theorem finished_RDAT37 {r₀ : Receiver} (same : r.Same r₀) : (∃ fate, r.Finished (r₀.RDAT37 cr).1 fate ∧ fate ≠ .kept) ∧
    (r₀.RDAT37 cr).1.STATE = .A ∧ ∀ q ∈ (r₀.RDAT37 cr).2, q.kind = .E := by
  refine ⟨⟨if cr.INCFLG then .damaged else .deleted, same.finished _ rfl rfl rfl, ?_⟩, rfl, ?_⟩
  · split <;> decide
  · simp [Receiver.RDAT37]

theorem turns_RDAT16 {r₀ : Receiver} (same : r.Same r₀) (at_ : r.STATE = .D) (got : Option Pkt) :
    Turns cr r got (r₀.RDAT16 cr d).1 (r₀.RDAT16 cr d).2 := by
  obtain ⟨⟨fate, fin, gone⟩, STATE, errors⟩ := finished_RDAT37 cr same
  simp only [Receiver.RDAT16]
  split
  · split
    · exact .lost got at_ fin gone STATE errors
    · exact .lost got at_ (same.finished .incomplete rfl rfl rfl) Fate.noConfusion rfl (by simp)
  · exact .lost got at_ (same.finished .deleted rfl rfl rfl) Fate.noConfusion rfl (by simp)

theorem turns_RDAT14 (took : r.Took r₀ p) (at_ : r.STATE = .D) (kind : p.kind = .D) (num : p.num = r.PKTNUM) :
    Turns cr r (some p) (r₀.RDAT14 cr p d).1 (r₀.RDAT14 cr p d).2 := by
  obtain ⟨⟨par, done, file, DSCFLG⟩, STATE, PKTNUM, ARGBLK⟩ := took
  have count : next r₀.ARGBLK = next r.PKTNUM := by rw [ARGBLK, num]
  simp only [Receiver.RDAT14]
  split
  · rename_i reject
    have reject : r₀.DSCFLG = true := reject
    simp only [Receiver.COUNTP, ARGBLK]
    exact .data at_ kind num (STATE.trans at_) (ARGBLK ▸ count) par done DSCFLG
      (by rw [if_pos (DSCFLG.symm.trans reject)]; exact file)
  · rename_i accept
    have accept : ¬ r.DSCFLG = true := by
      rw [← DSCFLG]
      exact accept
    split
    · obtain ⟨⟨fate, fin, gone⟩, STATE', errors⟩ :=
        @finished_RDAT37 cr r { r₀.COUNTP with OLDTRY := r₀.COUNTP.NUMTRY } ⟨par, done, file, DSCFLG⟩
      exact .lost _ at_ fin gone STATE' errors
    · simp only [Receiver.COUNTP, ARGBLK]
      refine .data at_ kind num (STATE.trans at_) (ARGBLK ▸ count) par done DSCFLG ?_
      simp only [if_neg accept, file, par]

theorem turns_RDATA3 (took : r.Took r₀ p) (at_ : r.STATE = .D) (kind : p.kind = .Z) :
    Turns cr r (some p) (r₀.RDATA3 cr p d).1 (r₀.RDATA3 cr p d).2 := by
  obtain ⟨same, STATE, PKTNUM, ARGBLK⟩ := took
  simp only [Receiver.RDATA3]
  split
  · rename_i expected
    have expected : r₀.ARGBLK = r₀.PKTNUM := of_decide_eq_true expected
    have num : p.num = r.PKTNUM := by rw [← ARGBLK, expected, PKTNUM]
    have count : next r₀.ARGBLK = next r.PKTNUM := by rw [ARGBLK, num]
    split
    · rename_i quit
      have quit : ∀ {fate : Fate}, fate ≠ .kept → fate = .kept → p.data ≠ ['D'.toNat] ∧ r.DSCFLG = false :=
        fun ne eq => absurd eq ne
      simp only [Receiver.RDAT36]
      split
      · simp only [Receiver.ACKP, Receiver.COUNTP, ARGBLK]
        exact .eof at_ kind num (same.finished .rejected rfl rfl rfl) (quit (by decide))
          (.inl ⟨rfl, ARGBLK ▸ count⟩) (by simp)
      · split
        · split
          · obtain ⟨⟨fate, fin, gone⟩, STATE', errors⟩ :=
              @finished_RDAT37 cr r ({ r₀.COUNTP with OLDTRY := r₀.COUNTP.NUMTRY }.ACKP).1 ⟨same.par, same.done, same.file, same.DSCFLG⟩
            have eq : { r₀.COUNTP with OLDTRY := r₀.COUNTP.NUMTRY }.ACKP.2 = [⟨.Y, p.num, []⟩] := by
              simp only [Receiver.ACKP, Receiver.COUNTP, ARGBLK]
            rw [eq]
            exact .eof at_ kind num fin (quit gone) (.inr STATE') errors
          · simp only [Receiver.ACKP, Receiver.COUNTP, ARGBLK]
            exact .eof at_ kind num (same.finished .incomplete rfl rfl rfl) (quit (by decide))
              (.inl ⟨rfl, ARGBLK ▸ count⟩) (by simp)
        · simp only [Receiver.ACKP, Receiver.COUNTP, ARGBLK]
          exact .eof at_ kind num (same.finished .deleted rfl rfl rfl) (quit (by decide))
            (.inl ⟨rfl, ARGBLK ▸ count⟩) (by simp)
    · rename_i whole
      simp only [Receiver.RDAT33]
      split
      · obtain ⟨⟨fate, fin, gone⟩, STATE', errors⟩ := @finished_RDAT37 cr r r₀.COUNTP ⟨same.par, same.done, same.file, same.DSCFLG⟩
        exact .lost _ at_ fin gone STATE' errors
      · simp only [Receiver.ACKP, Receiver.COUNTP, ARGBLK]
        refine .eof at_ kind num (same.finished _ rfl rfl rfl) ?_ (.inl ⟨rfl, ARGBLK ▸ count⟩) (by simp)
        intro kept
        refine ⟨whole, ?_⟩
        rw [← same.DSCFLG]
        by_contra reject
        rw [if_pos (by simpa using reject)] at kept
        cases kept
  · simp only [Receiver.NAK, PKTNUM]
    exact .nak _ (by simp [at_]) ⟨same.par, same.done, same.file, same.DSCFLG⟩ STATE rfl

theorem turns_RDATA (st : r.STATE = .D) (got : Option Pkt) :
    Turns cr r got (r.RDATA cr d got).1 (r.RDATA cr d got).2 := by
  have ne : r.STATE ≠ .A := by simp [st]
  simp only [Receiver.RDATA]
  split
  · exact turns_RDAT16 cr d ⟨rfl, rfl, rfl, rfl⟩ st got
  · cases got with
    | none => exact .nak none ne ⟨rfl, rfl, rfl, rfl⟩ rfl rfl
    | some p =>
      have took : r.Took { r with NUMTRY := r.NUMTRY + 1, ARGBLK := p.num } p := ⟨⟨rfl, rfl, rfl, rfl⟩, rfl, rfl, rfl⟩
      cases kind : p.kind <;> simp only [kind]
      case D =>
        split
        · rename_i expected
          exact turns_RDAT14 cr d took st kind (of_decide_eq_true expected)
        · split
          · exact turns_RDAT16 cr d took.same st _
          · exact turns_TRYAGN cr took (.inr st) (by simp [kind])
      case F =>
        split
        · exact turns_RDAT16 cr d took.same st _
        · exact turns_TRYAGN cr took (.inr st) (by simp [kind])
      case Z => exact turns_RDATA3 cr d took st kind
      all_goals exact turns_RDAT16 cr d took.same st _

end Turn

theorem turns (cr : RecvSet) (d : Disk) (r : Receiver) (got : Option Pkt) :
    Turns cr r got (r.turn cr d got).1 (r.turn cr d got).2 := by
  cases st : r.STATE <;> simp only [Receiver.turn, st]
  case R => exact turns_RINIT cr r st got
  case F => exact turns_RFILE cr d st got
  case D => exact turns_RDATA cr d st got
  all_goals exact .idle got

end RSX280.Kpkt
