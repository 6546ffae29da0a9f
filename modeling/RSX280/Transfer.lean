import RSX280.Params

/-!
# A file transfer (`kermit/kpkt.mac`)

The sender goes through the states of `SEND2`, the receiver through those of `READ2`. The sender sends a packet and waits
for the answer; the receiver waits for a packet and answers it. Packets are numbered modulo 64, and either side may wait in
vain: the line loses packets, and a packet whose block check is wrong counts as none.

`SINIT`, `SFILE`, `SDATA`, `SEOF` and `SEOT` are split where they wait, the first half ending with `SPACK`.
-/

namespace RSX280.Kpkt

def MAXTRY : ℕ := 5
def IMXTRY : ℕ := 16

/-- The types of the packets of a transfer. -/
inductive Kind
  | S
  | F
  | D
  | Z
  | B
  | Y
  | N
  | E
  deriving DecidableEq

/-- A packet: its type, number and data. -/
structure Pkt where
  kind : Kind
  num : ℕ
  data : List ℕ
  deriving DecidableEq

/-- `STATE`. -/
inductive State
  | S
  | R
  | F
  | D
  | Z
  | B
  | C
  | A
  deriving DecidableEq

/-! ### The sender -/

/-- A file to send: its name in the packet and what it holds. The packets that were made of it are kept for the record,
each with whether an acknowledgement asked for it, and whether the end of the file was seen. -/
structure Sent where
  name : List ℕ
  text : List ℕ
  pieces : List (Bool × List ℕ)
  eof : Bool
  deriving DecidableEq

/-- What the sender is set to. -/
structure SendSet where
  own : Own
  FMFLG : FileMode
  BUFLEN : ℕ

structure Sender where
  STATE : State
  PKTNUM : ℕ
  NUMPKT : ℕ
  NUMTRY : ℕ
  CZSEEN : ℕ
  CURCHK : ℕ
  par : Agreed
  FILBUF : List ℕ
  src : Source
  sent : List Sent
  file : Option Sent
  todo : List (List ℕ × List ℕ)

namespace Sender

variable (c : SendSet) (s : Sender)

/-- `ABORT`. -/
def abort : Sender := { s with STATE := .A }

/-- `COUNTP`, with the number in A. -/
def COUNTP (a : ℕ) : Sender := { s with PKTNUM := (a + 1) % 64, NUMPKT := (s.NUMPKT + 1) % 65536 }

/-- `GETFIL`: the file is opened. -/
def GETFIL : Sender := { s with src := ⟨[], (s.file.map Sent.text).getD []⟩ }

/-- The parameters of `GTCHR`. -/
def reader : Reader := ⟨s.par.sends, c.FMFLG, c.BUFLEN⟩

/-- The next packet of the file is made, or its end is seen; `acked` is for the record. -/
def fill (acked : Bool) : Sender :=
  match GTCHR (s.reader c) s.par.SPSIZ s.CURCHK s.src with
  | none => { s with STATE := .Z, file := s.file.map fun f => { f with eof := true } }
  | some (out, src) =>
    { s with STATE := .D, FILBUF := out, src, file := s.file.map fun f => { f with pieces := f.pieces ++ [(acked, out)] } }

/-- The first half of a routine: after too many tries the transfer is given up. -/
def attempt (max : ℕ) (make : Sender → Sender × Pkt) : Sender × Option Pkt :=
  if max ≤ s.NUMTRY then (s.abort, none)
  else ((make { s with NUMTRY := s.NUMTRY + 1 }).1, some (make { s with NUMTRY := s.NUMTRY + 1 }).2)

/-- The second half: an acknowledgement of the packet, a request for the packet after it, or neither. -/
def answer (onAck onNak : Pkt → Sender → Sender) : Option Pkt → Sender
  | none => s
  | some p =>
    match p.kind with
    | .Y => if p.num = s.PKTNUM then onAck p s else s
    | .N => if p.num = (s.PKTNUM + 1) % 64 then onNak p s else s
    | _ => s.abort

/-- `SINIT`. The number of the packet is taken from `NUMPKT`. -/
def SINIT : Sender × Option Pkt :=
  s.attempt IMXTRY fun s =>
    ({ s with CURCHK := '1'.toNat, par := { s.par with INICHK := c.own.CHKTYP } },
      ⟨.S, s.NUMPKT % 256, RPAR c.own s.par⟩)

/-- `SINIT` after `RPACK`. A request for the next packet does not open the file. -/
def SINIT_got : Option Pkt → Sender :=
  s.answer
    (fun p s =>
      let s := s.COUNTP p.num
      let par := SPAR c.own p.data s.par
      GETFIL { s with par, NUMTRY := 0, CURCHK := par.INICHK, STATE := .F })
    (fun _ s => { s with NUMTRY := 0, STATE := .F })

/-- `SFILE`. -/
def SFILE : Sender × Option Pkt :=
  s.attempt MAXTRY fun s => ({ s with CZSEEN := 0 }, ⟨.F, s.PKTNUM, (s.file.map Sent.name).getD []⟩)

/-- `SFIL14`, with the number of the answer in A. -/
def SFIL14 (p : Pkt) : Sender := fill c { s.COUNTP p.num with NUMTRY := 0 } (p.kind = .Y)

/-- `SFILE` after `RPACK`. -/
def SFILE_got : Option Pkt → Sender := s.answer (fun p s => s.SFIL14 c p) (fun p s => s.SFIL14 c p)

/-- The data of a packet: without eighth-bit quoting the parity takes the high bits away. -/
def wire (own : Own) (par : Agreed) (out : List ℕ) : List ℕ :=
  if par.QUOT8 ∨ own.PARITY = PARNON then out else out.map (· &&& 0x7F)

/-- `SDATA`. -/
def SDATA : Sender × Option Pkt := s.attempt MAXTRY fun s => (s, ⟨.D, s.PKTNUM, wire c.own s.par s.FILBUF⟩)

/-- `SDATA` after the acknowledgement, which may ask for an end with one character. -/
def SDATA_acked (p : Pkt) : Sender :=
  let s := { s.COUNTP p.num with NUMTRY := 0 }
  if p.data = ['Z'.toNat] ∨ p.data = ['X'.toNat] then { s with CZSEEN := p.data.headD 0, STATE := .Z }
  else if s.CZSEEN ≠ 0 then { s with STATE := .Z }
  else s.fill c true

/-- `SDATA` after `RPACK`. A request for the next packet goes to `SDAT12`, behind the counting of the packet. -/
def SDATA_got : Option Pkt → Sender := s.answer (fun p s => s.SDATA_acked c p) (fun _ s => s.fill c false)

/-- `SEOF`. -/
def SEOF : Sender × Option Pkt :=
  s.attempt MAXTRY fun s => (s, ⟨.Z, s.PKTNUM, if s.CZSEEN = 0 then [] else ['D'.toNat]⟩)

/-- `SEOF12`, with the number of the answer in A. -/
def SEOF12 (p : Pkt) : Sender :=
  let s := { s.COUNTP p.num with NUMTRY := 0, sent := s.sent ++ s.file.toList, file := none }
  if s.CZSEEN = 'Z'.toNat then { s with STATE := .B }
  else
    match s.todo with
    | [] => { s with STATE := .B }
    | (name, text) :: todo =>
      GETFIL { s with file := some ⟨name, text, [], false⟩, todo, CZSEEN := 0, STATE := .F }

/-- `SEOF` after `RPACK`. -/
def SEOF_got : Option Pkt → Sender := s.answer (fun p s => s.SEOF12 p) (fun p s => s.SEOF12 p)

/-- `SEOT`. -/
def SEOT : Sender × Option Pkt := s.attempt MAXTRY fun s => (s, ⟨.B, s.PKTNUM, []⟩)

/-- `SEOT` after `RPACK`. -/
def SEOT_got : Option Pkt → Sender :=
  s.answer (fun p s => { s.COUNTP p.num with NUMTRY := 0, STATE := .C })
    (fun p s => { s.COUNTP p.num with NUMTRY := 0, STATE := .C })

/-- `SEND2`, to where the sender waits. -/
def send : Sender × Option Pkt :=
  match s.STATE with
  | .S => s.SINIT c
  | .F => s.SFILE
  | .D => s.SDATA c
  | .Z => s.SEOF
  | .B => s.SEOT
  | _ => (s, none)

/-- `SEND2`, from there on. -/
def hear (got : Option Pkt) : Sender :=
  match s.STATE with
  | .S => s.SINIT_got c got
  | .F => s.SFILE_got c got
  | .D => s.SDATA_got c got
  | .Z => s.SEOF_got got
  | .B => s.SEOT_got got
  | _ => s

end Sender

/-! ### The receiver -/

/-- What became of a file. -/
inductive Fate
  | opened
  | kept
  | rejected
  | incomplete
  | damaged
  | deleted
  deriving DecidableEq

/-- A file that was received, or is being. -/
structure Received where
  name : List ℕ
  bytes : List ℕ
  fate : Fate
  deriving DecidableEq

/-- What the receiver is set to. `REMNAM` is empty when no name was given. -/
structure RecvSet where
  own : Own
  REMNAM : List ℕ
  INCFLG : Bool

/-- The name a file gets. -/
def RecvSet.nameOf (c : RecvSet) (data : List ℕ) : List ℕ := if c.REMNAM = [] then data else c.REMNAM

structure Receiver where
  STATE : State
  PKTNUM : ℕ
  ARGBLK : ℕ
  NUMTRY : ℕ
  OLDTRY : ℕ
  CZSEEN : ℕ
  CURCHK : ℕ
  DSCFLG : Bool
  par : Agreed
  done : List Received
  file : Option Received

/-- How `GOFIL` ends: with no file, with a file that is to be discarded, or with an open one. -/
inductive Opens
  | fails
  | rejects
  | opens
  deriving DecidableEq

/-- What the disk does in a turn of the receiver. -/
structure Disk where
  GOFIL : Opens
  full : Bool

namespace Receiver

variable (c : RecvSet) (r : Receiver) (p : Pkt) (d : Disk)

/-- All files: those that are finished, and the one that is open. -/
def files : List Received := r.done ++ r.file.toList

/-- `ABORT`. -/
def abort : Receiver := { r with STATE := .A }

/-- The open file is closed, or deleted. -/
def finish (fate : Fate) : Receiver :=
  { r with done := r.done ++ (r.file.map fun f => { f with fate }).toList, file := none }

/-- `COMPP`. -/
def COMPP : Bool := r.ARGBLK = r.PKTNUM

/-- `COUNTP`. -/
def COUNTP : Receiver := { r with PKTNUM := (r.ARGBLK + 1) % 64 }

/-- `NAK`, and `NAK0`, which counts a retry for the screen. -/
def NAK : Receiver × List Pkt := ({ r with ARGBLK := r.PKTNUM }, [⟨.N, r.PKTNUM, []⟩])

/-- `ACKP`. -/
def ACKP : Receiver × List Pkt := ({ r with NUMTRY := 0 }, [⟨.Y, r.ARGBLK, []⟩])

/-- `TRYAGN`. -/
def TRYAGN : Receiver × List Pkt :=
  let r := { r with OLDTRY := r.OLDTRY + 1 }
  if r.ARGBLK = (r.PKTNUM + 63) % 64 then r.ACKP else r.NAK

/-- `?Disk full`, as `SNDERR` sends it. -/
def ERMS11 : List ℕ := "?Disk full".toList.map Char.toNat

/-- `RDAT3B`. -/
def RDAT3B : Receiver := (r.finish (if c.INCFLG then .damaged else .deleted)).abort

/-- `PTCHR9` and `RDAT3B`: the disk is full. -/
def RDAT37 : Receiver × List Pkt :=
  let r := { r.COUNTP with ARGBLK := (r.ARGBLK + 1) % 64 }
  (r.RDAT3B c, [⟨.E, r.ARGBLK, ERMS11⟩])

/-- `RDAT16`: the transfer is given up. -/
def RDAT16 : Receiver × List Pkt :=
  if c.INCFLG then if d.full then r.RDAT37 c else ((r.finish .incomplete).abort, [])
  else ((r.finish .deleted).abort, [])

/-- `RINI2A`. -/
def RINI2A : Receiver × List Pkt :=
  let r := { r with OLDTRY := r.NUMTRY, NUMTRY := 0 }.COUNTP
  let par := SPAR c.own p.data r.par
  ({ r with par, CURCHK := par.INICHK, STATE := .F }, [⟨.Y, r.ARGBLK, RPAR c.own par⟩])

/-- `RINIT`. -/
def RINIT (got : Option Pkt) : Receiver × List Pkt :=
  if IMXTRY ≤ r.NUMTRY then (r.abort, [])
  else
    let r := { r with NUMTRY := r.NUMTRY + 1, CURCHK := '1'.toNat }
    match got with
    | none => r.NAK
    | some p =>
      let r := { r with ARGBLK := p.num }
      match p.kind with
      | .S => r.RINI2A c p
      | .E => (r.abort, [])
      | _ => r.NAK

/-- `RFIL12`: the sender has not seen the first acknowledgement. -/
def RFIL12 : Receiver × List Pkt :=
  let r := { r with OLDTRY := r.OLDTRY + 1 }
  if r.ARGBLK = (r.PKTNUM + 63) % 64 then ({ r with NUMTRY := 0 }, [⟨.Y, r.ARGBLK, RPAR c.own r.par⟩]) else r.NAK

/-- `RFIL3A`, after `GOFIL`. -/
def RFIL3A (DSCFLG : Bool) : Receiver × List Pkt :=
  let r := { r with
    DSCFLG, OLDTRY := r.NUMTRY, STATE := .D, CZSEEN := if r.CZSEEN = 'Z'.toNat then r.CZSEEN else 0,
    file := some ⟨c.nameOf p.data, [], .opened⟩ }
  r.ACKP

/-- `RFILE3`: a file name. -/
def RFILE3 : Receiver × List Pkt :=
  if r.COMPP then
    let r := r.COUNTP
    match d.GOFIL with
    | .fails => (r.abort, [])
    | .rejects => r.RFIL3A c p true
    | .opens => r.RFIL3A c p false
  else r.NAK

/-- `RFILE`. -/
def RFILE (got : Option Pkt) : Receiver × List Pkt :=
  if MAXTRY ≤ r.NUMTRY then (r.abort, [])
  else
    let r := { r with NUMTRY := r.NUMTRY + 1 }
    match got with
    | none => r.NAK
    | some p =>
      let r := { r with ARGBLK := p.num }
      match p.kind with
      | .S => if IMXTRY ≤ r.OLDTRY then (r.abort, []) else r.RFIL12 c
      | .Z => if MAXTRY ≤ r.OLDTRY then (r.abort, []) else r.TRYAGN
      | .F => r.RFILE3 c p d
      | .B => if r.COMPP then ({ r with STATE := .C }, [⟨.Y, r.ARGBLK, []⟩]) else r.NAK
      | _ => (r.abort, [])

/-- `RDAT14`: the packet that was expected. -/
def RDAT14 : Receiver × List Pkt :=
  let r := { r.COUNTP with OLDTRY := r.NUMTRY }
  if r.DSCFLG then
    ({ r with CZSEEN := 'X'.toNat, NUMTRY := 0 }, [⟨.Y, r.ARGBLK, ['X'.toNat]⟩])
  else if d.full then r.RDAT37 c
  else
    ({ r with NUMTRY := 0, file := r.file.map fun f => { f with bytes := f.bytes ++ PTCHR (r.par.takes c.own) p.data } },
      [⟨.Y, r.ARGBLK, if r.CZSEEN = 0 then [] else [r.CZSEEN]⟩])

/-- `RDAT33`: the end of a file that is whole. -/
def RDAT33 : Receiver × List Pkt :=
  if d.full ∧ ¬ r.DSCFLG then r.RDAT37 c
  else
    let r := r.finish (if r.DSCFLG then .rejected else .kept)
    { r with CZSEEN := 0, OLDTRY := r.NUMTRY, STATE := .F }.ACKP

/-- `RDAT36`: the end of a file that the sender has given up. -/
def RDAT36 : Receiver × List Pkt :=
  let r := { r with OLDTRY := r.NUMTRY }
  let acked := r.ACKP
  if r.DSCFLG then ({ acked.1.finish .rejected with STATE := .F }, acked.2)
  else if c.INCFLG then
    if d.full then ((acked.1.RDAT37 c).1, acked.2 ++ (acked.1.RDAT37 c).2)
    else ({ acked.1.finish .incomplete with STATE := .F }, acked.2)
  else ({ acked.1.finish .deleted with STATE := .F }, acked.2)

/-- `RDATA3`: the end of the file. -/
def RDATA3 : Receiver × List Pkt :=
  if r.COMPP then if p.data = ['D'.toNat] then r.COUNTP.RDAT36 c d else r.COUNTP.RDAT33 c d else r.NAK

/-- `RDATA`. -/
def RDATA (got : Option Pkt) : Receiver × List Pkt :=
  if MAXTRY ≤ r.NUMTRY then r.RDAT16 c d
  else
    let r := { r with NUMTRY := r.NUMTRY + 1 }
    match got with
    | none => r.NAK
    | some p =>
      let r := { r with ARGBLK := p.num }
      match p.kind with
      | .D => if r.COMPP then r.RDAT14 c p d else if MAXTRY ≤ r.OLDTRY then r.RDAT16 c d else r.TRYAGN
      | .F => if MAXTRY ≤ r.OLDTRY then r.RDAT16 c d else r.TRYAGN
      | .Z => r.RDATA3 c p d
      | _ => r.RDAT16 c d

/-- `READ2`: one turn. -/
def turn (got : Option Pkt) : Receiver × List Pkt :=
  match r.STATE with
  | .R => r.RINIT c got
  | .F => r.RFILE c d got
  | .D => r.RDATA c d got
  | _ => (r, [])

end Receiver

/-! ### Both, and the line -/

/-- The sender, whether it waits, the receiver, and the packets under way. -/
structure Sys where
  snd : Sender
  waiting : Bool
  rcv : Receiver
  toR : List Pkt
  toS : List Pkt

/-- What a side that waits gets: nothing in time or nothing valid, or the oldest packet under way. -/
inductive Got : List Pkt → Option Pkt → List Pkt → Prop
  | nothing (l : List Pkt) : Got l none l
  | oldest (p : Pkt) (l : List Pkt) : Got (p :: l) (some p) l

/-- A step of one of the sides, of the line, which loses packets, or of a user at a console. -/
inductive Step (cs : SendSet) (cr : RecvSet) : Sys → Sys → Prop
  | send {σ : Sys} (ready : σ.waiting = false) :
      Step cs cr σ { σ with
        snd := (σ.snd.send cs).1, waiting := (σ.snd.send cs).2.isSome, toR := σ.toR ++ (σ.snd.send cs).2.toList }
  | hear {σ : Sys} {got : Option Pkt} {toS : List Pkt} (waits : σ.waiting = true) (h : Got σ.toS got toS) :
      Step cs cr σ { σ with snd := σ.snd.hear cs got, waiting := false, toS }
  | turn {σ : Sys} {got : Option Pkt} {toR : List Pkt} (d : Disk) (h : Got σ.toR got toR) :
      Step cs cr σ { σ with rcv := (σ.rcv.turn cr d got).1, toR, toS := σ.toS ++ (σ.rcv.turn cr d got).2 }
  | loseR {σ : Sys} {toR : List Pkt} (h : toR.Sublist σ.toR) : Step cs cr σ { σ with toR }
  | loseS {σ : Sys} {toS : List Pkt} (h : toS.Sublist σ.toS) : Step cs cr σ { σ with toS }
  | keyS {σ : Sys} (key : ℕ) (h : key = 'X'.toNat ∨ key = 'Z'.toNat) :
      Step cs cr σ { σ with snd := { σ.snd with CZSEEN := key } }
  | keyR {σ : Sys} (key : ℕ) (h : key = 'X'.toNat ∨ key = 'Z'.toNat) :
      Step cs cr σ { σ with rcv := { σ.rcv with CZSEEN := key } }

/-- `SEND15` and `READ0`: both sides start, the sender with a file and those after it. -/
structure Start (σ : Sys) : Prop where
  snd : σ.snd.STATE = .S ∧ σ.snd.PKTNUM = 0 ∧ σ.snd.NUMPKT = 0 ∧ σ.snd.NUMTRY = 0
  sent : σ.snd.sent = []
  file : ∃ name text, σ.snd.file = some ⟨name, text, [], false⟩
  rcv : σ.rcv.STATE = .R ∧ σ.rcv.PKTNUM = 0 ∧ σ.rcv.NUMTRY = 0 ∧ σ.rcv.CZSEEN = 0
  files : σ.rcv.done = [] ∧ σ.rcv.file = none
  line : σ.waiting = false ∧ σ.toR = [] ∧ σ.toS = []

end RSX280.Kpkt
