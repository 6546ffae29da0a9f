import RSX280.Records

/-!
# The text buffer of the text editor (`ted/main.mac`, `ted/cmds.mac`)

A line is in a record and in the ones it is linked to. The first record has the numbers of the next and
of the previous line. Line numbers are not stored: the editor knows the first, the last and the current
line, and counts from the closest of them.
-/

namespace RSX280.Ted

/-- The record of a line behind its link: `next`, `prev` and the text. A continuation record has a text
only. -/
structure Body where
  next : ℕ
  prev : ℕ
  text : List UInt8

/-- The variables of the text buffer; `junk` is what stands in the records of new blocks. -/
structure Ed where
  p : Flat Body
  junk : ℕ → Body
  FSTREC : ℕ
  CURREC : ℕ
  CURLN : ℕ
  LSTREC : ℕ
  LASTLN : ℕ
  EDREC : ℕ
  NXTREC : ℕ
  PRVREC : ℕ

def CR : UInt8 := 0x0D
def LF : UInt8 := 0x0A
def TAB : UInt8 := 0x09
def SSPC : UInt8 := 0xA0
def MAXLEN : ℕ := 162

/-! ### Text -/

/-- The byte for `c` spaces. -/
def run (c : ℕ) : List UInt8 := if c = 0 then [] else [UInt8.ofNat (c % 256) ||| 0x80]

/-- The bytes that `STORE` makes of a line, but for the `CR` at the end. `n` is `EDLEN`, and `c` the
number of spaces that `sto6` has counted. -/
def encode : ℕ → ℕ → List UInt8 → List UInt8
  | _, c, [] => run c
  | n, c, x :: l =>
    if c ≠ 0 ∧ x = 0x20 then encode n (c + 1) l
    else
      let n := (n + c) % 256
      let a := x &&& 0x7F
      run c ++
        if MAXLEN ≤ n then []
        else if x = SSPC ∨ a = 0x7F ∨ a = 0x0C then encode n 0 l
        else if a = 0x20 then encode n 1 l
        else if 0x20 < a then a :: encode ((n + 1) % 256) 0 l
        else if a = 0 ∨ a = CR then encode n 0 l
        else if a = TAB then TAB :: encode (((n ||| 7) + 1) % 256) 0 l
        else if a = LF ∨ a = 0x0B then []
        else 0x3F :: encode ((n + 1) % 256) 0 l

/-- What `EXPAND` makes of these bytes; `c` is the length so far. -/
def decode : ℕ → List UInt8 → List UInt8
  | _, [] => []
  | c, x :: l =>
    if 0x80 ≤ x then
      let n := if x = 0x80 then 256 else x.toNat - 128
      List.replicate n 0x20 ++ decode ((c + n) % 256) l
    else if x = TAB then
      let n := (c ||| 7) - c
      List.replicate n SSPC ++ TAB :: decode ((c + n + 1) % 256) l
    else x :: decode ((c + 1) % 256) l

/-- The bytes of a line, up to the `CR`. -/
def chars (p : Flat Body) (r : ℕ) : List UInt8 :=
  ((p.chain r).flatMap fun x => (p.recs x).rest.text).takeWhile (· ≠ CR)

/-- `EXPAND`: the line in the buffer. -/
def EXPAND (s : Ed) (r : ℕ) : List UInt8 × Ed :=
  (decode 0 (chars s.p r) ++ [CR, LF],
    { s with EDREC := r, NXTREC := (s.p.recs r).rest.next, PRVREC := (s.p.recs r).rest.prev })

/-- The text of a record is set. -/
def setText (p : Flat Body) (r : ℕ) (l : List UInt8) : Flat Body :=
  p.set r { p.recs r with rest := { (p.recs r).rest with text := l } }

/-- The link of a record is set. -/
def setLink (p : Flat Body) (r n : ℕ) : Flat Body := p.set r { p.recs r with link := n }

/-- `sto8`: the bytes are put into a record, where `b` more have space, and into the next one of the
line. It returns CY and the last record. -/
def sto8 (junk : ℕ → Body) : Flat Body → ℕ → ℕ → List UInt8 → Bool × Flat Body × ℕ
  | p, r, _, [] => (false, p, r)
  | p, r, 0, c :: l =>
    if c = CR then (false, p, r)
    else
      let cont := (p.recs r).link
      let (cont, p) :=
        if cont ≠ 0 then (cont, p)
        else
          let (new, p) := p.ALLREC junk
          (new, setLink p r new)
      if cont = 0 then (true, p, r) else sto8 junk (setText p cont [c]) cont 13 l
  | p, r, b + 1, c :: l =>
    let p := setText p r ((p.recs r).rest.text ++ [c])
    if c = CR then (false, p, r) else sto8 junk p r b l

/-- `sto12`: the records that are left over are freed. -/
def sto12 (p : Flat Body) (r : ℕ) : Flat Body :=
  let cont := (p.recs r).link
  if cont = 0 then p else (setLink p r 0).FREREC cont

/-- `STORE`, which returns CY. An empty line stands for the address zero. -/
def STORE (s : Ed) (r : ℕ) (l : List UInt8) : Bool × Ed :=
  let (cy, p, last) := sto8 s.junk (setText s.p r []) r 10 (encode 0 0 l ++ [CR])
  (cy, { s with
    p := if cy then p else sto12 p last
    EDREC := r
    NXTREC := (s.p.recs r).rest.next
    PRVREC := (s.p.recs r).rest.prev })

/-! ### Lines -/

def setNext (p : Flat Body) (r n : ℕ) : Flat Body :=
  p.set r { p.recs r with rest := { (p.recs r).rest with next := n } }

def setPrev (p : Flat Body) (r n : ℕ) : Flat Body :=
  p.set r { p.recs r with rest := { (p.recs r).rest with prev := n } }

/-- Follow a link some times. Record 0 has no address. -/
def walk (p : Flat Body) (link : Body → ℕ) : ℕ → ℕ → Option ℕ
  | 0, r => some r
  | n + 1, r => if r = 0 ∨ p.NBLKS ≤ r / 32 then none else walk p link n (link (p.recs r).rest)

/-- `fb4`: from the line `bc` at the record `hl`. -/
def fb4 (p : Flat Body) (hl bc de : ℕ) : Option (ℕ × ℕ) :=
  if bc ≤ de then (walk p Body.next (de - bc) hl).map fun r => (r, de)
  else (walk p Body.prev (bc - de) hl).map fun r => (r, de)

/-- `FNDBUF`: the record of a line and the line number. -/
def FNDBUF (s : Ed) (de : ℕ) : Option (ℕ × ℕ) :=
  if de = 0 then some (0, 0)
  else if s.LASTLN < de then some (s.LSTREC, s.LASTLN)
  else if de ≤ s.CURLN then
    if s.CURLN < de * 2 % 65536 then fb4 s.p s.CURREC s.CURLN de else fb4 s.p s.FSTREC 1 de
  else if de * 2 % 65536 ≤ (s.LASTLN + s.CURLN) % 65536 then fb4 s.p s.CURREC s.CURLN de
  else fb4 s.p s.LSTREC s.LASTLN de

/-- `INSBUF` of the line at `DE` behind the record in `HL`, which is the line in `BC`. It returns CY. -/
def INSBUF (s : Ed) (hl : ℕ) (de : List UInt8) (bc : ℕ) : Bool × Ed :=
  let (new, p) := s.p.ALLREC s.junk
  if new = 0 then (true, s)
  else
    let (next, p, fstrec) :=
      if hl = 0 then (s.FSTREC, p, new)
      else ((p.recs hl).rest.next, setNext p hl new, s.FSTREC)
    let (p, lstrec) := if next = 0 then (p, new) else (setPrev p next new, s.LSTREC)
    STORE { s with
      p := p.set new ⟨0, next, hl, (p.recs new).rest.text⟩
      FSTREC := fstrec
      LSTREC := lstrec
      CURLN := if s.CURLN ≤ bc then s.CURLN else s.CURLN + 1
      LASTLN := s.LASTLN + 1 } new de

/-- `DELBUF` of the line in `BC` with the record in `HL`. -/
def DELBUF (s : Ed) (hl bc : ℕ) : Ed :=
  let next := (s.p.recs hl).rest.next
  let prev := (s.p.recs hl).rest.prev
  let p := s.p.FREREC hl
  let (p, fstrec) := if prev = 0 then (p, next) else (setNext p prev next, s.FSTREC)
  let (p, lstrec) := if next = 0 then (p, prev) else (setPrev p next prev, s.LSTREC)
  { s with
    p
    FSTREC := fstrec
    LSTREC := lstrec
    CURREC := if s.CURLN = bc then if next = 0 then prev else next else s.CURREC
    CURLN := if s.CURLN < bc ∨ s.CURLN = bc ∧ next ≠ 0 then s.CURLN else s.CURLN - 1
    LASTLN := s.LASTLN - 1
    NXTREC := next
    PRVREC := prev }

/-! ### Commands -/

/-- What a command says. -/
inductive Ans
  | done
  | bounds
  | overflow
  deriving DecidableEq

/-- The start of `GETTXP`: the current line is one of the text, if there is one. -/
def gettxp (s : Ed) : Ed :=
  if s.CURLN = 0 then { s with CURREC := s.FSTREC, CURLN := if s.FSTREC = 0 then 0 else 1 } else s

/-- `GETTXP` of a number: the record and the line. -/
def GETTXP (s : Ed) (n : ℕ) : Option (ℕ × ℕ × Ed) :=
  (FNDBUF (gettxp s) n).map fun x => (x.1, x.2, gettxp s)

/-- `GTTXP0`: line 0 stands for the first one. -/
def GTTXP0 (s : Ed) (n : ℕ) : Option (ℕ × ℕ × Ed) :=
  (GETTXP s n).map fun (hl, de, s) => if hl = 0 ∧ s.FSTREC ≠ 0 then (s.FSTREC, de + 1, s) else (hl, de, s)

/-- `SETTXP`. -/
def SETTXP (s : Ed) (hl de : ℕ) : Ed := { s with CURREC := hl, CURLN := de }

/-- `rloop`: lines are inserted, as many as the file has. -/
def rloop (s : Ed) (bc : ℕ) : List (List UInt8) → Ans × Ed
  | [] => (.done, s)
  | l :: ls =>
    let (cy, s) := INSBUF s s.EDREC l bc
    if cy then (.overflow, s) else rloop s (bc + 1) ls

/-- `CMDR`: the lines of a file are inserted behind a line. -/
def CMDR (s : Ed) (n : ℕ) (ls : List (List UInt8)) : Option (Ans × Ed) :=
  (GETTXP s n).map fun (hl, de, s) => rloop { SETTXP s hl de with EDREC := hl } de ls

/-- `cmdd2`: as many lines are deleted as `DE` says, the one in `HL` first. -/
def cmdd2 : ℕ → Ed → ℕ → ℕ → Ed
  | 0, s, _, _ => s
  | de + 1, s, hl, bc =>
    let s := DELBUF s hl bc
    if s.NXTREC = 0 then s else cmdd2 de s s.NXTREC bc

/-- `CMDD`. -/
def CMDD (s : Ed) (n₁ n₂ : ℕ) : Option (Ans × Ed) :=
  match GTTXP0 s n₁ with
  | none => none
  | some (hl, de, s) =>
    let s := SETTXP s hl de
    if hl = 0 then some (.done, s)
    else (GETTXP s n₂).map fun (_, de', s) =>
      if de' < de then (.bounds, s) else (.done, cmdd2 (de' - de + 1) s hl de)

/-- `cmdm4`: `COUNT2` lines are copied or moved. `CLINE` is counted up in any case: nothing sets CY
before the jump to `cmdm6`. -/
def cmdm4 (opmode : Bool) : ℕ → Ed → ℕ → ℕ → ℕ → ℕ → Ans × Ed
  | 0, s, _, _, _, _ => (.done, s)
  | count2 + 1, s, crec, cline, dstrec, dstln =>
    if crec = 0 then (.done, s)
    else
      let (l, s) := EXPAND s crec
      let next := s.NXTREC
      let s := if opmode then DELBUF s crec cline else s
      let dstln := if opmode ∧ cline < dstln then dstln - 1 else dstln
      let (cy, s) := INSBUF s dstrec l dstln
      if cy then (.overflow, s) else cmdm4 opmode count2 s next (cline + 1) s.EDREC dstln

/-- `CMDM`, and `CMDMD` if `opmode`. -/
def cmdm1 (opmode : Bool) (s : Ed) (n₁ n₂ n₃ : ℕ) : Option (Ans × Ed) :=
  match GTTXP0 s n₁ with
  | none => none
  | some (crec, cline, t) =>
    match GTTXP0 (SETTXP t crec cline) n₂ with
    | none => none
    | some (_, endln, t) =>
      if endln < cline then some (.bounds, t)
      else
        match GTTXP0 (SETTXP t s.CURREC s.CURLN) n₃ with
        | none => none
        | some (dstrec, dstln, t) =>
          let t := SETTXP t dstrec dstln
          if dstln < cline ∨ endln < dstln then
            some (cmdm4 opmode (endln - cline + 1) t crec cline dstrec dstln)
          else some (.bounds, t)

/-! ### Runs -/

/-- The calls and the commands. -/
inductive Act
  | INSBUF (hl : ℕ) (de : List UInt8) (bc : ℕ)
  | DELBUF (hl bc : ℕ)
  | R (n : ℕ) (ls : List (List UInt8))
  | D (n₁ n₂ : ℕ)
  | M (n₁ n₂ n₃ : ℕ)
  | MD (n₁ n₂ n₃ : ℕ)

def Ed.step (s : Ed) : Act → Option (Ans × Ed)
  | .INSBUF hl de bc =>
    let (cy, s) := Ted.INSBUF s hl de bc
    some (if cy then .overflow else .done, s)
  | .DELBUF hl bc => some (.done, Ted.DELBUF s hl bc)
  | .R n ls => CMDR s n ls
  | .D n₁ n₂ => CMDD s n₁ n₂
  | .M n₁ n₂ n₃ => cmdm1 false s n₁ n₂ n₃
  | .MD n₁ n₂ n₃ => cmdm1 true s n₁ n₂ n₃

/-- An empty text. -/
def Ed.empty (p : Flat Body) (junk : ℕ → Body) : Ed := ⟨p, junk, 0, 0, 0, 0, 0, 0, 0, 0⟩

end RSX280.Ted
