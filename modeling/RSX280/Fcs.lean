import Mathlib.Algebra.Group.Nat.Defs
import RSX280.Overlay

/-!
# The byte streams of FCSLIB

A file is read and written byte by byte through one block buffer. The structure of an open file has
the buffer, the number of the block and the index in it, the number of bytes in the buffer, and two
status bits: the buffer is valid, and it was modified. The device keeps the bytes of the file in
blocks of 512; it returns a block up to the end of the file, and reports the end behind the last
one.
-/

namespace RSX280.Fcs

open Overlay

/-- The structure of an open file, with the mode and status bits and, of the FDB, `F.NUSED`. -/
structure Fc where
  RD : Bool
  WR : Bool
  WA : Bool
  DV : Bool
  TT : Bool
  BV : Bool
  BM : Bool
  BUF : List ℕ
  CNT : ℕ
  CUR : ℕ
  BLK : ℕ
  NUSED : ℕ
  deriving DecidableEq

/-- The structure and the file on the device. -/
structure Io extends Fc where
  file : List ℕ
  deriving DecidableEq

/-! ### The device -/

/-- The used blocks of a file. -/
def blocks (file : List ℕ) : ℕ := (file.length + 511) / 512

/-- The bytes of a block, unless it is behind the last one. -/
def readBlock (file : List ℕ) (b : ℕ) : Option (List ℕ) :=
  if b < blocks file then some ((file.drop (512 * b)).take 512) else none

/-- Bytes at the begin of a block; the file may end there, but not before. -/
def writeBlock (file : List ℕ) (b : ℕ) (data : List ℕ) : Option (List ℕ) :=
  if 512 * b ≤ file.length then some (overlay file (512 * b) data) else none

/-! ### Blocks -/

/-- `FRDBLK`; nothing changes on an error. -/
def FRDBLK (s : Io) : Option Io :=
  (readBlock s.file s.BLK).map fun data =>
    { s with BV := true, BUF := overlay s.BUF 0 data, CNT := data.length }

/-- `FWRBLK` gets the new size when it wrote the last block. -/
def FWRBLK (s : Io) : Option Io :=
  (writeBlock s.file s.BLK (s.BUF.take s.CNT)).map fun file =>
    let NUSED := if s.NUSED ≤ s.BLK + 1 ∧ s.DV = false then blocks file else s.NUSED
    { s with file, NUSED, BM := false }

/-- `?FINCB`. -/
def FINCB (s : Io) : Io := { s with BLK := s.BLK + 1 }

/-- `?FDECB`. -/
def FDECB (s : Io) : Io := { s with BLK := s.BLK - 1 }

/-- `?FRELD` loads the block that is going to be modified, if it is there. -/
def FRELD (s : Io) : Option Io :=
  if s.BV then some s
  else if s.RD = false then some s
  else if s.BLK < s.NUSED then FRDBLK s else some s

/-- `FFLUSH`. -/
def FFLUSH (s : Io) : Option Io := if s.BM then FWRBLK s else some s

/-! ### Bytes -/

/-- `fgc2`. -/
def fgc2 (i : ℕ) (s : Io) : Option ℕ × Io := (some (s.BUF.getD i 0), { s with CUR := i + 1 })

/-- `fgc0`. -/
def fgc0 (s : Io) : Option ℕ × Io :=
  if s.CUR < s.CNT then fgc2 s.CUR s
  else match FFLUSH s with
    | none => (none, s)
    | some s =>
      match FRDBLK (FINCB s) with
      | none => (none, FINCB s)
      | some s => if s.CNT = 0 then (none, s) else fgc2 0 s

/-- `FGETCH`: a byte, or none on an error. -/
def FGETCH (s : Io) : Option ℕ × Io :=
  if s.BV then fgc0 s
  else match FRDBLK s with
    | none => (none, s)
    | some s => fgc0 s

/-- The loop of `FREAD`: `acc` was read before, `len` bytes are to come. A block more is read in
every round, `n` at most. -/
def frd1 : ℕ → ℕ → List ℕ → Io → List ℕ × Io
  | 0, _, acc, s => (acc, s)
  | n + 1, len, acc, s =>
    if s.CUR < s.CNT ∧ len ≤ s.CNT - s.CUR then
      (acc ++ (s.BUF.drop s.CUR).take len, { s with CUR := s.CUR + len })
    else
      -- what is left in the buffer, if anything
      let rest := (s.BUF.drop s.CUR).take (s.CNT - s.CUR)
      let acc := acc ++ rest
      let len := len - (s.CNT - s.CUR)
      match FFLUSH s with
      | none => (acc, s)
      | some s =>
        let s := { FINCB s with BV := false }
        match FRDBLK s with
        | some s => frd1 n len acc { s with CUR := 0 }
        | none => (acc, { FDECB s with CUR := s.CNT })

/-- `FREAD`: the bytes read. -/
def FREAD (len : ℕ) (s : Io) : List ℕ × Io :=
  if len = 0 then ([], s)
  else if s.BV then frd1 (len + 2) len [] s
  else match FRDBLK s with
    | none => ([], s)
    | some s => frd1 (len + 2) len [] s

/-- `fpc1`: the byte goes to the index `i` of the buffer. An error of `?FRELD` is not seen. -/
def fpc1 (c i : ℕ) (s : Io) : Io :=
  let s := (FRELD s).getD s
  let s := { s with BUF := s.BUF.set i c, BM := true, BV := true, CUR := i + 1 }
  let s := { s with CNT := max s.CNT s.CUR }
  -- a terminal gets its line
  if c = 13 ∧ s.TT then { (FWRBLK s).getD s with CNT := 0, CUR := 0 } else s

/-- `FPUTCH`: whether the byte was taken. -/
def FPUTCH (c : ℕ) (s : Io) : Bool × Io :=
  if s.CUR < 512 then (true, fpc1 c s.CUR s)
  else match FFLUSH s with
    | none => (false, s)
    | some s => (true, fpc1 c 0 (FINCB { s with CNT := 0 }))

/-- The loop of `FWRITE`: `done` bytes were written before. A block more is written in every round,
`n` at most. -/
def fwr1 : ℕ → List ℕ → ℕ → Io → ℕ × Io
  | 0, _, done, s => (done, s)
  | n + 1, data, done, s =>
    match FRELD s with
    | none => (done, s)
    | some s =>
      if (s.CUR + data.length) % 65536 ≤ 512 then
        if data = [] then (done, s)
        else
          let BUF := overlay s.BUF s.CUR data
          let CUR := (s.CUR + data.length) % 65536
          (done + data.length, { s with BUF, BM := true, BV := true, CUR, CNT := max s.CNT CUR })
      else
        let nbytes := 512 - s.CUR
        let s := { s with CNT := 512 }
        let s := if nbytes = 0 then s
          else { s with BUF := overlay s.BUF s.CUR (data.take nbytes), BM := true }
        match FWRBLK s with
        | none => (done + nbytes, s)
        | some s =>
          fwr1 n (data.drop nbytes) (done + nbytes) { FINCB s with CUR := 0, CNT := 0, BV := false }

/-- `FWRITE`: the number of bytes written. -/
def FWRITE (data : List ℕ) (s : Io) : ℕ × Io :=
  if data = [] then (0, s) else fwr1 (data.length + 2) data 0 s

/-- `FSEEK`; devices ignore it. -/
def FSEEK (pos : ℕ) (s : Io) : Bool × Io :=
  if s.DV then (true, s)
  else
    let s := { s with CUR := pos % 512 }
    let block := pos / 512
    if s.BV = false then (true, { s with BLK := block })
    else if block = s.BLK then (true, s)
    else match FFLUSH s with
      | none => (false, s)
      | some s => (true, { s with BV := false, BLK := block })

/-- The place of the next byte. -/
def Io.place (s : Io) : ℕ := 512 * s.BLK + s.CUR

/-- `FPOS` has 32 bits. -/
def FPOS (s : Io) : ℕ := s.place % 2 ^ 32

/-- `FCLOSE` flushes the buffer and clears the mode bits. -/
def FCLOSE (s : Io) : Option Io :=
  if s.RD = false ∧ s.WR = false ∧ s.WA = false then none
  else
    let closed (s : Io) : Io :=
      { s with RD := false, WR := false, WA := false, DV := false, TT := false, BV := false, BM := false }
    if (s.WR ∨ s.WA) ∧ s.BM then (FWRBLK s).map closed else some (closed s)

/-! ### Calls -/

/-- The calls between `FOPEN` and `FCLOSE`. -/
inductive Call
  | FGETCH
  | FREAD (len : ℕ)
  | FPUTCH (c : ℕ)
  | FWRITE (data : List ℕ)
  | FSEEK (pos : ℕ)
  | FPOS
  | FFLUSH
  deriving DecidableEq

/-- What a call returns. -/
inductive Out
  | byte (c : Option ℕ)
  | bytes (data : List ℕ)
  | done (ok : Bool)
  | count (n : ℕ)
  | position (pos : ℕ)
  deriving DecidableEq

def call (s : Io) : Call → Out × Io
  | .FGETCH => let r := FGETCH s; (.byte r.1, r.2)
  | .FREAD len => let r := FREAD len s; (.bytes r.1, r.2)
  | .FPUTCH c => let r := FPUTCH c s; (.done r.1, r.2)
  | .FWRITE data => let r := FWRITE data s; (.count r.1, r.2)
  | .FSEEK pos => let r := FSEEK pos s; (.done r.1, r.2)
  | .FPOS => (.position (FPOS s), s)
  | .FFLUSH => (.done (FFLUSH s).isSome, (FFLUSH s).getD s)

/-- The results of some calls, one after the other, and the state behind them. -/
def run : List Call → Io → List Out × Io
  | [], s => ([], s)
  | c :: cs, s =>
    let r := call s c
    let r' := run cs r.2
    (r.1 :: r'.1, r'.2)

/-- `FOPEN` of a file for reading and writing. The buffer is as it was. -/
def opened (file BUF : List ℕ) : Io :=
  { RD := true, WR := true, WA := false, DV := false, TT := false, BV := false, BM := false, BUF,
    CNT := 0, CUR := 0, BLK := 0, NUSED := blocks file, file }

end RSX280.Fcs
