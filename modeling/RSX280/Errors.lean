import Mathlib.Tactic.Common

/-!
# System error codes

The `E.xxx` codes of `ERRORS.INC` that the modelled routines return in register
A with the carry flag set. A routine that fails is an `Except Err`.
-/

namespace RSX280

/-- An error code. -/
inductive Err where
  /-- `E.EOF`: end of file -/
  | eof
  /-- `E.BADOP`: invalid operation -/
  | badop
  /-- `E.INV`: invalid value -/
  | inv
  /-- `E.NOBUF`: out of disk buffers -/
  | nobuf
  /-- `E.IO`: channel I/O error -/
  | io
  /-- `E.NOMEM`: not enough room -/
  | nomem
  /-- `E.TNF`: task not found -/
  | tnf
  /-- `E.TRUN`: task already running -/
  | trun
  /-- `E.TSTP`: task already stopped -/
  | tstp
  /-- `E.TFIX`: task already fixed -/
  | tfix
  /-- `E.TNFIX`: task not fixed -/
  | tnfix
  /-- `E.TACT`: task active -/
  | tact
  /-- `E.TNAC`: task not active -/
  | tnac
  /-- `E.TABO`: task abort in progress -/
  | tabo
  /-- `E.PRIV`: privileged command -/
  | priv
  /-- `E.QEMP`: queue empty -/
  | qemp
  /-- `E.BADFL`: invalid flag number -/
  | badfl
  /-- `E.BADTF`: bad task file -/
  | badtf
  /-- `E.PBIG`: program too big to fit in memory -/
  | pbig
  /-- `E.NODEV`: no such device -/
  | nodev
  /-- `E.FNF`: file not found -/
  | fnf
  /-- `E.DNF`: directory not found -/
  | dnf
  /-- `E.NODIR`: not a directory -/
  | nodir
  /-- `E.BADF`: bad file specification -/
  | badf
  /-- `E.DSKF`: disk full -/
  | dskf
  /-- `E.IDXF`: index file full -/
  | idxf
  /-- `E.IDXE`: index file error -/
  | idxe
  /-- `E.PERM`: access denied -/
  | perm
  /-- `E.DEVNM`: device not mounted -/
  | devnm
  /-- `E.DEVAM`: device already mounted -/
  | devam
  /-- `E.DMOP`: dismount in progress -/
  | dmop
  /-- `E.DMOI`: dismount initiated -/
  | dmoi
  /-- `E.UNA`: reading unallocated block -/
  | una
  /-- `E.FLCK`: file access is locked -/
  | flck
  /-- `E.EXIST`: file exists -/
  | exist
  /-- `E.DNE`: directory not empty -/
  | dne
  /-- `E.VLIM`: file version limit reached -/
  | vlim
  /-- `E.NCSPC`: no contiguous space -/
  | ncspc
  deriving DecidableEq, Repr

end RSX280
