import Mathlib.Data.List.TakeWhile
import Mathlib.Tactic.Common

/-!
# File specifications

`PFN` reads `dev:[dir]fname.ext;ver` and fills in an FDB. It reads one word after the other (`getw`), and the
delimiter that ends a word tells what it was. A word is cut to the characters that there is space for.
-/

namespace RSX280.Pfn

/-- A string, without the zero that ends it. What is behind it reads as zero. -/
abbrev Text : Type := List ℕ

/-- `ld a,(hl)` -/
def peek (hl : Text) : ℕ := hl.headD 0

/-! ### Characters -/

def UCASE (c : ℕ) : ℕ := if 97 ≤ c ∧ c ≤ 122 then c - 32 else c

/-- Blank, tab, `:;$[].,=/<>()|`, CR, LF, ESC and zero -/
def isdelim (c : ℕ) : Bool :=
  c ∈ [32, 9, 58, 59, 36, 91, 93, 46, 44, 61, 47, 60, 62, 40, 41, 124, 13, 10, 27, 0]

/-- `*` or `%` -/
def iswildc (c : ℕ) : Bool := c = 42 ∨ c = 37

/-- A letter is changed to upper case. -/
def isalpha (c : ℕ) : Option ℕ := if 65 ≤ UCASE c ∧ UCASE c ≤ 90 then some (UCASE c) else none

def isnum (c : ℕ) : Bool := 48 ≤ c ∧ c ≤ 57

def skipbl : Text → Text
  | [] => []
  | c :: hl => if c = 32 ∨ c = 9 then skipbl hl else c :: hl

/-- A word of at most `b` characters up to a delimiter, whether there are wildcards in it, and what remains of
the string. Further characters are skipped. -/
def getw : ℕ → Text → Text × Bool × Text
  | _, [] => ([], false, [])
  | 0, c :: hl => if isdelim c then ([], false, c :: hl) else getw 0 hl
  | b + 1, c :: hl =>
    if isdelim c then ([], false, c :: hl)
    else
      let r := getw b hl
      (c :: r.1, iswildc c || r.2.1, r.2.2)

/-! ### Numbers -/

/-- `HL * 10` and a digit; none on overflow. -/
def adddig (hl a : ℕ) : Option ℕ :=
  if 65536 ≤ 2 * hl then none
  else if 65536 ≤ 4 * hl then none
  else if 65536 ≤ 4 * hl + hl then none
  else if 65536 ≤ 2 * (4 * hl + hl) then none
  else if 65536 ≤ 2 * (4 * hl + hl) + (a - 48) then none
  else some (2 * (4 * hl + hl) + (a - 48))

/-- The loop from `gn1` on. -/
def gn1 (de : ℕ) : Text → Option ℕ
  | [] => some de
  | c :: hl =>
    if isnum c then
      match adddig de c with
      | none => none
      | some de => gn1 de hl
    else none

def negde (de : ℕ) : ℕ := (65536 - de) % 65536

/-- A number of `B` characters; no characters are zero. -/
def getnum : Text → Option ℕ
  | [] => some 0
  | c :: hl =>
    if c = 43 then if hl = [] then none else gn1 0 hl
    else if c = 45 then if hl = [] then none else (gn1 0 hl).map negde
    else gn1 0 (c :: hl)

/-! ### The FDB -/

def FN.DEV : UInt8 := 0x01
def FN.DIR : UInt8 := 0x02
def FN.NAME : UInt8 := 0x04
def FN.EXT : UInt8 := 0x08
def FN.VER : UInt8 := 0x10

/-- The fields of the FDB that a file specification is for. -/
structure Fdb where
  attr : UInt8
  dev : ℕ × ℕ
  unit : ℕ
  dir : Text
  name : Text
  ext : Text
  ver : ℕ
  wldc : UInt8
  deriving DecidableEq

/-- `SY0:`, blanks, and version 0 -/
def INIFCB : Fdb where
  attr := 0
  dev := (83, 89)
  unit := 0
  dir := List.replicate 9 32
  name := List.replicate 9 32
  ext := List.replicate 3 32
  ver := 0
  wldc := 0

/-- `setbit`: the component was there, and `wcflg` is all bits or none. -/
def Fdb.setbit (fdb : Fdb) (c : UInt8) (wcflg : Bool) : Fdb :=
  { fdb with attr := fdb.attr ||| c, wldc := (if wcflg then c else 0) ||| fdb.wldc }

/-- A word is copied to the begin of a field. -/
def copy (field word : Text) : Text := word.map UCASE ++ field.drop word.length

/-- `SYSTEM` -/
def sysdir : Text := [83, 89, 83, 84, 69, 77]

/-! ### `PFN` -/

/-- The version: `*` or a number. -/
def pfn5 (fdb : Fdb) (hl : Text) : Option (Fdb × Text) :=
  if peek hl = 42 then some (fdb.setbit FN.VER true, hl.tail)
  else
    let (buf, wcflg, hl) := getw 9 hl
    if buf = [] then none
    else
      match getnum buf with
      | none => none
      | some de => some ({ fdb with ver := de }.setbit FN.VER wcflg, hl)

def pfn4 (fdb : Fdb) (hl : Text) : Option (Fdb × Text) :=
  if peek hl = 59 then pfn5 fdb hl.tail else some (fdb, hl)

/-- The extension -/
def pfn22 (fdb : Fdb) (hl : Text) : Option (Fdb × Text) :=
  if peek hl = 46 then
    let (buf, wcflg, hl) := getw 3 hl.tail
    let fdb := if buf = [] then fdb else { fdb with ext := copy fdb.ext buf }
    pfn4 (fdb.setbit FN.EXT wcflg) hl
  else pfn4 fdb hl

/-- The name is the word that was read last. -/
def pfn2 (fdb : Fdb) (buf : Text) (wcflg : Bool) (hl : Text) : Option (Fdb × Text) :=
  if buf = [] then pfn22 fdb hl
  else pfn22 ({ fdb with name := copy fdb.name buf }.setbit FN.NAME wcflg) hl

/-- A directory has been read, and then the next word is. -/
def pfn11 (fdb : Fdb) (dir : Text) (wcflg : Bool) (hl : Text) : Option (Fdb × Text) :=
  let fdb := { fdb with dir := copy fdb.dir dir }.setbit FN.DIR wcflg
  let (buf, wcflg, hl) := getw 9 hl
  pfn2 fdb buf wcflg hl

/-- `[`, and not a directory name -/
def pfn10 (fdb : Fdb) (buf : Text) (wcflg : Bool) (hl : Text) : Option (Fdb × Text) :=
  if peek hl = 91 then
    if buf ≠ [] then none
    else
      let (buf, wcflg, hl) := getw 9 hl.tail
      if peek hl ≠ 93 then none
      else if buf = [] then none
      else pfn11 fdb buf wcflg hl.tail
  else pfn2 fdb buf wcflg hl

/-- `$` is for `LB0:[SYSTEM]`, or only the directory when there was a device. -/
def pfn1 (fdb : Fdb) (buf : Text) (wcflg : Bool) (hl : Text) : Option (Fdb × Text) :=
  if peek hl = 36 then
    if buf ≠ [] then none
    else
      let fdb := if fdb.attr &&& FN.DEV ≠ 0 then fdb
        else { fdb with attr := fdb.attr ||| FN.DEV, dev := (76, 66), unit := 0 }
      pfn11 fdb sysdir wcflg hl.tail
  else pfn10 fdb buf wcflg hl

/-- The device. The high byte of the unit is looked at with `or a`, and that clears the carry flag that is
tested then. -/
def device (fdb : Fdb) (buf : Text) (wcflg : Bool) : Option Fdb :=
  match buf with
  | c₁ :: c₂ :: unit =>
    match isalpha c₁, isalpha c₂, getnum unit with
    | some d₁, some d₂, some de => some ({ fdb with dev := (d₁, d₂), unit := de % 256 }.setbit FN.DEV wcflg)
    | _, _, _ => none
  | _ => none

/-- `PFN`: the FDB, and where it stopped. -/
def PFN (s : Text) : Option (Fdb × Text) :=
  let (buf, wcflg, hl) := getw 9 (skipbl s)
  if peek hl = 58 then
    match device INIFCB buf wcflg with
    | none => none
    | some fdb =>
      let (buf, wcflg, hl) := getw 9 hl.tail
      pfn1 fdb buf wcflg hl
  else pfn1 INIFCB buf wcflg hl

end RSX280.Pfn
