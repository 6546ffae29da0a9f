import RSX280.Runs

/-!
# The symbol table of the indirect command processor

The table is one list of entries in the order they were made: variables, and between them the
markers of the blocks, of the file frames and of the `.ONERR` labels. A pointer into it is the number
of entries before it. The space is counted elsewhere: `mem` says whether `avail?` finds it.
-/

namespace RSX280.Vars

/-- The errors: a symbol of another type, no memory, too many blocks, too many files. -/
inductive Err
  | RDF | MEM | TMB | TMC
  deriving DecidableEq

/-- The characters of a name. -/
abbrev Name := List ℕ

/-- The types of variables, `V.STR`, `V.LOG` and `V.NUM`. -/
inductive VType
  | STR | LOG | NUM
  deriving DecidableEq

/-- A value: a string, which is kept in the dynamic area, or a word. -/
inductive Val
  | str (chars : List ℕ)
  | log (word : ℕ)
  | num (word : ℕ)
  deriving DecidableEq

def Val.type : Val → VType
  | .str _ => .STR
  | .log _ => .LOG
  | .num _ => .NUM

/-- A position in the command file, `GETPOS`. -/
structure Pos where
  indblk : ℕ
  indpos : ℕ
  lnnum : ℕ
  deriving DecidableEq

/-- What is kept with a block: where it began, and the nesting level of its file. -/
structure Start where
  pos : Pos
  ilv : ℕ
  deriving DecidableEq

/-- An entry of the table. -/
inductive Entry
  | var (name : Name) (value : Val)
  | blk (blv : ℕ) (start : Start)
  | fil (lvl : ℕ)
  | err (label : Name) (blv : ℕ)
  deriving DecidableEq

/-- `'$'`. -/
def dollar : ℕ := 0x24

/-- `isgbl`: with `GLOBAL` enabled (`gbl`), a name that begins with a dollar sign. -/
def isgbl (gbl : Bool) (name : Name) : Bool := gbl && name.head? == some dollar

/-- `MAXIND`. -/
def MAXIND : ℕ := 3

/-! ### Searches -/

/-- `FNDFIL` from the entry `hl` on: the entry behind the marker that was found, if there is one, and
`BC`. -/
def ffm1 (e : ℕ) : List Entry → ℕ → ℕ → Option ℕ × ℕ
  | [], _, bc => (none, bc)
  | .fil lvl :: t, hl, bc =>
    if lvl = e then (some (hl + 1), hl + 1)
    else if e < lvl then (some (hl + 1), bc)
    else ffm1 e t (hl + 1) hl
  | _ :: t, hl, bc => ffm1 e t (hl + 1) bc

/-- `FNDFIL`. -/
def FNDFIL (e : ℕ) (vars : List Entry) : Option ℕ × ℕ := ffm1 e vars 0 0

/-- `fv1`: the variable `name` from the entry `hl` on. -/
def fv1 (name : Name) : List Entry → ℕ → Option ℕ
  | [], _ => none
  | .var n _ :: t, hl => if n = name then some hl else fv1 name t (hl + 1)
  | _ :: t, hl => fv1 name t (hl + 1)

/-- `fbk1`: the marker of the block `e` from the entry `hl` on. -/
def fbk1 (e : ℕ) : List Entry → ℕ → Option ℕ
  | [], _ => none
  | .blk blv _ :: t, hl => if blv = e then some hl else fbk1 e t (hl + 1)
  | _ :: t, hl => fbk1 e t (hl + 1)

/-- The indirect command processor: the symbol table, the nesting levels of files and blocks, and the
block levels that `CPUSH` has saved, the last one first. -/
structure Icp where
  vars : List Entry
  INDLVL : ℕ
  BLKLVL : ℕ
  INDPDL : List ℕ

namespace Icp

/-- The level of the current file, `dec a`. -/
def file (s : Icp) : ℕ := (s.INDLVL + 255) % 256

/-- The start of the current file frame, as `FNDVAR` and `FNDBLK` find it. -/
def frame (s : Icp) : ℕ := (FNDFIL s.file s.vars).2

/-- `FNDVAR`. -/
def FNDVAR (gbl : Bool) (s : Icp) (name : Name) : Option ℕ :=
  if isgbl gbl name then fv1 name s.vars 0 else fv1 name (s.vars.drop s.frame) s.frame

/-- `GETVAR`: the value of the variable that was found. -/
def GETVAR (gbl : Bool) (s : Icp) (name : Name) : Option Val :=
  match s.FNDVAR gbl name with
  | none => none
  | some i =>
    match s.vars[i]? with
    | some (.var _ v) => some v
    | _ => none

/-- `FNDBLK`. -/
def FNDBLK (s : Icp) (e : ℕ) : Option ℕ := fbk1 e (s.vars.drop s.frame) s.frame

/-- What is kept with the block that was found. -/
def GETBLK (s : Icp) (e : ℕ) : Option Start :=
  match s.FNDBLK e with
  | none => none
  | some i =>
    match s.vars[i]? with
    | some (.blk _ start) => some start
    | _ => none

/-! ### Deletions -/

/-- `cmpla`: whether an entry is deleted with its block or file. -/
def cmpla (gbl : Bool) : Entry → Bool
  | .var name _ => !isgbl gbl name
  | _ => true

/-- `del3`: delete the entries from `hl` on that `ix` picks, and move the others down. -/
def del3 (ix : Entry → Bool) (s : Icp) (hl : ℕ) : Icp :=
  { s with vars := s.vars.take hl ++ (s.vars.drop hl).filter fun x => !ix x }

/-- `POPBLK`. -/
def POPBLK (gbl : Bool) (s : Icp) (e : ℕ) : Icp :=
  match s.FNDBLK e with
  | none => s
  | some hl => s.del3 (cmpla gbl) hl

/-- `POPFIL`. -/
def POPFIL (gbl : Bool) (s : Icp) (e : ℕ) : Icp :=
  match (FNDFIL e s.vars).1 with
  | none => s
  | some hl => s.del3 (cmpla gbl) (hl - 1)

/-! ### Additions -/

/-- Write an entry at the end of the table, if there is space. -/
def push (s : Icp) (x : Entry) (mem : Bool) : Icp × Option Err :=
  if mem then ({ s with vars := s.vars ++ [x] }, none) else (s, some .MEM)

/-- `PSHBLK`, at the position `pos` of the file. -/
def PSHBLK (s : Icp) (pos : Pos) (mem : Bool) : Icp × Option Err :=
  s.push (.blk s.BLKLVL ⟨pos, s.INDLVL⟩) mem

/-- `PSHFIL`. -/
def PSHFIL (s : Icp) (mem : Bool) : Icp × Option Err := s.push (.fil s.file) mem

/-- `PSHERR`. -/
def PSHERR (s : Icp) (label : Name) (mem : Bool) : Icp × Option Err :=
  s.push (.err label s.BLKLVL) mem

/-- `SETNV`, `SETLV` and `SETSV`: a variable keeps its type (`ERRSET`), and a new one takes space
(`ERRMEM`). -/
def SETV (gbl : Bool) (s : Icp) (name : Name) (v : Val) (mem : Bool) : Icp × Option Err :=
  match s.FNDVAR gbl name with
  | none => s.push (.var name v) mem
  | some i =>
    match s.vars[i]? with
    | some (.var n w) =>
      if w.type = v.type then ({ s with vars := s.vars.set i (.var n v) }, none)
      else (s, some .RDF)
    | _ => (s, none)

/-! ### Commands -/

/-- `OPNCMD`, when the file is open; `loc` if its locals are shared. -/
def OPNCMD (s : Icp) (loc mem : Bool) : Icp × Option Err :=
  if MAXIND ≤ s.INDLVL then (s, some .TMC)
  else
    let s := { s with
      INDLVL := s.INDLVL + 1, INDPDL := if s.INDLVL = 0 then s.INDPDL else s.BLKLVL :: s.INDPDL }
    if loc || s.file = 0 then (s, none) else s.PSHFIL mem

/-- `CLSIND`, with `CPOP`. -/
def CLSIND (gbl : Bool) (s : Icp) : Icp :=
  let s := s.POPFIL gbl s.file
  if s.INDLVL ≤ 1 then { s with INDLVL := 0 }
  else
    let s := { s with
      INDLVL := s.INDLVL - 1, BLKLVL := s.INDPDL.headD 0, INDPDL := s.INDPDL.tail }
    s.POPBLK gbl ((s.BLKLVL + 1) % 256)

/-- `.BEGIN`. -/
def begin (s : Icp) (pos : Pos) (mem : Bool) : Icp × Option Err :=
  if (s.BLKLVL + 1) % 256 = 0 then (s, some .TMB)
  else { s with BLKLVL := (s.BLKLVL + 1) % 256 }.PSHBLK pos mem

/-- `.END`, behind its test of the level. -/
def bend (gbl : Bool) (s : Icp) : Icp :=
  { s with BLKLVL := (s.BLKLVL + 255) % 256 }.POPBLK gbl s.BLKLVL

/-- The level of the blocks around the current file, `BASEBL`. -/
def BASEBL (s : Icp) : ℕ := if s.INDLVL ≤ 1 then 0 else s.INDPDL.headD 0

end Icp

/-! ### Runs -/

/-- What a command file does to the symbol table, with the outcome of `avail?`. -/
inductive Op
  | open (loc mem : Bool)
  | close
  | begin (pos : Pos) (mem : Bool)
  | bend
  | onerr (label : Name) (mem : Bool)
  | set (name : Name) (value : Val) (mem : Bool)
  | get (name : Name)
  | goto

/-- What it sees: an error, the value of a variable, the start of a block. -/
inductive Out
  | err (e : Option Err)
  | val (v : Option Val)
  | start (b : Option Start)
  deriving DecidableEq

/-- One command. `.GOTO` looks for the start of the current block. -/
def Icp.step (gbl : Bool) (s : Icp) : Op → Icp × Out
  | .open loc mem => ((s.OPNCMD loc mem).1, .err (s.OPNCMD loc mem).2)
  | .close => (s.CLSIND gbl, .err none)
  | .begin pos mem => ((s.begin pos mem).1, .err (s.begin pos mem).2)
  | .bend => (s.bend gbl, .err none)
  | .onerr label mem => ((s.PSHERR label mem).1, .err (s.PSHERR label mem).2)
  | .set name v mem => ((s.SETV gbl name v mem).1, .err (s.SETV gbl name v mem).2)
  | .get name => (s, .val (s.GETVAR gbl name))
  | .goto => (s, .start (s.GETBLK s.BLKLVL))

/-- The commands are nested: a block is closed in the file that opened it, and the first file stays
open. A block that found no space was not opened, and ends the commands. -/
def Icp.Nested (s : Icp) : Op → Prop
  | .begin _ mem => mem = true ∨ (s.BLKLVL + 1) % 256 = 0
  | .bend => s.BASEBL < s.BLKLVL
  | .close => 2 ≤ s.INDLVL
  | _ => True

/-- What a list of commands sees. -/
def Icp.trace (gbl : Bool) : Icp → List Op → List Out
  | _, [] => []
  | s, op :: l => (s.step gbl op).2 :: trace gbl (s.step gbl op).1 l

/-- The table behind a list of commands. -/
def Icp.runs (gbl : Bool) : Icp → List Op → Icp
  | s, [] => s
  | s, op :: l => runs gbl (s.step gbl op).1 l

/-- The commands of the list are nested. -/
def Icp.Admits (gbl : Bool) : Icp → List Op → Prop
  | _, [] => True
  | s, op :: l => s.Nested op ∧ Admits gbl (s.step gbl op).1 l

/-- The table behind `CLRVAR`, in the first file. -/
def Icp.start : Icp := ⟨[], 1, 0, []⟩

end RSX280.Vars
