import RSX280.Circular
import Mathlib.Tactic.TypeStar

/-!
# The librarian's symbol table

`LBR` reads the modules of its input files one after the other and enters their names and symbols in
one table, which grows to the top of the memory. For a cross-reference the records of a symbol are
linked in a circle, and only the first of them has the name. When a module ends, `INITAB` keeps its
records or cuts the table back to where they begin.
-/

namespace RSX280.Lbr

open Circular

/-- The types of a record. -/
inductive Typ
  | MODTYP
  | GBLTYP
  | EXTTYP
  | COMTYP
  | LIBTYP
  | IDNTYP
  deriving DecidableEq

/-- The characters of a name. -/
abbrev Name := List ℕ

/-- A record of the table. The names and the library requests have no data, and the module pointer
and the chain are there for a cross-reference only. A suppressed name is empty. -/
structure Rec where
  addr : ℕ
  type : Typ
  name : Name
  data : Option (ℕ × ℕ)
  link : Option (ℕ × ℕ)
  deriving DecidableEq

/-- The bytes of a record: two for the lengths, the name, and the payload. -/
def Rec.size (r : Rec) : ℕ :=
  2 + r.name.length + (if r.data.isSome then 2 else 0) + if r.link.isSome then 4 else 0

/-- The switches `/CR`, `/UN` and `/BR`. -/
structure Switches where
  CR : Bool
  UN : Bool
  BR : Bool

/-- The table, the pointers to its end and to the records of the current module, the top of the
memory, and what the system will answer when more is asked for. -/
structure St where
  SYMTAB : ℕ
  table : List Rec
  TABPTR : ℕ
  MODPTR : ℕ
  MEMTOP : ℕ
  grants : List Bool

/-- How `LBR` stops: with `Out of memory`, or in a loop that does not end; when it reads a record
where there is none, or writes over the end of the table, anything may follow. -/
inductive Stop
  | memory
  | endless
  | garbage
  | overwritten
  deriving DecidableEq

/-! ### Entering a symbol -/

/-- `INCMEM` extends the task by 2048 bytes, up to 64K. -/
def INCMEM (st : St) : Except Stop St :=
  match st.grants with
  | true :: grants =>
      if st.MEMTOP + 2048 < 65536 then .ok { st with MEMTOP := st.MEMTOP + 2048, grants }
      else .error .memory
  | _ => .error .memory

/-- `CHKMEM`. -/
def CHKMEM (st : St) : Except Stop St :=
  if (st.TABPTR + 32) % 65536 ≤ st.MEMTOP then .ok st else INCMEM st

/-- `ADDSYM`. With `/BR` only the names of the modules are stored. -/
def ADDSYM (sw : Switches) (type : Typ) (name : Name) (data link : Option (ℕ × ℕ)) (st : St) :
    Except Stop St :=
  if sw.BR ∧ type ≠ .MODTYP then .ok st
  else do
    let st ← CHKMEM st
    let r : Rec := { addr := st.TABPTR, type, name, data, link }
    .ok { st with table := st.table ++ [r], TABPTR := st.TABPTR + r.size }

/-- The record at an address. -/
def recAt (t : List Rec) (a : ℕ) : Except Stop Rec :=
  match t.find? fun r => r.addr = a with
  | some r => .ok r
  | none => .error .garbage

/-- The chain field of the record at an address. -/
def chain (t : List Rec) (a : ℕ) : Except Stop ℕ := do
  let r ← recAt t a
  match r.link with
  | some (_, c) => .ok c
  | none => .error .garbage

/-- Another address in the chain field. -/
def setChain (t : List Rec) (a c : ℕ) : List Rec :=
  t.map fun r => if r.addr = a then { r with link := r.link.map fun l => (l.1, c) } else r

/-- `FNDSYM` finds symbols only, and the first record only, since the others have no name. -/
def FNDSYM (name : Name) (t : List Rec) : Option Rec :=
  t.find? fun r => (r.type = .GBLTYP ∨ r.type = .EXTTYP) ∧ r.name = name

/-- The loop `adsv4` to the end of the circle. -/
def adsv4 (t : List Rec) (root : ℕ) : Except Stop ℕ := last (chain t) .endless root t.length root

/-- `ADDSV`. -/
def ADDSV (sw : Switches) (type : Typ) (name : Name) (data : ℕ × ℕ) (st : St) : Except Stop St :=
  if sw.CR ∨ sw.UN then
    let a := st.TABPTR
    let found := FNDSYM name st.table
    let root := (found.map Rec.addr).getD a
    let stored := if found.isSome then [] else name
    -- `ADDSYM` stores nothing, and the payload goes where the end marker is
    if sw.BR then .error .overwritten
    else do
      let st ← ADDSYM sw type stored (some data) (some (st.MODPTR, root)) st
      let z ← adsv4 st.table root
      .ok { st with table := setChain st.table z a }
  else ADDSYM sw type name (some data) none st

/-! ### Reading a module -/

/-- What `FLD.B` reads. -/
structure Label where
  name : Name
  pos : 0 < name.length
  le : name.length ≤ 8

/-- A link item that is entered in the table. -/
structure Item where
  type : Typ
  label : Label
  data : ℕ × ℕ

/-- A module begins with its name. -/
structure Module where
  label : Label
  items : List Item

/-- `SEG.2` to `SEG.7`. -/
def enter (sw : Switches) (st : St) (i : Item) : Except Stop St :=
  match i.type with
  | .COMTYP | .EXTTYP | .GBLTYP => ADDSV sw i.type i.label.name i.data st
  | _ => ADDSYM sw i.type i.label.name none none st

/-- `INITAB`, with `KEEPFL`. -/
def INITAB (sw : Switches) (KEEPFL : Bool) (st : St) : St :=
  if sw.CR ∨ sw.UN then
    if KEEPFL then { st with MODPTR := st.TABPTR }
    else { st with table := st.table.filter fun r => r.addr < st.MODPTR, TABPTR := st.MODPTR }
  else { st with table := [], TABPTR := st.SYMTAB, MODPTR := st.SYMTAB }

/-- A new input file, or a module of it that the selection keeps or not. -/
inductive Event
  | opens
  | reads (m : Module) (keep : Bool)

/-- From one `INITAB` to the next. -/
def step (sw : Switches) (st : St) : Event → Except Stop St
  | .opens => .ok (INITAB sw false st)
  | .reads m keep => do
      let st ← ADDSYM sw .MODTYP m.label.name none none st
      let st ← m.items.foldlM (enter sw) st
      .ok (INITAB sw keep st)

def run (sw : Switches) (st : St) (es : List Event) : Except Stop St :=
  es.foldlM (step sw) st

/-! ### The listings -/

/-- `FNDNAM`; the record at the pointer should have a name or lead to one. -/
def FNDNAM (t : List Rec) (a : ℕ) : Except Stop (Option ℕ) :=
  search (chain t) .endless a (fun b => do .ok ((← recAt t b).name ≠ [])) t.length a

/-- `CPYN8`: the name of the record at an address, if any. -/
def CPYN8 (t : List Rec) (a : ℕ) : Except Stop Name := do
  match ← FNDNAM t a with
  | some b => .ok (← recAt t b).name
  | none => .ok []

/-- The loops `xre1` and `lu4`: is there a public symbol in the circle? -/
def xre1 (t : List Rec) (a : ℕ) : Except Stop (Option ℕ) :=
  search (chain t) .endless a (fun b => do .ok ((← recAt t b).type = .GBLTYP)) t.length a

/-- The module a record points to. -/
def moduleName (t : List Rec) (a : ℕ) : Except Stop Name := do
  match (← recAt t a).link with
  | some (m, _) => CPYN8 t m
  | none => .error .garbage

/-- `xrf`: the modules that refer to the symbol. -/
def xrf (t : List Rec) (a : ℕ) : Except Stop (List Name) :=
  collect (chain t) .endless a
    (fun b => do if (← recAt t b).type = .EXTTYP then .ok [← moduleName t b] else .ok []) t.length a

/-- An entry of the cross-reference: name, segment and value, and the columns `Defined` and
`Referenced`. -/
structure Line where
  name : Name
  data : Option (ℕ × ℕ)
  defined : Option Name
  referenced : List Name
  deriving DecidableEq

/-- `xrp`, a public symbol. -/
def xrp (t : List Rec) (a : ℕ) : Except Stop Line := do
  .ok { name := ← CPYN8 t a, data := (← recAt t a).data, defined := some (← moduleName t a),
        referenced := ← xrf t a }

/-- `xre`, an external reference: it is listed as the public symbol, if there is one. -/
def xre (t : List Rec) (a : ℕ) : Except Stop Line := do
  match ← xre1 t a with
  | some b => xrp t b
  | none =>
      .ok { name := ← CPYN8 t a, data := (← recAt t a).data, defined := none,
            referenced := ← xrf t a }

/-- The entry of a record, if it has one. -/
def xr1 (t : List Rec) (r : Rec) : Except Stop (List Line) :=
  if r.name = [] then .ok []
  else match r.type with
    | .GBLTYP => do .ok [← xrp t r.addr]
    | .EXTTYP => do .ok [← xre t r.addr]
    | _ => .ok []

/-- `XREF`. -/
def XREF (st : St) : Except Stop (List Line) := do
  .ok (← st.table.mapM (xr1 st.table)).flatten

/-- The symbol of a record, if no public one is in its circle. -/
def lu1 (t : List Rec) (r : Rec) : Except Stop (List Name) :=
  if r.name = [] then .ok []
  else match r.type with
    | .EXTTYP => do
        match ← xre1 t r.addr with
        | some _ => .ok []
        | none => .ok [← CPYN8 t r.addr]
    | _ => .ok []

/-- `LUNDEF`. -/
def LUNDEF (st : St) : Except Stop (List Name) := do
  .ok (← st.table.mapM (lu1 st.table)).flatten

end RSX280.Lbr
