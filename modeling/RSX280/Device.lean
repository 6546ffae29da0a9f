import RSX280.Errors
import RSX280.Memory
import Mathlib.Data.Nat.Notation
import Mathlib.Data.List.Nodup
import Mathlib.Logic.Function.Basic

/-!
# Logical devices (`device.mac`)

The assignments of logical device names are kept in one list, `$LOGDV`, sorted by type. The
records of one type that a terminal sees are sorted by name, but those of different terminals
are mixed. `FNDLOG` walks the list and stops early where it may.
-/

namespace RSX280.Device

universe u

/-! ## Names and records -/

/-- A device name and unit, in the registers `DE` and `C`. -/
structure DevName where
  e : UInt8
  d : UInt8
  unit : UInt8
  deriving DecidableEq, Repr

/-- The name compared byte by byte, as `FNDLOG` does. -/
def DevName.cp (a b : DevName) : Ordering :=
  if a.e < b.e then .lt
  else if a.e ≠ b.e then .gt
  else if a.d < b.d then .lt
  else if a.d ≠ b.d then .gt
  else if a.unit < b.unit then .lt
  else if a.unit ≠ b.unit then .gt
  else .eq

/-- `TI0:` -/
def ti0 : DevName := ⟨84, 73, 0⟩

/-- The assignment types, in the order of their codes. -/
inductive Kind where
  /-- `N.LCL`: local -/
  | lcl
  /-- `N.LGN`: login -/
  | lgn
  /-- `N.GBL`: global -/
  | gbl
  deriving DecidableEq, Repr

/-- The code of the type. -/
def Kind.code : Kind → ℕ
  | .lcl => 0
  | .lgn => 1
  | .gbl => 2

/-- A logical device assignment. -/
structure Rec (U : Type u) where
  /-- `N.TYPE` -/
  kind : Kind
  /-- `N.TI`: UCB of terminal -/
  ti : U
  /-- `N.NAME` and `N.UNIT` -/
  name : DevName
  /-- `N.UCB`: UCB of physical device -/
  ucb : U
  deriving DecidableEq

/-- A device in `$PHYDV`. -/
structure Dcb (U : Type u) where
  /-- `D.NAME` -/
  e : UInt8
  d : UInt8
  /-- `D.UNITS` -/
  units : ℕ
  /-- `D.UCBL` -/
  ucbl : List U

variable {U : Type u} [DecidableEq U]

/-! ## The routines -/

/-- What `FNDLOG` does at a record. -/
inductive Look where
  | skip
  | nfnd
  | found
  deriving DecidableEq

/-- Compare a record with the name, for the given type or for any. -/
def look (b : Option Kind) (ti : U) (n : DevName) (r : Rec U) : Look :=
  if b.any (fun k => decide (r.kind.code < k.code)) then .skip
  else if b.any (fun k => decide (r.kind ≠ k)) then .nfnd
  else if r.kind ≠ .gbl ∧ r.ti ≠ ti then .skip
  else match r.name.cp n with
    | .lt => .skip
    -- of the names of any type, only the global ones come last
    | .gt => if b = none ∧ r.kind ≠ .gbl then .skip else .nfnd
    | .eq => .found

/-- Where `FNDLOG` stops: what it has passed, the record found, if any, and what follows. -/
structure Spot (U : Type u) where
  before : List (Rec U)
  hit : Option (Rec U)
  after : List (Rec U)

/-- Search the assignment table. -/
def fndlog (b : Option Kind) (ti : U) (n : DevName) : List (Rec U) → Spot U
  | [] => ⟨[], none, []⟩
  | r :: l =>
    match look b ti n r with
    | .skip => { fndlog b ti n l with before := r :: (fndlog b ti n l).before }
    | .nfnd => ⟨[], none, r :: l⟩
    | .found => ⟨[], some r, l⟩

/-- Search the physical device table: `$GTUCB` of the first device of that name that has the
unit. -/
def phydv (n : DevName) : List (Dcb U) → Option U
  | [] => none
  | d :: l =>
    if d.e = n.e ∧ d.d = n.d ∧ n.unit.toNat < d.units then d.ucbl[n.unit.toNat]?
    else phydv n l

/-- `$FNDEV`: the UCB of a device. -/
def fndev (phys : List (Dcb U)) (tab : List (Rec U)) (ti : U) (n : DevName) : Option U :=
  if n = ti0 then some ti
  else match (fndlog none ti n tab).hit with
    | some r => some r.ucb
    | none => phydv n phys

/-- `$ASGN`: the logical name `n` becomes the device `p`, which is found as the current task,
at terminal `cur`, finds it. `pool` says if there is room for a record. -/
def asgn (phys : List (Dcb U)) (tab : List (Rec U)) (cur : U) (k : Kind) (ti : U) (n p : DevName)
    (pool : Bool) : Except Err (List (Rec U)) :=
  match fndev phys tab cur p with
  | none => .error .nodev
  | some ucb =>
    let s := fndlog (some k) ti n tab
    match s.hit with
    | some r => .ok (s.before ++ { r with ucb } :: s.after)
    | none => if pool then .ok (s.before ++ ⟨k, ti, n, ucb⟩ :: s.after) else .error .nomem

/-- `$DEASN`: remove the assignment. -/
def deasn (tab : List (Rec U)) (k : Kind) (ti : U) (n : DevName) : Except Err (List (Rec U)) :=
  let s := fndlog (some k) ti n tab
  match s.hit with
  | some _ => .ok (s.before ++ s.after)
  | none => .error .nodev

/-- `$CLASN`: remove all assignments of a type. -/
def clasn (k : Kind) (ti : U) : List (Rec U) → List (Rec U)
  | [] => []
  | r :: l =>
    if r.kind.code < k.code then r :: clasn k ti l
    else if r.kind ≠ k then r :: l
    else if r.kind = .gbl ∨ r.ti = ti then clasn k ti l
    else r :: clasn k ti l

/-- A call. -/
inductive Op (U : Type u) where
  | asgn (cur : U) (k : Kind) (ti : U) (n p : DevName) (pool : Bool)
  | deasn (k : Kind) (ti : U) (n : DevName)
  | clasn (k : Kind) (ti : U)

/-- What the call makes of the table: an error leaves it alone. -/
def Op.run (phys : List (Dcb U)) (tab : List (Rec U)) : Op U → List (Rec U)
  | .asgn cur k ti n p pool => (Device.asgn phys tab cur k ti n p pool).toOption.getD tab
  | .deasn k ti n => (Device.deasn tab k ti n).toOption.getD tab
  | .clasn k ti => Device.clasn k ti tab

end RSX280.Device
