import RSX280.PoolRuns
import RSX280.VmemWords

/-!
# The pool in the system image (`vmr/pool.mac`)

The virtual MCR prepares the pool and allocates the control blocks of what it installs. `KALLOC` and
`KFREE` are `$ALLOC` and `$FREE` of the kernel with a call for each access to memory. `pool` is the address
of the kernel variable `$POOL`, which the virtual MCR has from the symbol file.
-/

namespace RSX280.Kpool

open Vmem
open Pool (Alloc Area Holds alloc fuel round4)

/-! ### The routines -/

/-- `KMINIT`: one free block with `$POLSZ` bytes. -/
def KMINIT (pool polsz : ℕ) (s : Sys) (r : Regs) : Sys :=
  let (s, r) := LDDEHL s { r with HL := pool }
  let (s, r) := STHLDE s { r with HL := r.DE, DE := 0 }
  let (s, u) := LDDEHL s { r with HL := polsz }
  (STHLDE s { u with HL := r.HL }).1

/-- The loop `ka1` with its exits `ka2` and `ka3`. -/
def ka1 : ℕ → Sys → Regs → Option (Except Err ℕ × Sys)
  | 0, _, _ => none
  | n + 1, s, r =>
    let (s, r) := LDHLIX s r
    if r.HL = 0 then some (.error .nomem, s)
    else
      let this := r.HL
      let (s, r) := LDDEHL s r
      let next := r.DE
      let (s, r) := LDDEHL s r
      if r.DE < r.BC then ka1 n s { r with DE := next, HL := this, IX := this }
      else if r.DE = r.BC then some (.ok this, (STIXHL s { r with HL := next }).1)
      else
        let (s, r) := STIXHL s { r with HL := (this + r.BC) % 65536 }
        let (s, r) := STHLDE s { r with DE := next, BC := r.DE - r.BC }
        some (.ok this, (STHLBC s r).1)

def KALLOC (pool : ℕ) (s : Sys) (r : Regs) : Option (Except Err ℕ × Sys) :=
  if round4 r.BC = 0 then some (.error .badop, s)
  else ka1 fuel s { r with BC := round4 r.BC, IX := pool }

/-- The loop `kf1`. `H` says whether `IX` is a block. -/
def kf1 : ℕ → Sys → Regs → Option (Sys × Regs)
  | 0, _, _ => none
  | n + 1, s, r =>
    let (s, r) := LDBCIX s r
    if r.BC = 0 then some (s, r)
    else if r.DE < r.BC then some (s, r)
    else kf1 n s { r with IX := r.BC, HL := 256 + r.HL % 256 }

/-- `kf3`: the block `this` and its size in `DE`, the next one in `BC`. -/
def kf3 (s : Sys) (r : Regs) (this : ℕ) : Sys :=
  if (this + r.DE) % 65536 = r.BC then
    let (s, u) := LDDEBC s { r with HL := r.DE, DE := (this + r.DE) % 65536, IX := this }
    let (s, u) := STIXHL s { u with HL := u.DE, DE := u.HL }
    let (s, u) := LDDEBC s { u with HL := u.DE, DE := u.HL }
    (SIXHL2 s { u with HL := (u.HL + u.DE) % 65536 }).1
  else s

/-- `kf2`, with the size of the block. -/
def kf2 (s : Sys) (r : Regs) (size : ℕ) : Sys :=
  let h := r.HL / 256
  let (s, r) := STIXHL s { r with HL := r.DE, DE := size }
  let (s, r) := STHLBC s r
  let (s, r) := STHLDE s r
  -- four times `dec hl`
  let this := (r.HL + 65532) % 65536
  if h = 0 then kf3 s { r with HL := this } this
  else
    let (s, u) := LDEIX2 s { r with HL := this }
    if (r.IX + u.DE) % 65536 = this then
      let (s, u) := STIXBC s { r with HL := (u.DE + r.DE) % 65536 }
      let (s, u) := SIXHL2 s u
      kf3 s { u with DE := u.HL, HL := u.DE, IX := this } r.IX
    else kf3 s { r with HL := u.DE } this

def KFREE (pool : ℕ) (s : Sys) (r : Regs) : Option Sys :=
  if round4 r.DE = 0 then some s
  else
    (kf1 fuel s { r with DE := r.HL, HL := round4 r.DE % 256, IX := pool }).map fun t =>
      kf2 t.1 t.2 (round4 r.DE)

/-! ### Calls -/

/-- The calls, with the registers they are given. Between them the owner of a block stores into it. -/
inductive Call
  | KALLOC (r : Regs)
  | KFREE (r : Regs)
  | store (a : ℕ) (x : UInt8)

/-- What a call returns: the address or the error of `KALLOC`. -/
inductive Ret
  | addr (a : Except Err ℕ)
  | done

def Call.vmr (pool : ℕ) (s : Sys) : Call → Option (Ret × Sys)
  | .KALLOC r => (Kpool.KALLOC pool s r).map fun t => (.addr t.1, t.2)
  | .KFREE r => (Kpool.KFREE pool s r).map fun s => (.done, s)
  | .store a x => some (.done, (SPUTB s x.toNat ⟨0, 0, a, 0⟩).1)

/-- The same call in the kernel. -/
def Call.kernel (pool : ℕ) (m : Mem) : Call → Option (Ret × Mem)
  | .KALLOC r => (alloc pool m r.BC).map fun
    | .ok (a, m) => (.addr (.ok a), m)
    | .error e => (.addr (.error e), m)
  | .KFREE r => (Pool.free pool m r.HL r.DE).map fun m => (.done, m)
  | .store a x => some (.done, m.wr8 a x)

def vmr (pool : ℕ) : List Call → Sys → Option (List Ret × Sys)
  | [], s => some ([], s)
  | c :: cs, s => (c.vmr pool s).bind fun t => (vmr pool cs t.2).map fun u => (t.1 :: u.1, u.2)

def kernel (pool : ℕ) : List Call → Mem → Option (List Ret × Mem)
  | [], m => some ([], m)
  | c :: cs, m => (c.kernel pool m).bind fun t => (kernel pool cs t.2).map fun u => (t.1 :: u.1, u.2)

/-- The live blocks behind a call. -/
def Call.live (live : List Alloc) : Call → Ret → List Alloc
  | .KALLOC r, .addr (.ok a) => (a, r.BC) :: live
  | .KFREE r, _ => live.erase (r.HL, r.DE)
  | _, _ => live

/-- The registers have 16 bits; a live block is freed, or stored into. -/
def Call.Owned (live : List Alloc) : Call → Prop
  | .KALLOC r => r.Valid
  | .KFREE r => r.Valid ∧ (r.HL, r.DE) ∈ live
  | .store a _ => ∃ x ∈ live, x.1 ≤ a ∧ a < x.1 + round4 x.2

def Owned (pool : ℕ) : List Call → Mem → List Alloc → Prop
  | [], _, _ => True
  | c :: cs, m, live => c.Owned live ∧ ∀ o m', c.kernel pool m = some (o, m') → Owned pool cs m' (c.live live o)

end RSX280.Kpool
