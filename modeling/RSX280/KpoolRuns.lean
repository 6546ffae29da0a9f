import RSX280.Kpool

/-!
# The pool in the image is the pool in memory

The routines of the virtual MCR do to the bytes of the image what those of the kernel do to memory, for
whatever is there. So after any calls the kernel has the list and the blocks that it would have made itself
(`pool_agrees`).
-/

namespace RSX280.Kpool

open Vmem
open Pool (Alloc Area Holds alloc fuel round4)

/-- The same result, and an image with the same bytes. -/
inductive Agrees (g : Bytes) (m : Mem) : Option (Except Err ℕ × Sys) → Option (Except Err (ℕ × Mem)) → Prop
  | loops : Agrees g m none none
  | error {e : Err} {s : Sys} : s.Good g → s.flat = m → Agrees g m (some (.error e, s)) (some (.error e))
  | ok {a : ℕ} {s : Sys} {m' : Mem} : s.Good g → s.flat = m' → Agrees g m (some (.ok a, s)) (some (.ok (a, m')))

section

variable {g : Bytes} {s : Sys} {r : Regs} {n pool this : ℕ}

theorem mod16 (n : ℕ) : n % 65536 < 65536 := Nat.mod_lt n (by decide)

/-! ### `KALLOC` -/

theorem ka1_agrees (n : ℕ) (h : s.Good g) (hr : r.Valid) (hx : r.IX < 65536) :
    Agrees g s.flat (ka1 n s r) (Pool.ka1 s.flat r.BC n r.IX) := by
  induction n generalizing s r with
  | zero => exact .loops
  | succ n ih =>
    obtain ⟨s₁, good₁, flat₁, eq₁⟩ := LDHLIX_spec h hr hx
    rw [ka1, Pool.ka1, eq₁]
    dsimp only
    by_cases none : Mem.rd16 s.flat r.IX = 0
    · rw [if_pos none, if_pos none]
      exact .error good₁ flat₁
    rw [if_neg none, if_neg none]
    generalize found : Mem.rd16 s.flat r.IX = this
    have small : this < 65536 := found ▸ Mem.rd16_lt _ _
    -- the link and the size of the block
    obtain ⟨s₂, good₂, flat₂, eq₂⟩ := LDDEHL_spec (r := { r with HL := this }) good₁ ⟨hr.BC, hr.DE, small⟩
    rw [flat₁] at eq₂ flat₂
    rw [eq₂]
    dsimp only
    obtain ⟨s₃, good₃, flat₃, eq₃⟩ := LDDEHL_spec
      (r := { r with HL := (this + 2) % 65536, DE := Mem.rd16 s.flat this }) good₂ ⟨hr.BC, Mem.rd16_lt _ _, mod16 _⟩
    rw [flat₂] at eq₃ flat₃
    rw [eq₃]
    dsimp only
    generalize hde : Mem.rd16 s.flat ((this + 2) % 65536) = de
    generalize hnext : Mem.rd16 s.flat this = next
    have next_small : next < 65536 := hnext ▸ Mem.rd16_lt _ _
    by_cases less : de < r.BC
    · rw [if_pos less, if_pos less, ← flat₃]
      exact ih good₃ ⟨hr.BC, next_small, small⟩ small
    rw [if_neg less, if_neg less]
    by_cases fit : de = r.BC
    · rw [if_pos fit, if_pos fit]
      obtain ⟨s₄, good₄, flat₄, eq₄⟩ := STIXHL_spec
        (r := { r with HL := next, DE := de }) good₃ ⟨hr.BC, fit ▸ hr.BC, next_small⟩ hx
      rw [eq₄]
      rw [flat₃] at flat₄
      exact .ok good₄ flat₄
    · -- the rest of the block takes its place
      rw [if_neg fit, if_neg fit]
      have de_small : de < 65536 := hde ▸ Mem.rd16_lt _ _
      obtain ⟨s₄, good₄, flat₄, eq₄⟩ := STIXHL_spec
        (r := { r with HL := (this + r.BC) % 65536, DE := de }) good₃ ⟨hr.BC, de_small, mod16 _⟩ hx
      rw [eq₄]
      dsimp only
      obtain ⟨s₅, good₅, flat₅, eq₅⟩ := STHLDE_spec
        (r := { r with HL := (this + r.BC) % 65536, DE := next, BC := de - r.BC }) good₄
        ⟨Nat.lt_of_le_of_lt (Nat.sub_le _ _) de_small, next_small, mod16 _⟩
      rw [eq₅]
      dsimp only
      obtain ⟨s₆, good₆, flat₆, eq₆⟩ := STHLBC_spec
        (r := { r with HL := ((this + r.BC) % 65536 + 2) % 65536, DE := next, BC := de - r.BC }) good₅
        ⟨Nat.lt_of_le_of_lt (Nat.sub_le _ _) de_small, next_small, mod16 _⟩
      rw [eq₆]
      rw [flat₅, flat₄, flat₃] at flat₆
      exact .ok good₆ flat₆

theorem KALLOC_agrees (h : s.Good g) (hr : r.Valid) (hp : pool < 65536) :
    Agrees g s.flat (KALLOC pool s r) (alloc pool s.flat r.BC) := by
  rw [KALLOC, alloc]
  by_cases none : round4 r.BC = 0
  · rw [if_pos none, if_pos none]
    exact .error h rfl
  · have small : round4 r.BC < 65536 := by
      rw [round4]
      omega
    rw [if_neg none, if_neg none]
    exact ka1_agrees (r := { r with BC := round4 r.BC, IX := pool }) fuel h ⟨small, hr.DE, hr.HL⟩ hp

/-! ### `KFREE` -/

/-- The place of the block, and whether the cell before it is a block. -/
theorem kf1_agrees (n : ℕ) (h : s.Good g) (hr : r.Valid) (hx : r.IX < 65536) (flag : Bool)
    (hf : r.HL / 256 = if flag then 1 else 0) :
    (kf1 n s r = none ∧ Pool.kf1 s.flat r.DE n r.IX flag = none) ∨
      ∃ s' u flag', kf1 n s r = some (s', u) ∧ Pool.kf1 s.flat r.DE n r.IX flag = some (u.IX, u.BC, flag') ∧
        s'.Good g ∧ s'.flat = s.flat ∧ u.Valid ∧ u.IX < 65536 ∧ u.DE = r.DE ∧
        u.HL / 256 = if flag' then 1 else 0 := by
  induction n generalizing s r flag with
  | zero => exact Or.inl ⟨rfl, rfl⟩
  | succ n ih =>
    obtain ⟨s₁, good₁, flat₁, eq₁⟩ := LDBCIX_spec h hr hx
    rw [kf1, Pool.kf1, eq₁]
    dsimp only
    have small := Mem.rd16_lt s.flat r.IX
    generalize Mem.rd16 s.flat r.IX = bc at *
    by_cases none : bc = 0
    · rw [if_pos none, if_pos none]
      exact Or.inr ⟨s₁, _, flag, rfl, rfl, good₁, flat₁, ⟨small, hr.DE, hr.HL⟩, hx, rfl, hf⟩
    rw [if_neg none, if_neg none]
    by_cases behind : r.DE < bc
    · rw [if_pos behind, if_pos behind]
      exact Or.inr ⟨s₁, _, flag, rfl, rfl, good₁, flat₁, ⟨small, hr.DE, hr.HL⟩, hx, rfl, hf⟩
    rw [if_neg behind, if_neg behind]
    have low : r.HL % 256 < 256 := Nat.mod_lt _ (by decide)
    rw [← flat₁]
    exact ih (r := { r with BC := bc, IX := bc, HL := 256 + r.HL % 256 }) good₁
      ⟨small, hr.DE, by dsimp only; omega⟩ small true (by rw [if_pos rfl]; dsimp only; omega)

theorem kf3_agrees (h : s.Good g) (hr : r.Valid) (ht : this < 65536) :
    (kf3 s r this).Good g ∧ (kf3 s r this).flat = Pool.kf3 s.flat this r.DE r.BC := by
  rw [kf3, Pool.kf3]
  by_cases touch : (this + r.DE) % 65536 = r.BC
  · rw [if_pos touch, if_pos touch]
    obtain ⟨s₁, good₁, flat₁, eq₁⟩ := LDDEBC_spec
      (r := { r with HL := r.DE, DE := (this + r.DE) % 65536, IX := this }) h ⟨hr.BC, mod16 _, hr.DE⟩
    rw [eq₁]
    dsimp only
    obtain ⟨s₂, good₂, flat₂, eq₂⟩ := STIXHL_spec
      (r := ⟨(r.BC + 2) % 65536, r.DE, Mem.rd16 s.flat r.BC, this⟩) good₁ ⟨mod16 _, hr.DE, Mem.rd16_lt _ _⟩ ht
    rw [eq₂]
    dsimp only
    obtain ⟨s₃, good₃, flat₃, eq₃⟩ := LDDEBC_spec
      (r := ⟨(r.BC + 2) % 65536, Mem.rd16 s.flat r.BC, r.DE, this⟩) good₂ ⟨mod16 _, Mem.rd16_lt _ _, hr.DE⟩
    rw [eq₃]
    dsimp only
    obtain ⟨s₄, good₄, flat₄, eq₄⟩ := SIXHL2_spec
      (r := ⟨((r.BC + 2) % 65536 + 2) % 65536, Mem.rd16 s₂.flat ((r.BC + 2) % 65536),
        (r.DE + Mem.rd16 s₂.flat ((r.BC + 2) % 65536)) % 65536, this⟩) good₃ ⟨mod16 _, Mem.rd16_lt _ _, mod16 _⟩
    rw [eq₄]
    rw [flat₃, flat₂, flat₁, Nat.add_comm r.DE] at flat₄
    exact ⟨good₄, flat₄⟩
  · rw [if_neg touch, if_neg touch]
    exact ⟨h, rfl⟩

theorem kf2_agrees (size : ℕ) (h : s.Good g) (hr : r.Valid) (hx : r.IX < 65536) (hs : size < 65536) (flag : Bool)
    (hf : r.HL / 256 = if flag then 1 else 0) :
    (kf2 s r size).Good g ∧ (kf2 s r size).flat = Pool.kf2 s.flat r.IX r.BC flag r.DE size := by
  have this : (((r.DE + 2) % 65536 + 2) % 65536 + 65532) % 65536 = r.DE := by
    have := hr.DE
    omega
  obtain ⟨s₁, good₁, flat₁, eq₁⟩ := STIXHL_spec
    (r := { r with HL := r.DE, DE := size }) h ⟨hr.BC, hs, hr.DE⟩ hx
  obtain ⟨s₂, good₂, flat₂, eq₂⟩ := STHLBC_spec
    (r := { r with HL := r.DE, DE := size }) good₁ ⟨hr.BC, hs, hr.DE⟩
  obtain ⟨s₃, good₃, flat₃, eq₃⟩ := STHLDE_spec
    (r := { r with HL := (r.DE + 2) % 65536, DE := size }) good₂ ⟨hr.BC, hs, mod16 _⟩
  rw [flat₂, flat₁] at flat₃
  rw [kf2, Pool.kf2, eq₁]
  dsimp only
  rw [eq₂]
  dsimp only
  rw [eq₃]
  dsimp only
  rw [this, hf, ← flat₃]
  cases flag with
  | false =>
    rw [if_neg Bool.false_ne_true, if_pos rfl, if_neg fun both => Bool.false_ne_true both.1]
    exact kf3_agrees (r := { r with HL := r.DE, DE := size }) good₃ ⟨hr.BC, hs, hr.DE⟩ hr.DE
  | true =>
    obtain ⟨s₄, good₄, flat₄, eq₄⟩ := LDEIX2_spec
      (r := { r with HL := r.DE, DE := size }) good₃ ⟨hr.BC, hs, hr.DE⟩
    rw [if_pos rfl, if_neg Nat.one_ne_zero, eq₄]
    dsimp only
    have psize_small := Mem.rd16_lt s₃.flat ((r.IX + 2) % 65536)
    generalize Mem.rd16 s₃.flat ((r.IX + 2) % 65536) = psize at *
    by_cases touch : (r.IX + psize) % 65536 = r.DE
    · rw [if_pos touch, if_pos ⟨rfl, touch⟩]
      obtain ⟨s₅, good₅, flat₅, eq₅⟩ := STIXBC_spec
        (r := { r with HL := (psize + size) % 65536, DE := size }) good₄ ⟨hr.BC, hs, mod16 _⟩ hx
      rw [eq₅]
      dsimp only
      obtain ⟨s₆, good₆, flat₆, eq₆⟩ := SIXHL2_spec
        (r := { r with HL := (psize + size) % 65536, DE := size }) good₅ ⟨hr.BC, hs, mod16 _⟩
      rw [eq₆]
      dsimp only
      rw [flat₅, flat₄] at flat₆
      rw [← flat₆]
      exact kf3_agrees (r := ⟨r.BC, (psize + size) % 65536, size, r.DE⟩) good₆ ⟨hr.BC, mod16 _, hs⟩ hx
    · rw [if_neg touch, if_neg fun both => touch both.2, ← flat₄]
      exact kf3_agrees (r := { r with HL := psize, DE := size }) good₄ ⟨hr.BC, hs, psize_small⟩ hr.DE

theorem KFREE_agrees (h : s.Good g) (hr : r.Valid) (hp : pool < 65536) :
    (KFREE pool s r = none ∧ Pool.free pool s.flat r.HL r.DE = none) ∨
      ∃ s', KFREE pool s r = some s' ∧ s'.Good g ∧ Pool.free pool s.flat r.HL r.DE = some s'.flat := by
  rw [KFREE, Pool.free]
  by_cases none : round4 r.DE = 0
  · rw [if_pos none, if_pos none]
    exact Or.inr ⟨s, rfl, h, rfl⟩
  rw [if_neg none, if_neg none]
  have small : round4 r.DE < 65536 := by
    rw [round4]
    omega
  have low : round4 r.DE % 256 < 256 := Nat.mod_lt _ (by decide)
  rcases kf1_agrees (r := { r with DE := r.HL, HL := round4 r.DE % 256, IX := pool }) fuel h
    ⟨hr.BC, hr.HL, by dsimp only; omega⟩ hp false (Nat.div_eq_of_lt low)
    with ⟨loops, loops'⟩ | ⟨s₁, u, flag, stops, stops', good₁, flat₁, hu, hx, de, hf⟩
  · rw [loops, loops']
    exact Or.inl ⟨rfl, rfl⟩
  · obtain ⟨good₂, flat₂⟩ := kf2_agrees (round4 r.DE) good₁ hu hx small flag hf
    rw [flat₁, de] at flat₂
    rw [stops, stops']
    refine Or.inr ⟨_, rfl, good₂, ?_⟩
    rw [flat₂]
    rfl

/-! ### One call -/

variable {A : Area} {live : List Alloc} {calls : List Call} {c : Call} {polsz : ℕ}

theorem Agrees.KALLOC {n : ℕ} {x : Option (Except Err ℕ × Sys)} (agrees : Agrees g s.flat x (alloc A.head s.flat n))
    (holds : ∃ l, Holds A s.flat live l) :
    (∃ e t, x = some (.error e, t) ∧ alloc A.head s.flat n = some (.error e) ∧ t.Good g ∧ t.flat = s.flat) ∨
      ∃ a t, x = some (.ok a, t) ∧ alloc A.head s.flat n = some (.ok (a, t.flat)) ∧ t.Good g ∧
        ∃ l, Holds A t.flat ((a, n) :: live) l := by
  obtain ⟨l, holds⟩ := holds
  have returns := holds.alloc_ne_none n
  have next (a : ℕ) (m' : Mem) (runs : alloc A.head s.flat n = some (.ok (a, m'))) := holds.alloc runs
  generalize alloc A.head s.flat n = y at agrees returns next
  cases agrees with
  | loops => exact absurd rfl returns
  | error good flat => exact Or.inl ⟨_, _, rfl, rfl, good, flat⟩
  | ok good flat =>
    subst flat
    exact Or.inr ⟨_, _, rfl, rfl, good, next _ _ rfl⟩

/-- A call returns the same in both, and the pool is as well formed as before. -/
theorem call_agrees (h : s.Good g) (holds : ∃ l, Holds A s.flat live l) (owned : c.Owned live) :
    ∃ o t, c.vmr A.head s = some (o, t) ∧ c.kernel A.head s.flat = some (o, t.flat) ∧ t.Good g ∧
      ∃ l, Holds A t.flat (c.live live o) l := by
  have head : A.head < 65536 := Nat.lt_of_succ_lt A.head_lt
  cases c with
  | KALLOC r =>
    rcases (KALLOC_agrees h owned head).KALLOC holds with ⟨e, t, image, memory, good, flat⟩ | ⟨a, t, image, memory, good, holds'⟩
    · refine ⟨.addr (.error e), t, ?_, ?_, good, flat.symm ▸ holds⟩
      · rw [Call.vmr, image, Option.map_some]
      · rw [Call.kernel, memory, Option.map_some, flat]
    · refine ⟨.addr (.ok a), t, ?_, ?_, good, holds'⟩
      · rw [Call.vmr, image, Option.map_some]
      · rw [Call.kernel, memory, Option.map_some]
  | KFREE r =>
    obtain ⟨valid, member⟩ := owned
    obtain ⟨l, holds⟩ := holds
    obtain ⟨m', frees, holds'⟩ := (holds.perm (List.perm_cons_erase member)).free
    rcases KFREE_agrees h valid head with ⟨-, loops⟩ | ⟨t, image, good, memory⟩
    · cases frees.symm.trans loops
    · obtain rfl : m' = t.flat := Option.some.inj (frees.symm.trans memory)
      refine ⟨.done, t, ?_, ?_, good, _, holds'⟩
      · rw [Call.vmr, image, Option.map_some]
      · rw [Call.kernel, memory, Option.map_some]
  | store a x =>
    obtain ⟨y, member, low, high⟩ := owned
    obtain ⟨l, holds⟩ := holds
    have inside := (holds.live_in y member).fits.top_lt
    have small : a < 65536 := by
      change y.1 + round4 y.2 < 65536 at inside
      omega
    obtain ⟨t, good, flat, eq⟩ := SPUTB_bank (r := ⟨0, 0, a, 0⟩) h ⟨Nat.zero_lt_succ _, Nat.zero_lt_succ _, small⟩ rfl x.toNat
    rw [UInt8.ofNat_toNat] at flat
    refine ⟨.done, t, ?_, ?_, good, l, ?_⟩
    · rw [Call.vmr, eq]
    · rw [Call.kernel, flat]
    · rw [flat]
      refine holds.store member fun b outside => Mem.wr8_ne _ _ ?_
      rintro rfl
      rcases outside with before | behind
      · exact absurd low (Nat.not_le_of_lt before)
      · exact absurd high (Nat.not_lt_of_le behind)

/-! ### All calls -/

theorem calls_agree (h : s.Good g) (holds : ∃ l, Holds A s.flat live l) (owned : Owned A.head calls s.flat live) :
    ∃ rets t, vmr A.head calls s = some (rets, t) ∧ kernel A.head calls s.flat = some (rets, t.flat) ∧ t.Good g := by
  induction calls generalizing s live with
  | nil => exact ⟨[], s, rfl, rfl, h⟩
  | cons c cs ih =>
    obtain ⟨o, t, image, memory, good, holds'⟩ := call_agrees h holds owned.1
    obtain ⟨rets, u, image', memory', good'⟩ := ih good holds' (owned.2 o t.flat memory)
    refine ⟨o :: rets, u, ?_, ?_, good'⟩
    · rw [vmr, image, Option.bind_some, image']
      rfl
    · rw [kernel, memory, Option.bind_some, memory']
      rfl

theorem wr16_same (m : Mem) (a : ℕ) : m.wr16 a (m.rd16 a) = m := by
  have low : UInt8.ofNat (m.rd16 a) = m a := by
    rw [Mem.rd16, ← UInt8.toNat_inj, UInt8.toNat_ofNat']
    have := (m a).toNat_lt
    omega
  have high : UInt8.ofNat (m.rd16 a / 256) = m ((a + 1) % 65536) := by
    rw [Mem.rd16, ← UInt8.toNat_inj, UInt8.toNat_ofNat']
    have := (m a).toNat_lt
    have := (m ((a + 1) % 65536)).toNat_lt
    omega
  rw [Mem.wr16, low, high, Mem.wr8, Mem.wr8, Function.update_eq_self, Function.update_eq_self]

/-- The start of the pool and its size are known, and `KMINIT` makes one block of it. -/
theorem KMINIT_spec (h : s.Good g) (hr : r.Valid) (start : Mem.rd16 s.flat A.head = A.base)
    (size : Mem.rd16 s.flat polsz = A.size) (below : polsz + 1 < A.base) :
    (KMINIT A.head polsz s r).Good g ∧ (KMINIT A.head polsz s r).flat = Pool.kminit A s.flat := by
  have head := A.head_lt
  have top := A.top_lt
  have four := Nat.le_of_dvd A.size_pos A.size_dvd
  have second : (A.base + 2) % 65536 = A.base + 2 := Nat.mod_eq_of_lt (by omega)
  obtain ⟨s₁, good₁, flat₁, eq₁⟩ := LDDEHL_spec
    (r := { r with HL := A.head }) h ⟨hr.BC, hr.DE, Nat.lt_of_succ_lt head⟩
  rw [start] at eq₁
  obtain ⟨s₂, good₂, flat₂, eq₂⟩ := STHLDE_spec
    (r := { r with HL := A.base, DE := 0 }) good₁ ⟨hr.BC, Nat.zero_lt_succ _, by dsimp only; omega⟩
  obtain ⟨s₃, good₃, flat₃, eq₃⟩ := LDDEHL_spec
    (r := { r with HL := polsz, DE := 0 }) good₂ ⟨hr.BC, Nat.zero_lt_succ _, by dsimp only; omega⟩
  have apart : Mem.rd16 s₂.flat polsz = A.size := by
    rw [flat₂, flat₁, ← size]
    exact Mem.rd16_wr16_ne _ _ (by dsimp only; omega) (by omega) (Or.inr below)
  rw [apart] at eq₃
  obtain ⟨s₄, good₄, flat₄, eq₄⟩ := STHLDE_spec
    (r := { r with HL := A.base + 2, DE := A.size }) good₃
    ⟨hr.BC, Nat.lt_of_le_of_lt (Nat.le_add_left _ _) top, by dsimp only; omega⟩
  have result : KMINIT A.head polsz s r = s₄ := by
    rw [KMINIT, eq₁]
    dsimp only
    rw [eq₂]
    dsimp only
    rw [eq₃]
    dsimp only
    rw [second, eq₄]
  have written : Mem.wr16 s.flat A.head A.base = s.flat := start ▸ wr16_same s.flat A.head
  refine ⟨result.symm ▸ good₄, ?_⟩
  rw [result, flat₄, flat₃, flat₂, flat₁, Pool.kminit]
  dsimp only
  rw [written]

/-- The calls after `KMINIT` return what they would in the kernel, and the image has the memory that the
kernel would have. -/
theorem pool_agrees (A : Area) (f : File) (behind : Bytes) (polsz : ℕ) (r : Regs) (calls : List Call)
    (whole : f.Whole) (small : f.nused < 65536) (hr : r.Valid) (start : Mem.rd16 f.content A.head = A.base)
    (size : Mem.rd16 f.content polsz = A.size) (below : polsz + 1 < A.base)
    (owned : Owned A.head calls (Pool.kminit A f.content) []) :
    ∃ rets s m, vmr A.head calls (KMINIT A.head polsz (SYSOPN f behind) r) = some (rets, s) ∧
      kernel A.head calls (Pool.kminit A f.content) = some (rets, m) ∧ (SYSCLS s).content = m := by
  have good := Good_SYSOPN (g := behind) whole small
  rw [whole.content] at start size owned ⊢
  obtain ⟨good₁, flat₁⟩ := KMINIT_spec (A := A) good hr start size below
  have flat₂ : (KMINIT A.head polsz (SYSOPN f behind) r).flat = Pool.kminit A f.flat := flat₁
  rw [← flat₂] at owned ⊢
  have holds : ∃ l, Holds A (KMINIT A.head polsz (SYSOPN f behind) r).flat [] l :=
    ⟨_, flat₂.symm ▸ Pool.holds_kminit A f.flat⟩
  obtain ⟨rets, t, image, memory, good₂⟩ := calls_agree good₁ holds owned
  obtain ⟨whole', flat₃⟩ := SYSCLS_spec good₂
  exact ⟨rets, t, t.flat, image, memory, whole'.content.trans flat₃⟩

end

/-- An image with `$POOL` and `$POLSZ` set up, and zeros else. -/
def image : File where
  nused := 128
  lbcnt := 512
  block j := if j < 128 then some fun i =>
      if 512 * j + i = 0x53D8 then 0x9C else if 512 * j + i = 0x53D9 then 0x54
      else if 512 * j + i = 0x53DA then 0x64 else if 512 * j + i = 0x53DB then 0x9B else 0
    else none

theorem image_whole : image.Whole := by
  refine ⟨Nat.le_refl _, fun j => ?_, fun _ i _ full lt => absurd lt (Nat.not_lt_of_le full)⟩
  rw [image]
  dsimp only
  by_cases inside : j < 128
  · rw [if_pos inside]
    exact iff_of_true rfl inside
  · rw [if_neg inside]
    exact iff_of_false Bool.false_ne_true inside

/-- Ten bytes are allocated. -/
theorem pool_agrees_ten : ∃ rets s m,
    vmr 0x53D8 [.KALLOC ⟨10, 0, 0, 0⟩] (KMINIT 0x53D8 0x53DA (SYSOPN image fun _ => 0) ⟨0, 0, 0, 0⟩) = some (rets, s) ∧
      kernel 0x53D8 [.KALLOC ⟨10, 0, 0, 0⟩]
        (Pool.kminit (Pool.inisysArea 0x53D8 0x5499 (by decide) (by decide)) image.content) = some (rets, m) ∧
      (SYSCLS s).content = m :=
  pool_agrees (Pool.inisysArea 0x53D8 0x5499 (by decide) (by decide)) image (fun _ => 0) 0x53DA ⟨0, 0, 0, 0⟩
    [.KALLOC ⟨10, 0, 0, 0⟩] image_whole (by decide) ⟨by decide, by decide, by decide⟩ rfl rfl (by decide)
    ⟨⟨by decide, by decide, by decide⟩, fun _ _ _ => trivial⟩

end RSX280.Kpool
