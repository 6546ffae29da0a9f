import RSX280.FileMaps
import RSX280.Vol180

/-!
# Blocks of a file in vol180

`file_vbn_to_lbn` finds a block of a file as `V2LBN1` does, without anything remembered of the chain of
allocation blocks. It looks at the blocks in use only, and in an allocation block it does not look whether
a cluster is allocated.
-/

namespace RSX280.Vol180

open Fileio (Fcb Volume)
open Fileio.Fcb (avbn blkptr)
open Bitmap (bk2cl)

/-- An open file: what is in the FCB and its header. -/
structure File where
  ctg : Bool
  nalloc : ℕ
  nused : ℕ
  lbcount : ℕ
  /-- six entries -/
  bmap : ℕ → ℕ
  curalloc : ℕ
  curblk : ℕ
  byteptr : ℕ

/-- `GET_INT24` of a block -/
def get24 (s : St) (blkno i : ℕ) : ℕ := Fileio.Block.get (s.data blkno) i

/-- The `next` links of some allocation blocks are followed, from the one in the buffer. Without a next one
`curalloc` is zero, and the last one remains in the buffer. None is a buffer that is not there. -/
def follow (v : Vol) : ℕ → ℕ → St → Option (ℕ × St)
  | 0, curalloc, s => some (curalloc, s)
  | q + 1, curalloc, s =>
    let next := get24 s curalloc 3
    if next = 0 then some (0, s)
    else
      match get_block v (release_block s curalloc) next with
      | none => none
      | some s => follow v q next s

/-- `file_vbn_to_lbn`: the logical block, if it is found. -/
def file_vbn_to_lbn (v : Vol) (f : File) (s : St) (vbn : ℕ) : Option (Option ℕ × File × St) :=
  if f.nused = 0 then some (none, f, s)
  else if f.nused ≤ vbn then some (none, f, s)
  else
    let f := { f with curblk := vbn }
    if f.ctg then some (some (f.bmap 0 + vbn), f, s)
    else
      let vcn := vbn >>> v.clfactor
      let offset := vbn % 2 ^ v.clfactor
      if vcn < 5 then
        let f := { f with curalloc := 0 }
        if f.bmap vcn = 0 then some (none, f, s) else some (some (f.bmap vcn + offset), f, s)
      else if f.bmap 5 = 0 then some (none, { f with curalloc := 0 }, s)
      else
        match get_block v s (f.bmap 5) with
        | none => none
        | some s =>
          match follow v ((vcn - 5) / 168) (f.bmap 5) s with
          | none => none
          | some (curalloc, s) =>
            let f := { f with curalloc }
            if curalloc = 0 then some (none, f, s)
            else
              let lbn := get24 s curalloc (6 + (vcn - 5) % 168 * 3)
              some (some (lbn + offset), f, release_block s curalloc)

/-! ### Inodes -/

/-- The allocation blocks of a file, one linked to the other. -/
structure Chained (v : Vol) (disk : ℕ → Fileio.Block) (first : ℕ) (l : List ℕ) : Prop where
  first : first = l[0]?.getD 0
  block : ∀ i m : ℕ, l[i]? = some m → m ≠ 0 ∧ m < v.nblocks
  next : ∀ i m : ℕ, l[i]? = some m → (disk m).get 3 = l[i + 1]?.getD 0
  prev : ∀ i m : ℕ, l[i + 1]? = some m → l[i]? = some ((disk m).get 0)

/-- The entry of a virtual cluster, zero for a hole, or none when its allocation block is not there. -/
def slot (disk : ℕ → Fileio.Block) (bmap : ℕ → ℕ) (l : List ℕ) (vcn : ℕ) : Option ℕ :=
  if vcn < 5 then some (bmap vcn) else l[avbn vcn]?.map fun m => (disk m).get (blkptr vcn)

/-- The logical block of a virtual block, if it is allocated. -/
def place (v : Vol) (f : File) (s : St) (l : List ℕ) (vbn : ℕ) : Option ℕ :=
  if f.ctg then some (f.bmap 0 + vbn)
  else (slot s.data f.bmap l (vbn >>> v.clfactor)).bind fun e =>
    if e = 0 then none else some (e + vbn % 2 ^ v.clfactor)

/-- A file with the allocation blocks `l`. Its blocks are on the volume. -/
structure WellFormed (v : Vol) (f : File) (s : St) (l : List ℕ) : Prop where
  chain : Chained v s.data (f.bmap 5) l
  used : f.nused ≤ f.nalloc
  alloc : f.nalloc < 16777216
  contiguous : f.ctg = true → f.bmap 0 + f.nalloc ≤ v.nblocks
  mapped : f.ctg = false → ∀ vcn e, slot s.data f.bmap l vcn = some e → e ≠ 0 → e + 2 ^ v.clfactor ≤ v.nblocks

/-- The file has this block. -/
def Belongs (v : Vol) (f : File) (s : St) (l : List ℕ) (lbn : ℕ) : Prop :=
  if f.ctg then f.bmap 0 ≤ lbn ∧ lbn < f.bmap 0 + f.nalloc
  else ∃ vcn e, slot s.data f.bmap l vcn = some e ∧ e ≠ 0 ∧ e ≤ lbn ∧ lbn < e + 2 ^ v.clfactor

/-- The same file as the ACP has it open. The allocation block that it remembers is the one with that
number. -/
structure Opened (v : Vol) (f : File) (s : St) (l : List ℕ) (w : Volume) (g : Fcb) : Prop where
  disk : w.disk = s.data
  clf : w.clf = v.clfactor
  ctg : g.ctg = f.ctg
  naloc : g.naloc = f.nalloc
  nused : g.nused = f.nused
  bmap : g.bmap = f.bmap
  cached : g.cavbn = 0 ∨ l[g.cavbn]? = some g.calbn

/-- A cluster that is not allocated, in an allocation block. -/
def Hole (v : Vol) (f : File) (s : St) (l : List ℕ) (vbn : ℕ) : Prop :=
  f.ctg = false ∧ 5 ≤ vbn >>> v.clfactor ∧ slot s.data f.bmap l (vbn >>> v.clfactor) = some 0

/-- The number of the allocation block has more than 16 bits. -/
def Far (v : Vol) (f : File) (vbn : ℕ) : Prop := f.ctg = false ∧ 65536 ≤ avbn (vbn >>> v.clfactor)

/-- What is found for a virtual block. -/
structure Agree (v : Vol) (f : File) (s : St) (l : List ℕ) (w : Volume) (g : Fcb) (vbn : ℕ) : Prop where
  allocated : ∀ lbn, ¬Far v f vbn → place v f s l vbn = some lbn →
    (g.v2lbn1 w vbn).1 = .ok lbn ∧ Belongs v f s l lbn
  unallocated : ¬Far v f vbn → place v f s l vbn = none →
    (g.v2lbn1 w vbn).1 = .error .una ∨ (g.v2lbn1 w vbn).1 = .error .eof
  far : Far v f vbn → (g.v2lbn1 w vbn).1 = .error .badop
  unused : f.nused ≤ vbn → ∃ f' s', file_vbn_to_lbn v f s vbn = some (none, f', s')
  used : vbn < f.nused → ¬Hole v f s l vbn →
    ∃ f' s', file_vbn_to_lbn v f s vbn = some (place v f s l vbn, f', s')

section

variable {v : Vol} {f : File} {s : St} {l : List ℕ} {w : Volume} {g : Fcb} {disk : ℕ → Fileio.Block}
  {vbn vcn i q m : ℕ}

/-! ### The ACP -/

theorem Chained.nxt1 {first : ℕ} (h : Chained v disk first l) (de : ℕ) (g : Fcb) (hg : l[i]? = some g.calbn) :
    (∃ m, l[i + de]? = some m ∧ (g.nxt1 disk de).1 = .ok () ∧ (g.nxt1 disk de).2.calbn = m) ∨
      (l[i + de]? = none ∧ ∃ e, (g.nxt1 disk de).1 = .error e ∧ e.err = .eof) := by
  induction de generalizing g i with
  | zero => exact Or.inl ⟨g.calbn, hg, rfl, rfl⟩
  | succ de ih =>
    have link := h.next i _ hg
    rw [Fcb.nxt1, link]
    cases next : l[i + 1]? with
    | none =>
      have beyond : l.length ≤ i + 1 := List.getElem?_eq_none_iff.mp next
      rw [Option.getD_none, if_pos rfl]
      exact Or.inr ⟨List.getElem?_eq_none_iff.mpr (by omega), _, rfl, rfl⟩
    | some m =>
      have sum : i + (de + 1) = i + 1 + de := by omega
      rw [Option.getD_some, if_neg (h.block _ m next).1, sum]
      exact ih _ next

theorem Chained.back {first : ℕ} (h : Chained v disk first l) (de : ℕ) (g : Fcb)
    (hg : l[i + de]? = some g.calbn) :
    ∃ m, l[i]? = some m ∧ (g.prev disk de).1 = .ok () ∧ (g.prev disk de).2.calbn = m := by
  induction de generalizing g with
  | zero => exact ⟨g.calbn, hg, rfl, rfl⟩
  | succ de ih =>
    have link := h.prev (i + de) _ hg
    rw [Fcb.prev, if_neg (h.block _ _ link).1]
    exact ih _ link

theorem Chained.start {first : ℕ} (h : Chained v disk first l) (n : ℕ) (g : Fcb) (hg : g.bmap 5 = first) :
    (∃ m, l[n]? = some m ∧ (g.start disk n).1 = .ok () ∧ (g.start disk n).2.calbn = m) ∨
      (l[n]? = none ∧ ∃ e, (g.start disk n).1 = .error e ∧ e.err = .eof) := by
  rw [Fcb.start]
  dsimp only
  rw [hg, h.first]
  cases head : l[0]? with
  | none =>
    have empty : l.length ≤ 0 := List.getElem?_eq_none_iff.mp head
    rw [Option.getD_none, if_pos rfl]
    exact Or.inr ⟨List.getElem?_eq_none_iff.mpr (by omega), _, rfl, rfl⟩
  | some m =>
    rw [Option.getD_some, if_neg (h.block 0 m head).1]
    have follows := h.nxt1 (i := 0) n { g with cavbn := 0, calbn := m } head
    rwa [Nat.zero_add] at follows

/-- `FNDALC` finds the allocation block, if it is there. -/
theorem Chained.fndalc {first : ℕ} (h : Chained v disk first l) (g : Fcb) (hg : g.bmap 5 = first)
    (cached : g.cavbn = 0 ∨ l[g.cavbn]? = some g.calbn) (short : avbn vcn < 65536) :
    (∃ m, l[avbn vcn]? = some m ∧ (g.fndalc disk vcn).1 = .ok () ∧ (g.fndalc disk vcn).2.calbn = m) ∨
      (l[avbn vcn]? = none ∧ ∃ e, (g.fndalc disk vcn).1 = .error e ∧ e.err = .eof) := by
  rw [Fcb.fndalc, if_neg (Nat.not_le_of_lt short)]
  by_cases zero : g.cavbn = 0
  · rw [if_pos zero]
    exact h.start _ g hg
  have here := cached.resolve_left zero
  rw [if_neg zero]
  by_cases same : avbn vcn = g.cavbn
  · rw [if_pos same, same]
    exact Or.inl ⟨_, here, rfl, rfl⟩
  rw [if_neg same]
  by_cases behind : g.cavbn < avbn vcn
  · have follows := h.nxt1 (avbn vcn - g.cavbn) g here
    rw [Nat.add_sub_of_le (Nat.le_of_lt behind)] at follows
    rwa [if_pos behind]
  rw [if_neg behind]
  split
  · exact h.start _ g hg
  · have sum : avbn vcn + (g.cavbn - avbn vcn) = g.cavbn := by omega
    obtain ⟨m, found, ok, calbn⟩ := h.back (i := avbn vcn) (g.cavbn - avbn vcn) g (by rwa [sum])
    exact Or.inl ⟨m, found, ok, calbn⟩

/-- `V2LBN1` finds what is allocated and belongs to the file. -/
theorem v2lbn1_some (h : WellFormed v f s l) (o : Opened v f s l w g) (hv : vbn < f.nalloc)
    (short : f.ctg = false → avbn (vbn >>> v.clfactor) < 65536) {lbn : ℕ} (placed : place v f s l vbn = some lbn) :
    (g.v2lbn1 w vbn).1 = .ok lbn ∧ Belongs v f s l lbn := by
  have size := v.size
  rw [Fcb.v2lbn1, o.ctg, Belongs]
  cases ctg : f.ctg with
  | true =>
    have room := h.contiguous ctg
    rw [place, ctg, if_pos rfl] at placed
    obtain rfl := Option.some.inj placed
    have sum : Fileio.add24 (g.bmap 0) vbn = f.bmap 0 + vbn := by
      rw [Fileio.add24, o.bmap]
      exact Nat.mod_eq_of_lt (by omega)
    rw [if_pos rfl, if_pos rfl, sum]
    exact ⟨rfl, by omega, by omega⟩
  | false =>
    rw [place, ctg, if_neg Bool.false_ne_true] at placed
    obtain ⟨e, entry, rest⟩ := Option.bind_eq_some_iff.mp placed
    have nonzero : e ≠ 0 := by
      rintro rfl
      cases rest
    rw [if_neg nonzero] at rest
    obtain rfl := Option.some.inj rest
    have room := h.mapped ctg _ e entry nonzero
    have offset : vbn % 2 ^ v.clfactor < 2 ^ v.clfactor := Nat.mod_lt _ (Nat.pow_pos (by decide))
    have sum : Fileio.add24 e (Fileio.rem vbn w.clf) = e + vbn % 2 ^ v.clfactor := by
      rw [Fileio.add24, Fileio.rem, o.clf]
      exact Nat.mod_eq_of_lt (by omega)
    rw [if_neg Bool.false_ne_true, if_neg Bool.false_ne_true]
    refine ⟨?_, _, e, entry, nonzero, by omega, by omega⟩
    have vcn : bk2cl vbn w.clf = vbn >>> v.clfactor := by rw [o.clf]; rfl
    rw [vcn]
    unfold Fcb.find
    dsimp only
    by_cases direct : vbn >>> v.clfactor < 5
    · rw [slot, if_pos direct] at entry
      have same : g.cluster w.disk (vbn >>> v.clfactor) = e := by
        rw [Fcb.cluster, if_pos direct, o.bmap]
        exact Option.some.inj entry
      rw [if_pos direct]
      dsimp only
      rw [same, if_neg nonzero, sum]
    · rw [slot, if_neg direct] at entry
      obtain ⟨m, block, rfl⟩ := Option.map_eq_some_iff.mp entry
      have bmap : g.bmap 5 = f.bmap 5 := congrFun o.bmap 5
      rw [if_neg direct, o.disk]
      rcases h.chain.fndalc g bmap o.cached (short ctg) with ⟨m', found, ok, calbn⟩ | ⟨none, -⟩
      · obtain rfl : m = m' := Option.some.inj (block.symm.trans found)
        generalize g.fndalc s.data (vbn >>> v.clfactor) = r at ok calbn
        obtain ⟨res, g'⟩ := r
        obtain rfl : res = .ok () := ok
        have same : g'.cluster s.data (vbn >>> v.clfactor)
            = Fileio.Block.get (s.data m) (blkptr (vbn >>> v.clfactor)) := by
          rw [Fcb.cluster, if_neg direct, calbn]
        dsimp only
        rw [same, if_neg nonzero, sum]
      · cases none.symm.trans block

/-- What is not allocated is an error. -/
theorem v2lbn1_none (h : WellFormed v f s l) (o : Opened v f s l w g)
    (short : f.ctg = false → avbn (vbn >>> v.clfactor) < 65536) (placed : place v f s l vbn = none) :
    (g.v2lbn1 w vbn).1 = .error .una ∨ (g.v2lbn1 w vbn).1 = .error .eof := by
  cases ctg : f.ctg with
  | true =>
    rw [place, ctg, if_pos rfl] at placed
    cases placed
  | false =>
    rw [place, ctg, if_neg Bool.false_ne_true] at placed
    have vcn : bk2cl vbn w.clf = vbn >>> v.clfactor := by rw [o.clf]; rfl
    have hole {e : ℕ} (entry : slot s.data f.bmap l (vbn >>> v.clfactor) = some e) : e = 0 := by
      by_contra nonzero
      rw [entry, Option.bind_some, if_neg nonzero] at placed
      cases placed
    rw [Fcb.v2lbn1, o.ctg, ctg, if_neg Bool.false_ne_true, vcn]
    unfold Fcb.find
    dsimp only
    by_cases direct : vbn >>> v.clfactor < 5
    · have zero : g.cluster w.disk (vbn >>> v.clfactor) = 0 := by
        rw [Fcb.cluster, if_pos direct, o.bmap]
        exact hole (by rw [slot, if_pos direct])
      rw [if_pos direct]
      dsimp only
      rw [zero, if_pos rfl]
      exact Or.inl rfl
    · have bmap : g.bmap 5 = f.bmap 5 := congrFun o.bmap 5
      rw [if_neg direct, o.disk]
      rcases h.chain.fndalc g bmap o.cached (short ctg) with ⟨m, found, ok, calbn⟩ | ⟨-, e, error, eof⟩
      · generalize g.fndalc s.data (vbn >>> v.clfactor) = r at ok calbn
        obtain ⟨res, g'⟩ := r
        obtain rfl : res = .ok () := ok
        have zero : g'.cluster s.data (vbn >>> v.clfactor) = 0 := by
          rw [Fcb.cluster, if_neg direct, calbn]
          exact hole (by rw [slot, if_neg direct, found]; rfl)
        dsimp only
        rw [zero, if_pos rfl]
        exact Or.inl rfl
      · generalize g.fndalc s.data (vbn >>> v.clfactor) = r at error
        obtain ⟨res, g'⟩ := r
        obtain rfl : res = .error e := error
        dsimp only
        rw [eof]
        exact Or.inr rfl

/-! ### vol180 -/

/-- The chain is followed to its block `i + q`, or to its end. -/
theorem Chained.follow {first : ℕ} {h : List ℕ} (c : Chained v s.data first l)
    (room : h.dedup.length < NBUFFERS) (q i m : ℕ) (hm : l[i]? = some m) :
    (∃ m', l[i + q]? = some m' ∧ follow v q m ⟨s.data, m :: h⟩ = some (m', ⟨s.data, m' :: h⟩)) ∨
      (l[i + q]? = none ∧ ∃ s', follow v q m ⟨s.data, m :: h⟩ = some (0, s')) := by
  induction q generalizing i m with
  | zero => exact Or.inl ⟨m, hm, rfl⟩
  | succ q ih =>
    have link : get24 ⟨s.data, m :: h⟩ m 3 = l[i + 1]?.getD 0 := c.next i m hm
    rw [Vol180.follow, link]
    cases next : l[i + 1]? with
    | none =>
      have beyond : l.length ≤ i + 1 := List.getElem?_eq_none_iff.mp next
      rw [Option.getD_none, if_pos rfl]
      exact Or.inr ⟨List.getElem?_eq_none_iff.mpr (by omega), _, rfl⟩
    | some m' =>
      obtain ⟨nonzero, there⟩ := c.block _ m' next
      have released : release_block ⟨s.data, m :: h⟩ m = ⟨s.data, h⟩ := by
        rw [release_block, List.erase_cons_head]
      have got : get_block v ⟨s.data, h⟩ m' = some ⟨s.data, m' :: h⟩ := by
        rw [get_block, if_neg (Nat.not_le_of_lt there), if_pos (Or.inr room)]
      have sum : i + (q + 1) = i + 1 + q := by omega
      rw [Option.getD_some, if_neg nonzero, released, got, sum]
      exact ih (i + 1) m' next

/-- What `file_vbn_to_lbn` finds among the blocks in use: the entry, which it checks only in the FCB. -/
theorem vbn_to_lbn_used (c : Chained v s.data (f.bmap 5) l) (room : s.held.dedup.length < NBUFFERS) (hv : vbn < f.nused) :
    ∃ f' s', file_vbn_to_lbn v f s vbn = some (if f.ctg then some (f.bmap 0 + vbn) else
      (slot s.data f.bmap l (vbn >>> v.clfactor)).bind fun e =>
        if vbn >>> v.clfactor < 5 ∧ e = 0 then none else some (e + vbn % 2 ^ v.clfactor), f', s') := by
  rw [file_vbn_to_lbn, if_neg (by omega), if_neg (by omega)]
  dsimp only
  cases ctg : f.ctg with
  | true => exact ⟨_, _, rfl⟩
  | false =>
    rw [if_neg Bool.false_ne_true, if_neg Bool.false_ne_true, slot]
    by_cases direct : vbn >>> v.clfactor < 5
    · rw [if_pos direct, if_pos direct, Option.bind_some]
      by_cases zero : f.bmap (vbn >>> v.clfactor) = 0
      · rw [if_pos zero, if_pos ⟨direct, zero⟩]
        exact ⟨_, _, rfl⟩
      · rw [if_neg zero, if_neg fun both => zero both.2]
        exact ⟨_, _, rfl⟩
    · rw [if_neg direct, if_neg direct]
      cases head : l[0]? with
      | none =>
        have empty : l.length ≤ 0 := List.getElem?_eq_none_iff.mp head
        have zero : f.bmap 5 = 0 := by rw [c.first, head, Option.getD_none]
        have missing : l[avbn (vbn >>> v.clfactor)]? = none := List.getElem?_eq_none_iff.mpr (by omega)
        rw [if_pos zero, missing]
        exact ⟨_, _, rfl⟩
      | some m =>
        obtain ⟨nonzero, there⟩ := c.block 0 m head
        have first : f.bmap 5 = m := by rw [c.first, head, Option.getD_some]
        have got : get_block v s m = some ⟨s.data, m :: s.held⟩ := by
          rw [get_block, if_neg (Nat.not_le_of_lt there), if_pos (Or.inr room)]
        rw [first, if_neg nonzero, got]
        dsimp only
        have followed := c.follow room ((vbn >>> v.clfactor - 5) / 168) 0 m head
        rw [Nat.zero_add] at followed
        rcases followed with ⟨m', found, goes⟩ | ⟨missing, s', goes⟩
        · have chain : l[avbn (vbn >>> v.clfactor)]? = some m' := found
          have ptr : blkptr (vbn >>> v.clfactor) = 6 + (vbn >>> v.clfactor - 5) % 168 * 3 := by
            rw [blkptr]
            omega
          rw [goes, chain, Option.map_some, Option.bind_some, ptr]
          dsimp only
          rw [if_neg (c.block _ m' found).1, if_neg fun both => direct both.1]
          exact ⟨_, _, rfl⟩
        · have chain : l[avbn (vbn >>> v.clfactor)]? = none := missing
          rw [goes, chain]
          exact ⟨_, _, rfl⟩

theorem vbn_to_lbn_unused (beyond : f.nused ≤ vbn) : file_vbn_to_lbn v f s vbn = some (none, f, s) := by
  rw [file_vbn_to_lbn, if_pos beyond, ite_self]

/-- What `file_vbn_to_lbn` finds is the place of the block, but for a hole in an allocation block. -/
theorem vbn_to_lbn_place (h : WellFormed v f s l) (room : s.held.dedup.length < NBUFFERS) (hv : vbn < f.nused)
    (mapped : ¬Hole v f s l vbn) :
    ∃ f' s', file_vbn_to_lbn v f s vbn = some (place v f s l vbn, f', s') := by
  obtain ⟨f', s', found⟩ := vbn_to_lbn_used h.chain room hv
  refine ⟨f', s', found.trans (congrArg (fun r => some (r, f', s')) ?_)⟩
  rw [place]
  cases ctg : f.ctg with
  | true => rfl
  | false =>
    rw [if_neg Bool.false_ne_true, if_neg Bool.false_ne_true]
    cases entry : slot s.data f.bmap l (vbn >>> v.clfactor) with
    | none => rfl
    | some e =>
      rw [Option.bind_some, Option.bind_some]
      by_cases zero : e = 0
      · -- a hole, so it is one of the FCB
        have direct : vbn >>> v.clfactor < 5 := by
          by_contra chained
          exact mapped ⟨ctg, Nat.le_of_not_lt chained, by rw [entry, zero]⟩
        rw [if_pos ⟨direct, zero⟩, if_pos zero]
      · rw [if_neg fun both => zero both.2, if_neg zero]

/-- `FNDALC` counts the allocation blocks with 16 bits. -/
theorem v2lbn1_far (o : Opened v f s l w g) (far : Far v f vbn) : (g.v2lbn1 w vbn).1 = .error .badop := by
  have vcn : bk2cl vbn w.clf = vbn >>> v.clfactor := by rw [o.clf]; rfl
  have chained : ¬vbn >>> v.clfactor < 5 := by
    intro direct
    have many := far.2
    rw [avbn] at many
    omega
  rw [Fcb.v2lbn1, o.ctg, far.1, if_neg Bool.false_ne_true, vcn]
  unfold Fcb.find
  dsimp only
  rw [if_neg chained, Fcb.fndalc, if_pos far.2]

/-- For a block below the allocated size, `V2LBN1` gives its place or an error, and `file_vbn_to_lbn` the
same place among the blocks in use. -/
theorem maps_agree (v : Vol) (f : File) (s : St) (l : List ℕ) (w : Volume) (g : Fcb) (vbn : ℕ)
    (h : WellFormed v f s l) (o : Opened v f s l w g) (room : s.held.dedup.length < NBUFFERS)
    (hv : vbn < f.nalloc) : Agree v f s l w g vbn where
  allocated _ near placed := v2lbn1_some h o hv (fun ctg => Nat.lt_of_not_le fun far => near ⟨ctg, far⟩) placed
  unallocated near placed := v2lbn1_none h o (fun ctg => Nat.lt_of_not_le fun far => near ⟨ctg, far⟩) placed
  far := v2lbn1_far o
  unused beyond := ⟨_, _, vbn_to_lbn_unused beyond⟩
  used := vbn_to_lbn_place h room

end

/-- A volume of four blocks, the second one with the bitmap. -/
def four : Vol := { nblocks := 4, bmblock := 1, clfactor := 0, size := by decide, inside := by decide }

/-- All bytes are zero. -/
def zeroed : St := ⟨fun _ _ => 0, []⟩

/-- A contiguous file with the last two blocks, the first one in use. -/
def pair : File where
  ctg := true
  nalloc := 2
  nused := 1
  lbcount := 0
  bmap i := if i = 0 then 2 else 0
  curalloc := 0
  curblk := 0
  byteptr := 0

/-- The index file entry, in every place. -/
def pairInode : Fileio.Inode := ⟨1, true, 1, 1, 0xFFFF, 2, 1, 0, pair.bmap⟩

def fourMounted : Volume where
  clf := 0
  blks := 4
  bm := zeroed.data
  free := 2
  disk := zeroed.data
  inodes _ := pairInode

def pairFcb : Fcb := ⟨true, true, true, false, 1, 1, 0xFFFF, 6, 2, 1, 0, pair.bmap, 0, 0⟩

theorem pair_wellFormed : WellFormed four pair zeroed [] where
  chain :=
    { first := rfl
      block := fun _ _ found => absurd found (by simp)
      next := fun _ _ found => absurd found (by simp)
      prev := fun _ _ found => absurd found (by simp) }
  used := by decide
  alloc := by decide
  contiguous _ := by decide
  mapped ctg := absurd ctg (by decide)

theorem pair_opened : Opened four pair zeroed [] fourMounted pairFcb :=
  ⟨rfl, rfl, rfl, rfl, rfl, rfl, Or.inl rfl⟩

/-- The first block is found. -/
theorem maps_agree_pair : ∃ f' s', file_vbn_to_lbn four pair zeroed 0 = some (some 2, f', s') :=
  (maps_agree four pair zeroed [] fourMounted pairFcb 0 pair_wellFormed pair_opened (by decide) (by decide)).used
    (by decide) fun hole => absurd hole.1 (by decide)

/-- Block 1 is allocated and not in use. -/
theorem unused_not_found : ¬∀ (v : Vol) (f : File) (s : St) (l : List ℕ) (w : Volume) (g : Fcb) (vbn : ℕ),
    WellFormed v f s l → Opened v f s l w g → s.held.dedup.length < NBUFFERS → vbn < f.nalloc →
      ∀ lbn, (g.v2lbn1 w vbn).1 = .ok lbn → ∃ f' s', file_vbn_to_lbn v f s vbn = some (some lbn, f', s') := by
  intro h
  have given : (pairFcb.v2lbn1 fourMounted 1).1 = .ok 3 := rfl
  obtain ⟨f', s', found⟩ := h four pair zeroed [] fourMounted pairFcb 1 pair_wellFormed pair_opened (by decide)
    (by decide) 3 given
  cases found

end RSX280.Vol180
