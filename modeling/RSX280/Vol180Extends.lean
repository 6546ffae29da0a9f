import RSX280.Vol180Needs

/-!
# Failures of `file_extend`

When it fails, a file should be as it was before (`Atomic`). A contiguous file has more blocks in use than it
has then. The other files are right when there are enough free clusters, or when there is none at all and a
cluster is what is needed first (`extend_right_iff`).
-/

namespace RSX280.Vol180

open Bitmap (vb hp Blocks)

/-- After a failure: the file, its allocation blocks and the bitmap are as they were, and so is what later
reads and writes get to. -/
structure Atomic (v : Vol) (f : File) (s : St) (l : List ℕ) (f' : File) (s' : St) : Prop where
  nused : f'.nused = f.nused
  nalloc : f'.nalloc = f.nalloc
  bmap : f'.bmap = f.bmap
  maps : ∀ m ∈ l, s'.data m = s.data m
  bitmap : ∀ c < v.clusters, (s'.bits v).used c = (s.bits v).used c
  lbns : ∀ vbn, (file_vbn_to_lbn v f' s' vbn).map Prod.fst = (file_vbn_to_lbn v f s vbn).map Prod.fst

/-- What should be when `file_extend` fails. -/
def Fails (v : Vol) (f : File) (s : St) (l : List ℕ) (vbn : ℕ) : Prop :=
  ∀ f' s', file_extend v f s vbn = some (false, f', s') → Atomic v f s l f' s'

/-- The clusters that are needed for the entries up to `vcn`, of those that are in allocation blocks. Behind the
last block it counts from the last one on. -/
def map_need (v : Vol) (s : St) (l : List ℕ) (vcn : ℕ) : ℕ :=
  match l[vcn / 168]? with
  | some m => zeros (fun i => get24 s m (6 + 3 * i)) 0 (vcn % 168 + 1)
    + if vcn % 168 = 167 then next_need v s m else 0
  | none => vcn - 168 * (l.length - 1) + 1
    + (last v (l.getLast?.getD 0) + 1 + (vcn - 168 * (l.length - 1) + 1) / 168) / 2 ^ v.clfactor

/-- The clusters that are needed for a block. -/
def need (v : Vol) (f : File) (s : St) (l : List ℕ) (vbn : ℕ) : ℕ :=
  if up v vbn < 5 then zeros f.bmap 0 (up v vbn + 1) else map_need v s l (up v vbn - 5)

/-- A new allocation block is linked to the last one before any cluster is needed. -/
def Links (v : Vol) (l : List ℕ) (vbn : ℕ) : Prop :=
  5 ≤ up v vbn ∧ l[(up v vbn - 5) / 168]? = none ∧ (last v (l.getLast?.getD 0) + 1) / 2 ^ v.clfactor = 0

/-- A file on a volume with the first `n` bits of its bitmap: the allocation blocks are in clusters of their
own. Two buffers are to spare. -/
structure Sound (v : Vol) (n : ℕ) (f : File) (s : St) (l : List ℕ) : Prop where
  chain : Chained v s.data (f.bmap 5) l
  kept : Kept v n s
  mine : ∀ m ∈ l, Mine v n m
  room : s.held.dedup.length + 1 < NBUFFERS

/-- Nothing fails, or nothing has been done before. -/
def Meant (v : Vol) (f : File) (s : St) (l : List ℕ) (vbn : ℕ) : Prop :=
  vbn < f.nused ∨
    if f.ctg then vbn < f.nalloc
    else need v f s l vbn ≤ free_clusters v s ∨ (Full v s ∧ ¬Links v l vbn)

section

variable {v : Vol} {f f' : File} {s s' : St} {l h : List ℕ} {n i m q vcn vbn prev : ℕ}

/-! ### The chain -/

theorem Sound.mono {n' : ℕ} (sound : Sound v n f s l) (le : n' ≤ n) : Sound v n' f s l :=
  ⟨sound.chain, ⟨sound.kept.boot, fun i hi => sound.kept.map i (by omega)⟩,
    fun m hm => ⟨(sound.mine m hm).whole, fun i hi => (sound.mine m hm).apart i (by omega)⟩, sound.room⟩

/-- The `while` loop gets to the block of the entry, or stops at the last one. -/
theorem Chained.walk {first : ℕ} (c : Chained v s.data first l) (room : h.dedup.length < NBUFFERS) (q i m prev vcn : ℕ)
    (hm : l[i]? = some m) :
    (∃ m' prev', l[i + q]? = some m' ∧
        walk v q prev m vcn ⟨s.data, m :: h⟩ = some (prev', m', vcn - 168 * q, ⟨s.data, m' :: h⟩)) ∨
      (l[i + q]? = none ∧ ∃ m', l.getLast? = some m' ∧
        walk v q prev m vcn ⟨s.data, m :: h⟩ = some (m', 0, vcn - 168 * (l.length - 1 - i), ⟨s.data, m' :: h⟩)) := by
  induction q generalizing i m prev vcn with
  | zero => exact Or.inl ⟨m, prev, hm, rfl⟩
  | succ q ih =>
    have link : get24 ⟨s.data, m :: h⟩ m 3 = l[i + 1]?.getD 0 := c.next i m hm
    have sum : i + (q + 1) = i + 1 + q := by omega
    rw [Vol180.walk, link, sum]
    cases next : l[i + 1]? with
    | none =>
      have beyond : l.length ≤ i + 1 := List.getElem?_eq_none_iff.mp next
      obtain ⟨inside, -⟩ := List.getElem?_eq_some_iff.mp hm
      have length : l.length - 1 = i := by omega
      rw [Option.getD_none, if_pos rfl, length, Nat.sub_self, Nat.mul_zero, Nat.sub_zero]
      refine Or.inr ⟨List.getElem?_eq_none_iff.mpr (by omega), m, ?_, rfl⟩
      rw [List.getLast?_eq_getElem?, length, hm]
    | some m' =>
      obtain ⟨nonzero, there⟩ := c.block _ m' next
      rw [Option.getD_some, if_neg nonzero, release_cons, get_block_some there room]
      dsimp only
      obtain ⟨inside, -⟩ := List.getElem?_eq_some_iff.mp next
      rcases ih (i + 1) m' m (vcn - 168) next with ⟨m'', prev', found, goes⟩ | ⟨missing, m'', end_, goes⟩
      · have less : vcn - 168 - 168 * q = vcn - 168 * (q + 1) := by omega
        rw [less] at goes
        exact Or.inl ⟨m'', prev', found, goes⟩
      · have less : vcn - 168 - 168 * (l.length - 1 - (i + 1)) = vcn - 168 * (l.length - 1 - i) := by omega
        rw [less] at goes
        exact Or.inr ⟨missing, m'', end_, goes⟩

/-- The block of the entry is found, or the one that a new block is linked to. -/
theorem Sound.find_map (sound : Sound v n f s l) (vcn : ℕ) :
    (∃ m prev, l[vcn / 168]? = some m ∧
        find_map v vcn f s = some (prev, m, vcn % 168, ⟨s.data, m :: s.held⟩)) ∨
      (l[vcn / 168]? = none ∧ find_map v vcn f s = some (l.getLast?.getD 0, 0, vcn - 168 * (l.length - 1),
        ⟨s.data, if l.getLast?.getD 0 = 0 then s.held else l.getLast?.getD 0 :: s.held⟩)) := by
  have room := sound.room
  have c := sound.chain
  rw [Vol180.find_map, c.first]
  cases head : l[0]? with
  | none =>
    obtain rfl : l = [] := List.length_eq_zero_iff.mp (Nat.le_zero.mp (List.getElem?_eq_none_iff.mp head))
    exact Or.inr ⟨rfl, rfl⟩
  | some m =>
    obtain ⟨nonzero, there⟩ := c.block 0 m head
    rw [Option.getD_some, if_neg nonzero, get_block_some there (by omega)]
    dsimp only
    have walked := c.walk (h := s.held) (by omega) (vcn / 168) 0 m 0 vcn head
    rw [Nat.zero_add, Nat.sub_zero] at walked
    rcases walked with ⟨m', prev', found, goes⟩ | ⟨missing, m', end_, goes⟩
    · have rest : vcn - 168 * (vcn / 168) = vcn % 168 := by omega
      rw [rest] at goes
      exact Or.inl ⟨m', prev', found, goes⟩
    · have member := List.mem_of_getLast? end_
      obtain ⟨i, inside⟩ := List.mem_iff_getElem?.mp member
      rw [end_, Option.getD_some, if_neg (c.block i m' inside).1]
      exact Or.inr ⟨missing, goes⟩

/-! ### Clusters -/

theorem Ends.set_nused {d : ℕ} {r : Option (Bool × File × St)} (vbn : ℕ) (e : Ends v n s d r) :
    Ends v n s d (r.map (set_nused vbn)) := by
  refine ⟨fun le => ?_, fun lt hn tail => ?_⟩
  · obtain ⟨f', s', rfl⟩ := e.enough le
    exact ⟨_, _, rfl⟩
  · obtain ⟨f', s', rfl, none⟩ := e.short lt hn tail
    exact ⟨f', s', rfl, none⟩

theorem Sound.next_there (sound : Sound v n f s l) (hm : l[i]? = some m) : get24 s m 3 < v.nblocks := by
  have link : get24 s m 3 = l[i + 1]?.getD 0 := sound.chain.next i m hm
  rw [link]
  cases next : l[i + 1]? with
  | none => exact Nat.lt_of_le_of_lt (Nat.zero_le _) v.inside
  | some m' => exact (sound.chain.block _ m' next).2

theorem last_mem (nonzero : l.getLast?.getD 0 ≠ 0) : l.getLast?.getD 0 ∈ l := by
  cases end_ : l.getLast? with
  | none =>
    rw [end_] at nonzero
    exact absurd rfl nonzero
  | some m => exact List.mem_of_getLast? end_

/-- What `file_extend` needs for a file that is not contiguous. -/
theorem Sound.ends (sound : Sound v n f s l) (hn : v.clusters ≤ n) (ctg : f.ctg = false) (beyond : ¬vbn < f.nused) :
    Ends v n s (need v f s l vbn) (file_extend v f s vbn) := by
  have room := sound.room
  rw [file_extend, if_neg beyond, ctg, if_neg Bool.false_ne_true, need]
  by_cases direct : up v vbn < 5
  · rw [if_pos direct, if_pos direct]
    exact direct_loop_ends sound.kept (by omega)
  rw [if_neg direct, if_neg direct, map_need]
  rcases sound.find_map (up v vbn - 5) with ⟨m, prev, found, goes⟩ | ⟨missing, goes⟩
  · obtain ⟨nonzero, -⟩ := sound.chain.block _ m found
    have member := List.mem_of_getElem? found
    have held : Step v n s ⟨s.data, m :: s.held⟩ 0 := Step.refl sound.kept rfl
    have loop : Ends v n ⟨s.data, m :: s.held⟩ _
        (map_loop v ((up v vbn - 5) % 168) (6 + 3 * 0) { f with curalloc := m } ⟨s.data, m :: s.held⟩) :=
      map_loop_old held.kept hn nonzero (sound.mine m member) rfl room (by omega) (sound.next_there found)
    rw [Nat.zero_add] at loop
    have ends := held.ends (loop.set_nused vbn)
    rw [Nat.zero_add] at ends
    rw [found, goes]
    dsimp only
    rw [if_neg nonzero, ← ctg]
    exact ends
  · have pos : 0 < 2 ^ v.clfactor := Nat.pow_pos (by decide)
    have member (nonzero : l.getLast?.getD 0 ≠ 0) := sound.mine _ (last_mem nonzero)
    rw [missing, goes]
    dsimp only
    rw [if_pos rfl]
    generalize l.getLast?.getD 0 = prev at member
    generalize vcn : up v vbn - 5 - 168 * (l.length - 1) = k
    generalize same : (⟨s.data, if prev = 0 then s.held else prev :: s.held⟩ : St) = s'
    have held : Step v n s s' 0 := by
      rw [← same]
      exact Step.refl sound.kept rfl
    have held' : s'.held = if prev = 0 then s.held else prev :: s.held := by rw [← same]
    have sum : k + 1 + (last v prev + 1 + (k + 1) / 168) / 2 ^ v.clfactor = 0 + ((last v prev + 1) / 2 ^ v.clfactor
        + (1 + (k + ((last v prev + 1) % 2 ^ v.clfactor + (0 + k + 1) / 168) / 2 ^ v.clfactor))) := by
      rw [add_div _ _ pos, Nat.zero_add k]
      omega
    rw [sum]
    refine held.ends ?_
    by_cases enough : (last v prev + 1) / 2 ^ v.clfactor ≤ free_clusters v s'
    · obtain ⟨b, f', s'', added, block⟩ := add_map_some (f := { f with curalloc := 0 }) held.kept hn member held' room enough
      have fresh := block.fresh
      rw [← block.curalloc] at fresh
      have loop : Ends v n s'' _ (map_loop v k (6 + 3 * 0) f' s'') :=
        map_loop_new block.step.kept hn fresh.nonzero fresh.mine (block.curalloc ▸ block.held) room (by decide)
          (fresh.zero 3 (by decide)) fun i _ _ => fresh.zero _ (by omega)
      rw [← ctg, added]
      rw [block.curalloc, block.place] at loop
      exact block.step.ends (loop.set_nused vbn)
    · have one : (last v prev + 1) / 2 ^ v.clfactor ≤ 1 := by
        rw [last_full]
        split <;> omega
      have needs : (last v prev + 1) / 2 ^ v.clfactor ≠ 0 := by omega
      refine Ends.none (by omega) (Nat.add_pos_right _ (Nat.add_pos_left Nat.one_pos _)) fun _ full => ?_
      have space : s'.held.dedup.length < NBUFFERS := by
        rw [held']
        split
        · omega
        · exact room_cons _ room
      obtain ⟨s'', still, added⟩ := add_map_full (f := { f with curalloc := 0 }) space full needs
      rw [← ctg, added]
      refine ⟨_, _, rfl, ?_⟩
      split
      · exact still.data
      · exact still.data

/-! ### Nothing is done -/

/-- The file and the data are the same, and perhaps one more buffer is held. -/
structure Unchanged (f : File) (s : St) (h : List ℕ) (f' : File) (s' : St) : Prop where
  ctg : f'.ctg = f.ctg
  nused : f'.nused = f.nused
  nalloc : f'.nalloc = f.nalloc
  bmap : f'.bmap = f.bmap
  still : Still s h s'

theorem Still.release (still : Still s (m :: h) s') : Still s h (release_block s' m) := by
  obtain ⟨data, held | ⟨b, held⟩⟩ := still
  · refine ⟨data, Or.inl ?_⟩
    rw [release_block]
    change s'.held.erase m = h
    rw [held, List.erase_cons_head]
  · refine ⟨data, Or.inr ?_⟩
    rw [release_block]
    change ∃ b, s'.held.erase m = b :: h
    rw [held]
    by_cases same : b = m
    · rw [same, List.erase_cons_head]
      exact ⟨m, rfl⟩
    · rw [List.erase_cons_tail (by rwa [beq_iff_eq]), List.erase_cons_head]
      exact ⟨b, rfl⟩

theorem direct_step_still (i : ℕ) (f : File) (room : s.held.dedup.length < NBUFFERS) (full : Full v s) :
    direct_step v i f s = (true, f, s) ∨ ∃ s', direct_step v i f s = (false, f, s') ∧ Still s s.held s' := by
  by_cases zero : f.bmap i = 0
  · exact Or.inr (direct_step_full room full zero)
  · rw [direct_step, if_neg zero]
    exact Or.inl rfl

theorem direct_loop_still (i : ℕ) (room : s.held.dedup.length < NBUFFERS) (full : Full v s) :
    (direct_loop v vbn vcn i f s).1 = true ∨
      ∃ s', direct_loop v vbn vcn i f s = (false, f, s') ∧ Still s s.held s' := by
  induction vcn generalizing i with
  | zero =>
    rw [direct_loop]
    rcases direct_step_still i f room full with goes | ⟨s', stops, still⟩
    · rw [goes]
      exact Or.inl rfl
    · rw [stops]
      exact Or.inr ⟨s', rfl, still⟩
  | succ vcn ih =>
    rw [direct_loop]
    rcases direct_step_still i f room full with goes | ⟨s', stops, still⟩
    · rw [goes]
      exact ih (i + 1)
    · rw [stops]
      exact Or.inr ⟨s', rfl, still⟩

/-- In a block that is there, the first change is a cluster for an entry or a new block at the end. -/
theorem map_loop_still (kept : Kept v n s) (hn : v.clusters ≤ n) (nonzero : f.curalloc ≠ 0)
    (mine : Mine v n f.curalloc) (held : s.held = f.curalloc :: h) (room : h.dedup.length + 1 < NBUFFERS)
    (hj : i + vcn < 168) (there : get24 s f.curalloc 3 < v.nblocks) (full : Full v s) :
    (∃ f' s', map_loop v vcn (6 + 3 * i) f s = some (true, f', s')) ∨
      ∃ f' s', map_loop v vcn (6 + 3 * i) f s = some (false, f', s') ∧ Unchanged f s h f' s' := by
  have space : s.held.dedup.length < NBUFFERS := held ▸ room_cons _ room
  induction vcn generalizing i with
  | zero =>
    by_cases zero : get24 s f.curalloc (6 + 3 * i) = 0
    · obtain ⟨s', entry, still⟩ := map_entry_full space full zero
      rw [held] at still
      exact Or.inr ⟨_, _, map_loop_fails entry, rfl, rfl, rfl, rfl, still.release⟩
    have entry : map_entry v (6 + 3 * i) f s = (true, f, s) := if_neg zero
    by_cases crosses : i = 167
    · by_cases none : get24 s f.curalloc 3 = 0
      · by_cases fits : (last v f.curalloc + 1) / 2 ^ v.clfactor = 0
        · have held' : s.held = if f.curalloc = 0 then h else f.curalloc :: h := by rw [if_neg nonzero, held]
          obtain ⟨b, f', s', added, -⟩ := add_map_some (f := { f with curalloc := 0 }) kept hn (fun _ => mine) held' room
            (fits.symm ▸ Nat.zero_le _)
          exact Or.inl ⟨_, _, map_loop_zero entry (map_next_new crosses none added)⟩
        · obtain ⟨s', still, added⟩ := add_map_full (f := { f with curalloc := 0 }) space full fits
          have stops := map_next_new crosses none added
          rw [if_neg nonzero] at stops
          rw [held] at still
          exact Or.inr ⟨_, _, map_loop_stops entry stops, rfl, rfl, rfl, rfl, still.release⟩
      · obtain ⟨f', s', next⟩ := map_next_old crosses none there held (by omega)
        exact Or.inl ⟨_, _, map_loop_zero entry next⟩
    · exact Or.inl ⟨_, _, map_loop_zero entry (map_next_mid (by omega))⟩
  | succ vcn ih =>
    by_cases zero : get24 s f.curalloc (6 + 3 * i) = 0
    · obtain ⟨s', entry, still⟩ := map_entry_full space full zero
      rw [held] at still
      exact Or.inr ⟨_, _, map_loop_fails entry, rfl, rfl, rfl, rfl, still.release⟩
    · have entry : map_entry v (6 + 3 * i) f s = (true, f, s) := if_neg zero
      rw [map_loop_succ entry (map_next_mid (by omega))]
      exact ih (by omega)

/-- Without a free cluster nothing is changed, unless a new block is linked first. -/
theorem Sound.still (sound : Sound v n f s l) (hn : v.clusters ≤ n) (full : Full v s) (ctg : f.ctg = false)
    (beyond : ¬vbn < f.nused) (links : ¬Links v l vbn) :
    (∃ f' s', file_extend v f s vbn = some (true, f', s')) ∨
      ∃ f' s', file_extend v f s vbn = some (false, f', s') ∧ Unchanged f s s.held f' s' := by
  have room := sound.room
  have space : s.held.dedup.length < NBUFFERS := by omega
  rw [file_extend, if_neg beyond, if_neg (ctg ▸ Bool.false_ne_true)]
  by_cases direct : up v vbn < 5
  · rw [if_pos direct]
    rcases direct_loop_still (v := v) (f := f) 0 space full with done | ⟨s', fails, still⟩
    · exact Or.inl ⟨_, _, congrArg some (Prod.ext done rfl)⟩
    · exact Or.inr ⟨f, s', congrArg some fails, rfl, rfl, rfl, rfl, still⟩
  rw [if_neg direct]
  rcases sound.find_map (up v vbn - 5) with ⟨m, prev, found, goes⟩ | ⟨missing, goes⟩
  · obtain ⟨nonzero, -⟩ := sound.chain.block _ m found
    have member := List.mem_of_getElem? found
    have held : Step v n s ⟨s.data, m :: s.held⟩ 0 := Step.refl sound.kept rfl
    have loop := map_loop_still (f := { f with curalloc := m }) (i := 0) held.kept hn nonzero (sound.mine m member) rfl
      room (by omega : 0 + (up v vbn - 5) % 168 < 168) (sound.next_there found) full
    rw [goes]
    dsimp only
    rw [if_neg nonzero]
    rcases loop with ⟨f', s', done⟩ | ⟨f', s', fails, same⟩
    · exact Or.inl ⟨_, _, congrArg (Option.map (set_nused vbn)) done⟩
    · exact Or.inr ⟨f', s', congrArg (Option.map (set_nused vbn)) fails, same.ctg, same.nused, same.nalloc,
        same.bmap, same.still.data, same.still.held⟩
  · have needs : (last v (l.getLast?.getD 0) + 1) / 2 ^ v.clfactor ≠ 0 := fun fits =>
      links ⟨Nat.le_of_not_lt direct, missing, fits⟩
    rw [goes]
    dsimp only
    rw [if_pos rfl]
    generalize l.getLast?.getD 0 = prev at needs
    have space' : (if prev = 0 then s.held else prev :: s.held).dedup.length < NBUFFERS := by
      split
      · omega
      · exact room_cons _ room
    obtain ⟨s', still, added⟩ := add_map_full (f := { f with curalloc := 0 })
      (s := ⟨s.data, if prev = 0 then s.held else prev :: s.held⟩) space' full needs
    rw [added]
    refine Or.inr ⟨_, _, rfl, rfl, rfl, rfl, rfl, ?_⟩
    by_cases zero : prev = 0
    · rw [if_pos zero]
      rw [if_pos zero] at still
      exact ⟨still.data, still.held⟩
    · rw [if_neg zero]
      rw [if_neg zero] at still
      exact ⟨still.release.data, still.release.held⟩

/-- The same file with the same data has its blocks where it had them. -/
theorem Unchanged.atomic (same : Unchanged f s s.held f' s') (sound : Sound v n f s l) : Atomic v f s l f' s' := by
  have data := same.still.data
  have room : s'.held.dedup.length < NBUFFERS := by
    rcases same.still.held with held | ⟨b, held⟩
    · rw [held]
      exact Nat.lt_of_succ_lt sound.room
    · rw [held]
      exact room_cons b sound.room
  refine ⟨same.nused, same.nalloc, same.bmap, fun m _ => by rw [data], fun c _ => ?_, fun vbn => ?_⟩
  · exact used_congr (by rw [data])
  · rcases Nat.lt_or_ge vbn f.nused with lt | beyond
    · have chain : Chained v s'.data (f'.bmap 5) l := by
        rw [data, same.bmap]
        exact sound.chain
      obtain ⟨g, t, found⟩ := vbn_to_lbn_used sound.chain (Nat.lt_of_succ_lt sound.room) lt
      obtain ⟨g', t', found'⟩ := vbn_to_lbn_used chain room (same.nused.symm ▸ lt)
      rw [found, found', same.ctg, same.bmap, data]
      rfl
    · rw [vbn_to_lbn_unused beyond, vbn_to_lbn_unused (same.nused.symm ▸ beyond)]
      rfl

/-! ### Failures -/

/-- A new block is linked to the last one, and then there is no cluster for its first entry. -/
theorem Sound.links (sound : Sound v n f s l) (hn : v.clusters ≤ n) (all : v.nblocks ≤ n) (tail : Tail v s)
    (none : free_clusters v s = 0) (ctg : f.ctg = false) (beyond : ¬vbn < f.nused) (links : Links v l vbn) :
    ∃ f' s' m, file_extend v f s vbn = some (false, f', s') ∧ m ∈ l ∧ s'.data m ≠ s.data m := by
  obtain ⟨chained, missing, fits⟩ := links
  rcases sound.find_map (up v vbn - 5) with ⟨m, prev, found, -⟩ | ⟨-, goes⟩
  · cases found.symm.trans missing
  have nonzero : l.getLast?.getD 0 ≠ 0 := by
    intro zero
    rw [last_full, if_neg fun both => both.1 zero] at fits
    cases fits
  have member := last_mem nonzero
  have before : get24 s (l.getLast?.getD 0) 3 = 0 := by
    have inside := List.length_pos_of_mem member
    have end_ : l[l.length - 1]? = some (l.getLast?.getD 0) := by
      rw [List.getLast?_eq_getElem?, List.getElem?_eq_getElem (by omega)]
      rfl
    have behind : l[l.length - 1 + 1]? = Option.none := List.getElem?_eq_none_iff.mpr (by omega)
    have link : get24 s (l.getLast?.getD 0) 3 = l[l.length - 1 + 1]?.getD 0 := sound.chain.next _ _ end_
    rw [link, behind, Option.getD_none]
  generalize l.getLast?.getD 0 = prev at fits nonzero member before goes
  have held : Step v n s ⟨s.data, prev :: s.held⟩ 0 := Step.refl sound.kept rfl
  obtain ⟨b, f₁, s₁, added, block⟩ := add_map_some (f := { f with curalloc := 0 }) (s := ⟨s.data, prev :: s.held⟩)
    held.kept hn (fun _ => sound.mine prev member) (if_neg nonzero).symm sound.room (fits.symm ▸ Nat.zero_le _)
  have empty : free_clusters v s₁ = 0 := by
    have := held.free
    have := block.step.free
    omega
  have full : Full v s₁ := (block.step.tail all (held.tail all tail)).full empty
  have zero : get24 s₁ f₁.curalloc 6 = 0 := by
    rw [block.curalloc]
    exact block.fresh.zero 6 (by decide)
  obtain ⟨s₂, entry, still⟩ := map_entry_full (block.held.symm ▸ room_cons b sound.room) full zero
  refine ⟨f₁, release_block s₂ f₁.curalloc, prev, ?_, member, fun same => ?_⟩
  · rw [file_extend, if_neg beyond, if_neg (ctg ▸ Bool.false_ne_true), if_neg (Nat.not_lt_of_le chained), goes]
    dsimp only
    rw [if_pos rfl, if_neg nonzero, added]
    dsimp only
    rw [map_loop_fails entry]
    rfl
  · have linked : get24 s₁ prev 3 = b := block.link nonzero fits
    have data : s₂.data prev = s.data prev := same
    rw [still.data] at data
    rw [get24_congr data, before] at linked
    exact block.fresh.nonzero linked.symm

/-- A failure is right when nothing fails or nothing was done; and not otherwise, when there are no free bits
behind the last cluster for the search to find. -/
theorem extend_right_iff (v : Vol) (f : File) (s : St) (l : List ℕ) (vbn : ℕ)
    (sound : f.ctg = false → Sound v v.clusters f s l) :
    (Meant v f s l vbn → Fails v f s l vbn) ∧
      ((f.ctg = false → Sound v v.nblocks f s l ∧ Tail v s) → Fails v f s l vbn → Meant v f s l vbn) := by
  constructor
  · intro meant f' s' fails
    rcases meant with used | meant
    · rw [file_extend, if_pos used] at fails
      cases fails
    by_cases used : vbn < f.nused
    · rw [file_extend, if_pos used] at fails
      cases fails
    cases ctg : f.ctg with
    | true =>
      rw [ctg, if_pos rfl] at meant
      rw [file_extend, if_neg used, ctg, if_pos rfl, decide_eq_true (Nat.succ_le_of_lt meant)] at fails
      cases fails
    | false =>
      rw [ctg, if_neg Bool.false_ne_true] at meant
      rcases meant with enough | ⟨full, links⟩
      · obtain ⟨f'', s'', done⟩ := ((sound ctg).ends (Nat.le_refl _) ctg used).enough enough
        cases done.symm.trans fails
      · rcases (sound ctg).still (Nat.le_refl _) full ctg used links with ⟨f'', s'', done⟩ | ⟨f'', s'', fails', same⟩
        · cases done.symm.trans fails
        · cases fails'.symm.trans fails
          exact same.atomic (sound ctg)
  · intro whole fails
    by_contra meant
    obtain ⟨used, meant⟩ := not_or.mp meant
    cases ctg : f.ctg with
    | true =>
      rw [ctg, if_pos rfl] at meant
      have extended : file_extend v f s vbn = some (false, { f with nused := vbn + 1 }, s) := by
        rw [file_extend, if_neg used, ctg, if_pos rfl, decide_eq_false fun le => meant (Nat.lt_of_succ_le le)]
      have same : vbn + 1 = f.nused := (fails _ _ extended).nused
      omega
    | false =>
      rw [ctg, if_neg Bool.false_ne_true] at meant
      obtain ⟨short, meant⟩ := not_or.mp meant
      obtain ⟨sound', tail⟩ := whole ctg
      have le := v.clusters_le
      obtain ⟨f', s', failed, none⟩ := (sound'.ends le ctg used).short (Nat.lt_of_not_le short) (Nat.le_refl _) tail
      have same := free_congr (fails f' s' failed).bitmap
      have empty : free_clusters v s = 0 := same.symm.trans none
      have links : Links v l vbn := by
        by_contra links
        exact meant ⟨tail.full empty, links⟩
      obtain ⟨f'', s'', m, failed', member, changed⟩ := sound'.links le (Nat.le_refl _) tail empty ctg used links
      exact changed ((fails f'' s'' failed').maps m member)

end

/-- A file without blocks. -/
def nothing : File where
  ctg := false
  nalloc := 0
  nused := 0
  lbcount := 0
  bmap _ := 0
  curalloc := 0
  curblk := 0
  byteptr := 0

/-- It stays so when all clusters are in use. -/
theorem extend_right_nothing : Fails small nothing (filled 0xFF) [] 0 := by
  have sound : Sound small small.clusters nothing (filled 0xFF) [] :=
    { chain := ⟨rfl, by simp, by simp, by simp⟩
      kept := ⟨by decide, by decide⟩
      mine := by simp
      room := by decide }
  have full : Full small (filled 0xFF) := by
    unfold Full
    decide
  exact (extend_right_iff small nothing (filled 0xFF) [] 0 fun _ => sound).1
    (Or.inr (Or.inr ⟨full, fun links => absurd links.1 (by decide)⟩))

/-- Block 2 of a contiguous file with two blocks. -/
theorem nused_changed : ¬∀ (v : Vol) (f : File) (s : St) (l : List ℕ) (vbn : ℕ),
    (f.ctg = false → Sound v v.nblocks f s l ∧ Tail v s) → Fails v f s l vbn := by
  intro h
  have failed : file_extend four pair zeroed 2 = some (false, { pair with nused := 3 }, zeroed) := rfl
  have same := (h four pair zeroed [] 2 (fun mapped => absurd mapped (by decide)) _ _ failed).nused
  exact absurd same (by decide)

end RSX280.Vol180
