import RSX280.Vol180Steps

/-!
# Clusters that `file_extend` needs

The entries of the FCB and of an allocation block are counted that are zero; a new allocation block has only
such entries. With a new block every 168 entries, one more cluster is needed whenever the last one was full.
-/

namespace RSX280.Vol180

open Bitmap (vb hp Blocks)

/-- How many of the numbers from `i` on are zero, of `n`. -/
def zeros (g : ℕ → ℕ) : ℕ → ℕ → ℕ
  | _, 0 => 0
  | i, n + 1 => (if g i = 0 then 1 else 0) + zeros g (i + 1) n

section

variable {v : Vol} {f : File} {s s' s'' : St} {n a b c d i j m prev vcn vbn blkptr : ℕ} {h : List ℕ}
  {r : Option (Bool × File × St)}

theorem zeros_congr {g g' : ℕ → ℕ} (same : ∀ k, i ≤ k → k < i + m → g' k = g k) : zeros g' i m = zeros g i m := by
  induction m generalizing i with
  | zero => rfl
  | succ m ih =>
    rw [zeros, zeros, same i (Nat.le_refl i) (by omega), ih fun k le lt => same k (by omega) (by omega)]

/-! ### The entries of the FCB -/

theorem direct_step_some (kept : Kept v n s) (room : s.held.dedup.length < NBUFFERS)
    (enough : f.bmap i = 0 → 0 < free_clusters v s) : ∃ f' s', direct_step v i f s = (true, f', s') ∧
      (∀ k ≠ i, f'.bmap k = f.bmap k) ∧ s'.held = s.held ∧ Step v n s s' (if f.bmap i = 0 then 1 else 0) := by
  rw [direct_step]
  by_cases zero : f.bmap i = 0
  · obtain ⟨c, hc, free, alloc⟩ := alloc_cluster_free room (enough zero)
    have here : c <<< v.clfactor ≠ 0 := fun zero => (kept.free hc free).1 ((shift_eq_zero c _).mp zero)
    rw [if_pos zero, if_pos zero, alloc]
    dsimp only
    rw [if_neg here]
    exact ⟨_, _, rfl, fun k hk => Function.update_of_ne hk _ _, rfl, Step.take kept hc free⟩
  · rw [if_neg zero, if_neg zero]
    exact ⟨_, _, rfl, fun _ _ => rfl, rfl, Step.refl kept rfl⟩

theorem direct_step_full (room : s.held.dedup.length < NBUFFERS) (full : Full v s) (zero : f.bmap i = 0) :
    ∃ s', direct_step v i f s = (false, f, s') ∧ Still s s.held s' := by
  obtain ⟨s', alloc, still⟩ := alloc_cluster_full room full
  refine ⟨s', ?_, still⟩
  rw [direct_step, if_pos zero, alloc]
  exact if_pos rfl

theorem direct_loop_ends (kept : Kept v n s) (room : s.held.dedup.length < NBUFFERS) :
    Ends v n s (zeros f.bmap i (vcn + 1)) (some (direct_loop v vbn vcn i f s)) := by
  induction vcn generalizing i f s with
  | zero =>
    rw [zeros, zeros]
    by_cases free : f.bmap i = 0 → 0 < free_clusters v s
    · obtain ⟨f', s', step, -, -, taken⟩ := direct_step_some kept room free
      refine taken.ends ⟨fun _ => ?_, fun lt => absurd lt (Nat.not_lt_zero _)⟩
      rw [direct_loop, step]
      exact ⟨_, _, rfl⟩
    · obtain ⟨zero, none⟩ := Classical.not_imp.mp free
      rw [if_pos zero]
      refine Ends.none (by omega) Nat.one_pos fun _ full => ?_
      obtain ⟨s', step, still⟩ := direct_step_full room full zero
      rw [direct_loop, step]
      exact ⟨_, _, rfl, still.data⟩
  | succ vcn ih =>
    rw [zeros]
    by_cases free : f.bmap i = 0 → 0 < free_clusters v s
    · obtain ⟨f', s', step, others, held, taken⟩ := direct_step_some kept room free
      have rest : zeros f.bmap (i + 1) (vcn + 1) = zeros f'.bmap (i + 1) (vcn + 1) :=
        (zeros_congr fun k le _ => others k (by omega)).symm
      rw [direct_loop, step, rest]
      exact taken.ends (ih taken.kept (held.symm ▸ room))
    · obtain ⟨zero, none⟩ := Classical.not_imp.mp free
      rw [if_pos zero]
      refine Ends.none (by omega) (by omega) fun _ full => ?_
      obtain ⟨s', step, still⟩ := direct_step_full room full zero
      rw [direct_loop, step]
      exact ⟨_, _, rfl, still.data⟩

/-! ### Entries of an allocation block -/

theorem map_next_mid (hj : j < 167) : map_next v (6 + 3 * j) f s = some (some (6 + 3 * (j + 1)), f, s) := by
  have next : 6 + 3 * j + 3 = 6 + 3 * (j + 1) := by omega
  rw [map_next, next, if_pos (by omega)]

/-- Behind the last entry a block is added. -/
theorem map_next_new {lbn : Option ℕ} {f' : File} (hj : j = 167) (none : get24 s f.curalloc 3 = 0)
    (added : add_map v f.curalloc { f with curalloc := 0 } s = some (lbn, f', s')) :
    map_next v (6 + 3 * j) f s = some (lbn.map fun _ => 6, f', s') := by
  rw [map_next, if_neg (by omega)]
  dsimp only
  rw [none, if_pos rfl, added]

attribute [local grind =] map_loop

theorem map_loop_fails {f' : File} (entry : map_entry v blkptr f s = (false, f', s')) :
    map_loop v vcn blkptr f s = some (false, f', s') := by
  cases vcn <;> rw [map_loop, entry]

theorem map_loop_stops {f' f'' : File} (entry : map_entry v blkptr f s = (true, f', s'))
    (next : map_next v blkptr f' s' = some (none, f'', s'')) :
    map_loop v vcn blkptr f s = some (false, f'', s'') := by
  cases vcn <;> rw [map_loop, entry] <;> dsimp only <;> rw [next]

theorem map_loop_zero {f' f'' : File} (entry : map_entry v blkptr f s = (true, f', s'))
    (next : map_next v blkptr f' s' = some (some b, f'', s'')) :
    map_loop v 0 blkptr f s = some (true, f'', release_block s'' f''.curalloc) := by
  rw [map_loop, entry]
  dsimp only
  rw [next]

theorem map_loop_succ {f' f'' : File} (entry : map_entry v blkptr f s = (true, f', s'))
    (next : map_next v blkptr f' s' = some (some b, f'', s'')) :
    map_loop v (vcn + 1) blkptr f s = map_loop v vcn b f'' s'' := by
  rw [map_loop, entry]
  dsimp only
  rw [next]

theorem add_div (a m : ℕ) {N : ℕ} (pos : 0 < N) : (a + m) / N = a / N + (a % N + m) / N := by
  have split := Nat.div_add_mod a N
  calc (a + m) / N = (N * (a / N) + (a % N + m)) / N := by congr 1; omega
    _ = a / N + (a % N + m) / N := Nat.mul_add_div pos _ _

/-- An entry that is zero takes a cluster, and then it goes on. -/
theorem map_loop_entry (kept : Kept v n s) (hn : v.clusters ≤ n) (mine : Mine v n f.curalloc)
    (room : s.held.dedup.length < NBUFFERS) (need : a = if get24 s f.curalloc blkptr = 0 then 1 else 0)
    (rest : ∀ f' s', map_entry v blkptr f s = (true, f', s') → f'.curalloc = f.curalloc → s'.held = s.held →
      Kept v n s' → (∀ p, p + 2 < blkptr ∨ blkptr + 2 < p → get24 s' f.curalloc p = get24 s f.curalloc p) →
      Ends v n s' d (map_loop v vcn blkptr f s)) :
    Ends v n s (a + d) (map_loop v vcn blkptr f s) := by
  rw [need]
  by_cases free : get24 s f.curalloc blkptr = 0 → 0 < free_clusters v s
  · obtain ⟨f', s', entry, curalloc, held, step, others⟩ := map_entry_some kept hn mine room free
    exact step.ends (rest f' s' entry curalloc held step.kept others)
  · obtain ⟨zero, none⟩ := Classical.not_imp.mp free
    rw [if_pos zero]
    refine Ends.none (by omega) (by omega) fun _ full => ?_
    obtain ⟨s', entry, still⟩ := map_entry_full room full zero
    exact ⟨_, _, map_loop_fails entry, still.data⟩

/-- And so does a new block behind the last entry. -/
theorem map_loop_cross {f' : File} (kept : Kept v n s') (hn : v.clusters ≤ n) (nonzero : f'.curalloc ≠ 0)
    (mine : Mine v n f'.curalloc) (held : s'.held = f'.curalloc :: h) (room : h.dedup.length + 1 < NBUFFERS)
    (hj : j = 167) (next : get24 s' f'.curalloc 3 = 0) (entry : map_entry v (6 + 3 * j) f s = (true, f', s'))
    (rest : ∀ b f'' s'', map_next v (6 + 3 * j) f' s' = some (some 6, f'', s'') →
      Added v n f'.curalloc s' h b f'' s'' → Ends v n s'' d (map_loop v vcn (6 + 3 * j) f s)) :
    Ends v n s' ((f'.curalloc % 2 ^ v.clfactor + 1) / 2 ^ v.clfactor + d) (map_loop v vcn (6 + 3 * j) f s) := by
  have place : last v f'.curalloc = f'.curalloc % 2 ^ v.clfactor := if_neg nonzero
  have held' : s'.held = if f'.curalloc = 0 then h else f'.curalloc :: h := by rw [if_neg nonzero, held]
  rw [← place]
  by_cases enough : (last v f'.curalloc + 1) / 2 ^ v.clfactor ≤ free_clusters v s'
  · obtain ⟨b, f'', s'', added, block⟩ := add_map_some (f := { f' with curalloc := 0 }) kept hn (fun _ => mine) held'
      room enough
    exact block.step.ends (rest b f'' s'' (map_next_new hj next added) block)
  · have one : (last v f'.curalloc + 1) / 2 ^ v.clfactor ≤ 1 := by
      rw [last_full]
      split <;> omega
    have needs : (last v f'.curalloc + 1) / 2 ^ v.clfactor ≠ 0 := by omega
    refine Ends.none (by omega) (by omega) fun _ full => ?_
    obtain ⟨s'', still, added⟩ := add_map_full (f := { f' with curalloc := 0 }) (held ▸ room_cons _ room) full needs
    have stops := map_next_new hj next added
    refine ⟨_, _, map_loop_stops entry stops, ?_⟩
    rw [if_neg nonzero]
    exact still.data

/-- The entries of new blocks. -/
theorem map_loop_new (kept : Kept v n s) (hn : v.clusters ≤ n) (nonzero : f.curalloc ≠ 0)
    (mine : Mine v n f.curalloc) (held : s.held = f.curalloc :: h) (room : h.dedup.length + 1 < NBUFFERS)
    (hj : j < 168) (next : get24 s f.curalloc 3 = 0)
    (zero : ∀ i, j ≤ i → i < 168 → get24 s f.curalloc (6 + 3 * i) = 0) :
    Ends v n s (1 + (vcn + (f.curalloc % 2 ^ v.clfactor + (j + vcn + 1) / 168) / 2 ^ v.clfactor))
      (map_loop v vcn (6 + 3 * j) f s) := by
  have pos : 0 < 2 ^ v.clfactor := Nat.pow_pos (by decide)
  induction vcn generalizing j f s with
  | zero =>
    refine map_loop_entry kept hn mine (held ▸ room_cons _ room) (if_pos (zero j (Nat.le_refl j) hj)).symm
      fun f' s' entry curalloc held' kept' others => ?_
    have rest (p : ℕ) (hp : p + 2 < 6 + 3 * j ∨ 6 + 3 * j + 2 < p) : get24 s' f'.curalloc p = get24 s f.curalloc p := by
      rw [curalloc]
      exact others p hp
    rw [← curalloc] at nonzero mine held ⊢
    by_cases crosses : j = 167
    · have full : (j + 0 + 1) / 168 = 1 := by omega
      rw [full, Nat.zero_add]
      refine map_loop_cross (d := 0) kept' hn nonzero mine (held'.trans held) room crosses
        ((rest 3 (by omega)).trans next) entry fun b f'' s'' next' added => ?_
      exact ⟨fun _ => ⟨_, _, map_loop_zero entry next'⟩, fun lt => absurd lt (Nat.not_lt_zero _)⟩
    · have short : (j + 0 + 1) / 168 = 0 := by omega
      have none : f'.curalloc % 2 ^ v.clfactor / 2 ^ v.clfactor = 0 := Nat.div_eq_of_lt (Nat.mod_lt _ pos)
      rw [short, Nat.add_zero, none]
      exact ⟨fun _ => ⟨_, _, map_loop_zero entry (map_next_mid (by omega))⟩, fun lt => absurd lt (Nat.not_lt_zero _)⟩
  | succ vcn ih =>
    refine map_loop_entry kept hn mine (held ▸ room_cons _ room) (if_pos (zero j (Nat.le_refl j) hj)).symm
      fun f' s' entry curalloc held' kept' others => ?_
    have rest (p : ℕ) (hp : p + 2 < 6 + 3 * j ∨ 6 + 3 * j + 2 < p) : get24 s' f'.curalloc p = get24 s f.curalloc p := by
      rw [curalloc]
      exact others p hp
    rw [← curalloc] at nonzero mine held ⊢
    by_cases crosses : j = 167
    · have full : (j + (vcn + 1) + 1) / 168 = 1 + (vcn + 1) / 168 := by omega
      have sum : vcn + 1 + (f'.curalloc % 2 ^ v.clfactor + (j + (vcn + 1) + 1) / 168) / 2 ^ v.clfactor
          = (f'.curalloc % 2 ^ v.clfactor + 1) / 2 ^ v.clfactor + (1 + (vcn +
            ((f'.curalloc % 2 ^ v.clfactor + 1) % 2 ^ v.clfactor + (0 + vcn + 1) / 168) / 2 ^ v.clfactor)) := by
        rw [full, ← Nat.add_assoc (f'.curalloc % 2 ^ v.clfactor), add_div _ _ pos, Nat.zero_add]
        omega
      rw [sum]
      refine map_loop_cross kept' hn nonzero mine (held'.trans held) room crosses
        ((rest 3 (by omega)).trans next) entry fun b f'' s'' next' added => ?_
      have place : f''.curalloc % 2 ^ v.clfactor = (f'.curalloc % 2 ^ v.clfactor + 1) % 2 ^ v.clfactor := by
        rw [added.curalloc, added.place, last, if_neg nonzero]
      have fresh := added.fresh
      rw [map_loop_succ entry next', ← place]
      rw [← added.curalloc] at fresh
      exact ih (j := 0) added.step.kept fresh.nonzero fresh.mine (added.curalloc ▸ added.held) (by omega)
        (fresh.zero 3 (by omega)) fun i _ _ => fresh.zero _ (by omega)
    · have sum : vcn + 1 + (f'.curalloc % 2 ^ v.clfactor + (j + (vcn + 1) + 1) / 168) / 2 ^ v.clfactor
          = 1 + (vcn + (f'.curalloc % 2 ^ v.clfactor + (j + 1 + vcn + 1) / 168) / 2 ^ v.clfactor) := by
        have same : j + (vcn + 1) + 1 = j + 1 + vcn + 1 := by omega
        rw [same]
        omega
      rw [map_loop_succ entry (map_next_mid (by omega)), sum]
      exact ih kept' nonzero mine (held'.trans held) (by omega) ((rest 3 (by omega)).trans next) fun i le lt =>
        (rest _ (by omega)).trans (zero i (by omega) lt)

theorem map_next_old (hj : j = 167) (next : get24 s f.curalloc 3 ≠ 0) (there : get24 s f.curalloc 3 < v.nblocks)
    (held : s.held = f.curalloc :: h) (room : h.dedup.length < NBUFFERS) :
    ∃ f' s', map_next v (6 + 3 * j) f s = some (some 6, f', s') := by
  have released : (release_block s f.curalloc).held = h := by
    rw [release_block]
    change s.held.erase f.curalloc = h
    rw [held, List.erase_cons_head]
  rw [map_next, if_neg (by omega)]
  dsimp only
  rw [if_neg next, get_block_some there (released.symm ▸ room)]
  exact ⟨_, _, rfl⟩

/-- What is needed behind the last entry: nothing when there is a next block, or a new one. -/
def next_need (v : Vol) (s : St) (cur : ℕ) : ℕ :=
  if get24 s cur 3 = 0 then (cur % 2 ^ v.clfactor + 1) / 2 ^ v.clfactor else 0

/-- The entries of a block that is there. -/
theorem map_loop_old (kept : Kept v n s) (hn : v.clusters ≤ n) (nonzero : f.curalloc ≠ 0)
    (mine : Mine v n f.curalloc) (held : s.held = f.curalloc :: h) (room : h.dedup.length + 1 < NBUFFERS)
    (hj : j + vcn < 168) (there : get24 s f.curalloc 3 < v.nblocks) :
    Ends v n s (zeros (fun i => get24 s f.curalloc (6 + 3 * i)) j (vcn + 1)
      + if j + vcn = 167 then next_need v s f.curalloc else 0) (map_loop v vcn (6 + 3 * j) f s) := by
  induction vcn generalizing j f s with
  | zero =>
    rw [zeros, zeros, Nat.add_zero, Nat.add_zero]
    refine map_loop_entry kept hn mine (held ▸ room_cons _ room) rfl
      fun f' s' entry curalloc held' kept' others => ?_
    have next : get24 s' f'.curalloc 3 = get24 s f.curalloc 3 := by
      rw [curalloc]
      exact others 3 (by omega)
    rw [next_need, ← next, ← curalloc]
    rw [← curalloc] at nonzero mine held
    by_cases crosses : j = 167
    · rw [if_pos crosses]
      by_cases none : get24 s' f'.curalloc 3 = 0
      · rw [if_pos none]
        refine map_loop_cross (d := 0) kept' hn nonzero mine (held'.trans held) room crosses none entry
          fun b f'' s'' next' added => ?_
        exact ⟨fun _ => ⟨_, _, map_loop_zero entry next'⟩, fun lt => absurd lt (Nat.not_lt_zero _)⟩
      · obtain ⟨f'', s'', next'⟩ := map_next_old (v := v) crosses none (next.symm ▸ there) (held'.trans held) (by omega)
        rw [if_neg none]
        exact ⟨fun _ => ⟨_, _, map_loop_zero entry next'⟩, fun lt => absurd lt (Nat.not_lt_zero _)⟩
    · rw [if_neg crosses]
      exact ⟨fun _ => ⟨_, _, map_loop_zero entry (map_next_mid (by omega))⟩, fun lt => absurd lt (Nat.not_lt_zero _)⟩
  | succ vcn ih =>
    have sum : j + (vcn + 1) = j + 1 + vcn := by omega
    rw [zeros, Nat.add_assoc, sum]
    refine map_loop_entry kept hn mine (held ▸ room_cons _ room) rfl
      fun f' s' entry curalloc held' kept' others => ?_
    have rest (p : ℕ) (hp : p + 2 < 6 + 3 * j ∨ 6 + 3 * j + 2 < p) : get24 s' f'.curalloc p = get24 s f.curalloc p := by
      rw [curalloc]
      exact others p hp
    have next := rest 3 (by omega)
    have entries : zeros (fun i => get24 s f.curalloc (6 + 3 * i)) (j + 1) (vcn + 1)
        = zeros (fun i => get24 s' f'.curalloc (6 + 3 * i)) (j + 1) (vcn + 1) :=
      (zeros_congr fun k le _ => rest (6 + 3 * k) (by omega)).symm
    have need : next_need v s f.curalloc = next_need v s' f'.curalloc := by
      rw [next_need, next_need, next, curalloc]
    rw [← curalloc] at nonzero mine held
    rw [map_loop_succ entry (map_next_mid (by omega)), entries, need]
    exact ih kept' nonzero mine (held'.trans held) (by omega) (next.symm ▸ there)

end

end RSX280.Vol180
