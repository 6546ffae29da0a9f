import RSX280.Vol180

/-!
# What vol180 allocates

The loops go over the bits of the bitmap in the order of the clusters, and on behind the last cluster: they
count blocks. With what is found there they are wrong, and `alloc_cluster` does not release its buffer
when nothing is found (`clusters_right_iff`).
-/

namespace RSX280.Vol180

open Bitmap (Blocks Vcb Marks Outside bmhsz vb hp used_eq_false)
open Search (Free first firstRun)

/-- The bitmap from its first block on. -/
def St.bits (v : Vol) (s : St) : Blocks := fun k => s.data (v.bmblock + k)

/-- The volume as the ACP has it mounted. -/
def St.vcb (v : Vol) (s : St) : Vcb := ⟨v.nblocks, v.clfactor, 0, s.bits v⟩

/-- What is before the bitmap is the same. -/
def Below (v : Vol) (s s' : St) : Prop := ∀ b < v.bmblock, s'.data b = s.data b

/-! ### Positions -/

section

variable {v : Vol} {s : St} {i n m p b o c : ℕ} {x : UInt8} {h : List ℕ}

/-- Where the next bit is. -/
inductive Next (i : ℕ) : Prop
  | bit : i % 8 + 1 < 8 → vb (i + 1) = vb i → hp (i + 1) = hp i → (i + 1) % 8 = i % 8 + 1 → Next i
  | byte : i % 8 = 7 → hp i + 1 ≠ 512 → vb (i + 1) = vb i → hp (i + 1) = hp i + 1 → (i + 1) % 8 = 0 → Next i
  | block : i % 8 = 7 → hp i + 1 = 512 → vb (i + 1) = vb i + 1 → hp (i + 1) = 0 → (i + 1) % 8 = 0 → Next i

theorem next_bit (i : ℕ) : Next i := by
  rcases Nat.lt_or_ge (i % 8 + 1) 8 with h | h
  · refine .bit h ?_ ?_ (by omega) <;> simp only [vb, hp, bmhsz] <;> omega
  · by_cases last : hp i + 1 = 512
    · have full : (i / 8 + 16) % 512 + 1 = 512 := last
      refine .block (by omega) last ?_ ?_ (by omega) <;> simp only [vb, hp, bmhsz] <;> omega
    · have still : (i / 8 + 16) % 512 + 1 ≠ 512 := last
      refine .byte (by omega) last ?_ ?_ (by omega) <;> simp only [vb, hp, bmhsz] <;> omega

theorem vb_mono (h : i ≤ n) : vb i ≤ vb n := by
  simp only [vb, bmhsz]
  omega

theorem hp_lt (i : ℕ) : hp i < 512 := Nat.mod_lt _ (by decide)

theorem mask_shift (hp : p + 1 < 8) : Bitmap.mask p >>> 1 = Bitmap.mask (p + 1) := by
  have hp' : p < 7 := by omega
  interval_cases p <;> decide

theorem mask_last (hp : p = 7) : Bitmap.mask p >>> 1 = 0 := by
  subst hp
  decide

theorem mask_first (hp : p = 0) : Bitmap.mask p = 0x80 := by
  subst hp
  rfl

theorem mask_ne_zero (hp : p < 8) : Bitmap.mask p ≠ 0 := by
  interval_cases p <;> decide

theorem mod_lt (i : ℕ) : i % 8 < 8 := Nat.mod_lt i (by decide)

/-! ### Buffers -/

theorem get_block_some (hb : b < v.nblocks) (room : s.held.dedup.length < NBUFFERS) :
    get_block v s b = some { s with held := b :: s.held } := by
  rw [get_block, if_neg (Nat.not_le_of_lt hb), if_pos (Or.inr room)]

theorem get_block_none (hb : v.nblocks ≤ b) : get_block v s b = none := if_pos hb

/-- The block that was got last is released. -/
theorem release_cons (d : ℕ → ℕ → UInt8) (b : ℕ) (h : List ℕ) : release_block ⟨d, b :: h⟩ b = ⟨d, h⟩ := by
  rw [release_block, List.erase_cons_head]

theorem release_put (d : ℕ → ℕ → UInt8) (b o : ℕ) (x : UInt8) (h : List ℕ) :
    release_block (St.put ⟨d, b :: h⟩ b o x) b = St.put ⟨d, h⟩ b o x := release_cons _ b h

theorem bits_put (hk : b = v.bmblock + n) :
    (s.put b o x).bits v = Function.update (s.bits v) n (Function.update (s.bits v n) o x) := by
  subst hk
  funext k
  rw [St.bits, St.put]
  dsimp only
  by_cases same : k = n
  · subst same
    rw [Function.update_self, Function.update_self]
    rfl
  · rw [Function.update_of_ne (by omega), Function.update_of_ne same]
    rfl

theorem below_put (hb : v.bmblock ≤ b) : Below v s (s.put b o x) := by
  intro c hc
  exact Function.update_of_ne (by omega) _ _

theorem below_refl (v : Vol) (s : St) : Below v s s := fun _ _ => rfl

theorem Below.trans {s s' s'' : St} (h : Below v s s') (h' : Below v s' s'') : Below v s s'' :=
  fun b hb => (h' b hb).trans (h b hb)

/-! ### `alloc_cluster` -/

/-- The scan of `n` bits from `i` on finds the first free bit, finds none, or gets to the end of the
volume. -/
inductive Scanned (v : Vol) (d : ℕ → ℕ → UInt8) (h : List ℕ) (i n : ℕ) : ℕ × St → Prop
  | found {c : ℕ} : first (St.bits v ⟨d, h⟩).used i n = some c → v.bmblock + vb c < v.nblocks →
    Scanned v d h i n (c <<< v.clfactor, St.put ⟨d, h⟩ (v.bmblock + vb c) (hp c)
      (d (v.bmblock + vb c) (hp c) ||| Bitmap.mask (c % 8)))
  | full : first (St.bits v ⟨d, h⟩).used i n = none → v.bmblock + vb (i + n) < v.nblocks →
    Scanned v d h i n (0, ⟨d, (v.bmblock + vb (i + n)) :: h⟩)
  | ends {m : ℕ} : m ≤ n → first (St.bits v ⟨d, h⟩).used i m = none → v.nblocks ≤ v.bmblock + vb (i + m) →
    Scanned v d h i n (0, ⟨d, h⟩)

/-- A used bit is passed over. -/
theorem Scanned.used {d : ℕ → ℕ → UInt8} {r : ℕ × St} (hs : Scanned v d h (i + 1) n r)
    (hu : (St.bits v ⟨d, h⟩).used i = true) : Scanned v d h i (n + 1) r := by
  have pass (m : ℕ) : first (St.bits v ⟨d, h⟩).used i (m + 1) = first (St.bits v ⟨d, h⟩).used (i + 1) m := by
    rw [first, if_pos hu]
  have sum (m : ℕ) : i + 1 + m = i + (m + 1) := by omega
  cases hs with
  | found here inside => exact .found ((pass n).trans here) inside
  | full none inside =>
    rw [sum] at inside ⊢
    exact .full ((pass n).trans none) inside
  | @ends m le none outside =>
    rw [sum] at outside
    exact .ends (Nat.succ_le_succ le) ((pass m).trans none) outside

theorem alloc_loop_spec (v : Vol) (d : ℕ → ℕ → UInt8) (room : h.dedup.length < NBUFFERS) (n i : ℕ)
    (inside : v.bmblock + vb i < v.nblocks) :
    Scanned v d h i n (alloc_loop v n i (hp i) (v.bmblock + vb i) (Bitmap.mask (i % 8))
      (d (v.bmblock + vb i) (hp i)) ⟨d, (v.bmblock + vb i) :: h⟩) := by
  induction n generalizing i with
  | zero => exact .full rfl inside
  | succ n ih =>
    rw [alloc_loop]
    by_cases free : d (v.bmblock + vb i) (hp i) &&& Bitmap.mask (i % 8) = 0
    · have here : first (St.bits v ⟨d, h⟩).used i (n + 1) = some i := by
        rw [first, if_neg]
        rw [used_eq_false.mpr free]
        exact Bool.false_ne_true
      rw [if_pos free, release_put]
      exact .found here inside
    · have used : (St.bits v ⟨d, h⟩).used i = true :=
        Bool.eq_true_of_not_eq_false fun no => free (used_eq_false.mp no)
      rw [if_neg free]
      refine Scanned.used ?_ used
      cases next_bit i with
      | bit more blk offs pos =>
        rw [mask_shift more, if_neg (mask_ne_zero more), ← blk, ← offs, ← pos]
        exact ih (i + 1) (blk ▸ inside)
      | byte last offs blk next pos =>
        rw [mask_last last, if_pos rfl, if_neg offs, ← blk, ← next, ← mask_first pos]
        exact ih (i + 1) (blk ▸ inside)
      | block last offs blk next pos =>
        have crossed : v.bmblock + vb i + 1 = v.bmblock + vb (i + 1) := by omega
        rw [mask_last last, if_pos rfl, if_pos offs]
        dsimp only
        rw [release_cons, crossed]
        by_cases there : v.bmblock + vb (i + 1) < v.nblocks
        · rw [get_block_some there room, ← mask_first pos, ← next]
          exact ih (i + 1) there
        · rw [get_block_none (Nat.le_of_not_lt there)]
          exact .ends (Nat.zero_le n) rfl (Nat.le_of_not_lt there)

/-! ### `alloc_clusters` -/

variable {num j cstart : ℕ} {st : Option ℕ}

/-- The current run. -/
inductive Run (i : ℕ) : Option ℕ → ℕ → ℕ → Prop
  | none (cstart : ℕ) : Run i none cstart 0
  | some {cstart j : ℕ} : cstart + (j + 1) = i → Run i (some cstart) cstart (j + 1)

/-- The search in `n` bits from `i` on finds the first run, finds none, or gets to the end of the volume. -/
inductive Searched (v : Vol) (d : ℕ → ℕ → UInt8) (h : List ℕ) (num i n : ℕ) (st : Option ℕ) :
    Option (ℕ × ℕ) × St → Prop
  | found {c : ℕ} : firstRun (St.bits v ⟨d, h⟩).used num i n st = some c →
    v.bmblock + vb (c + num - 1) < v.nblocks → Searched v d h num i n st (some (c, num), ⟨d, h⟩)
  | full {c j : ℕ} : firstRun (St.bits v ⟨d, h⟩).used num i n st = none → v.bmblock + vb (i + n) < v.nblocks →
    j < num → Searched v d h num i n st (some (c, j), ⟨d, h⟩)
  | ends {m : ℕ} : m ≤ n → firstRun (St.bits v ⟨d, h⟩).used num i m st = none →
    v.nblocks ≤ v.bmblock + vb (i + m) → Searched v d h num i n st (none, ⟨d, h⟩)

/-- One bit is passed over, and the run goes on or not. -/
theorem Searched.pass {d : ℕ → ℕ → UInt8} {st' : Option ℕ} {r : Option (ℕ × ℕ) × St}
    (hs : Searched v d h num (i + 1) n st' r)
    (pass : ∀ m, firstRun (St.bits v ⟨d, h⟩).used num i (m + 1) st
      = firstRun (St.bits v ⟨d, h⟩).used num (i + 1) m st') :
    Searched v d h num i (n + 1) st r := by
  have sum (m : ℕ) : i + 1 + m = i + (m + 1) := by omega
  cases hs with
  | found here inside => exact .found ((pass n).trans here) inside
  | full none inside short =>
    rw [sum] at inside
    exact .full ((pass n).trans none) inside short
  | @ends m le none outside =>
    rw [sum] at outside
    exact .ends (Nat.succ_le_succ le) ((pass m).trans none) outside

/-- The rest of the loop, with the run as it is behind the bit `i`. -/
theorem search_next (v : Vol) (d : ℕ → ℕ → UInt8) (room : h.dedup.length < NBUFFERS) (n i : ℕ)
    (inside : v.bmblock + vb i < v.nblocks) (run : Run (i + 1) st cstart j)
    (rest : ∀ i, v.bmblock + vb i < v.nblocks → Run i st cstart j →
      Searched v d h num i n st (search_loop v num n i (hp i) (v.bmblock + vb i) (Bitmap.mask (i % 8))
        (d (v.bmblock + vb i) (hp i)) cstart j ⟨d, (v.bmblock + vb i) :: h⟩)) :
    Searched v d h num (i + 1) n st
      (if Bitmap.mask (i % 8) >>> 1 = 0 then
        if hp i + 1 = 512 then
          match get_block v (release_block ⟨d, (v.bmblock + vb i) :: h⟩ (v.bmblock + vb i))
              (v.bmblock + vb i + 1) with
          | none => (none, release_block ⟨d, (v.bmblock + vb i) :: h⟩ (v.bmblock + vb i))
          | some s => search_loop v num n (i + 1) 0 (v.bmblock + vb i + 1) 0x80
              (s.data (v.bmblock + vb i + 1) 0) cstart j s
        else search_loop v num n (i + 1) (hp i + 1) (v.bmblock + vb i) 0x80
          (d (v.bmblock + vb i) (hp i + 1)) cstart j ⟨d, (v.bmblock + vb i) :: h⟩
      else search_loop v num n (i + 1) (hp i) (v.bmblock + vb i) (Bitmap.mask (i % 8) >>> 1)
        (d (v.bmblock + vb i) (hp i)) cstart j ⟨d, (v.bmblock + vb i) :: h⟩) := by
  cases next_bit i with
  | bit more blk offs pos =>
    rw [mask_shift more, if_neg (mask_ne_zero more), ← blk, ← offs, ← pos]
    exact rest (i + 1) (blk ▸ inside) run
  | byte last offs blk next pos =>
    rw [mask_last last, if_pos rfl, if_neg offs, ← blk, ← next, ← mask_first pos]
    exact rest (i + 1) (blk ▸ inside) run
  | block last offs blk next pos =>
    have crossed : v.bmblock + vb i + 1 = v.bmblock + vb (i + 1) := by omega
    rw [mask_last last, if_pos rfl, if_pos offs, release_cons, crossed]
    by_cases there : v.bmblock + vb (i + 1) < v.nblocks
    · rw [get_block_some there room, ← mask_first pos, ← next]
      exact rest (i + 1) there run
    · rw [get_block_none (Nat.le_of_not_lt there)]
      exact .ends (Nat.zero_le n) rfl (Nat.le_of_not_lt there)

theorem search_loop_spec (v : Vol) (d : ℕ → ℕ → UInt8) (room : h.dedup.length < NBUFFERS) (n i : ℕ)
    (inside : v.bmblock + vb i < v.nblocks) (run : Run i st cstart j) (short : j < num) :
    Searched v d h num i n st (search_loop v num n i (hp i) (v.bmblock + vb i) (Bitmap.mask (i % 8))
      (d (v.bmblock + vb i) (hp i)) cstart j ⟨d, (v.bmblock + vb i) :: h⟩) := by
  induction n generalizing i st cstart j with
  | zero =>
    rw [search_loop, release_cons]
    exact .full rfl inside short
  | succ n ih =>
    rw [search_loop]
    dsimp only
    have go {st' : Option ℕ} {cstart' j' : ℕ} (run' : Run (i + 1) st' cstart' j') (short' : j' < num) :=
      search_next v d room n i inside run' fun i inside run => ih i inside run short'
    by_cases free : d (v.bmblock + vb i) (hp i) &&& Bitmap.mask (i % 8) = 0
    · have unused : ¬(St.bits v ⟨d, h⟩).used i = true := by
        rw [used_eq_false.mpr free]
        exact Bool.false_ne_true
      -- where the run starts
      obtain ⟨start, hstart, begins⟩ : ∃ c, (if j = 0 then i else cstart) = c ∧ st.getD i = c ∧ c + j = i := by
        cases run with
        | none => exact ⟨i, if_pos rfl, rfl, rfl⟩
        | some sum => exact ⟨cstart, if_neg (Nat.succ_ne_zero _), rfl, sum⟩
      obtain ⟨same, sum⟩ := begins
      simp only [free, true_and, if_true, hstart]
      by_cases long : j + 1 = num
      · rw [if_pos long, release_cons, long]
        refine .found ?_ ?_
        · rw [firstRun, if_neg unused, same, if_pos (by omega)]
        · rwa [show start + num - 1 = i by omega]
      · rw [if_neg long]
        refine Searched.pass (go (.some (by omega)) (by omega)) fun m => ?_
        rw [firstRun, if_neg unused, same, if_neg (by omega)]
    · have used : (St.bits v ⟨d, h⟩).used i = true :=
        Bool.eq_true_of_not_eq_false fun no => free (used_eq_false.mp no)
      simp only [free, false_and, if_false]
      refine Searched.pass (go (.none cstart) (by omega)) fun m => ?_
      rw [firstRun, if_pos used]

/-! ### Marking -/

theorem put_self (s : St) (b o : ℕ) : s.put b o (s.data b o) = s := by
  rw [St.put, Function.update_eq_self, Function.update_eq_self]

theorem put_put (s : St) (b o : ℕ) (x y : UInt8) : (s.put b o x).put b o y = s.put b o y := by
  rw [St.put, St.put, St.put]
  dsimp only
  rw [Function.update_self, Function.update_idem, Function.update_idem]

theorem put_data (s : St) (b o : ℕ) (x : UInt8) : (s.put b o x).data b o = x := by
  change Function.update s.data b (Function.update (s.data b) o x) b o = x
  rw [Function.update_self, Function.update_self]

/-- The byte of a bit, with the bit set. -/
theorem mark_put (v : Vol) (s : St) (i : ℕ) (x : UInt8) :
    ((s.put (v.bmblock + vb i) (hp i) x).bits v).mark i
      = (s.put (v.bmblock + vb i) (hp i) (x ||| Bitmap.mask (i % 8))).bits v := by
  have byte : (s.put (v.bmblock + vb i) (hp i) x).bits v (vb i) (hp i) = x := put_data s _ _ x
  have twice := bits_put (v := v) (s := s.put (v.bmblock + vb i) (hp i) x) (o := hp i)
    (x := x ||| Bitmap.mask (i % 8)) (n := vb i) rfl
  rw [Blocks.mark, Blocks.set, byte, ← twice, put_put]

/-- What the loop has marked, and whether it gets to its end. -/
structure Marked (v : Vol) (d : ℕ → ℕ → UInt8) (h : List ℕ) (i n : ℕ) (bm : Blocks) (r : Bool × St) : Prop where
  bits : r.2.bits v = bm.markAll i n
  below : Below v ⟨d, h⟩ r.2
  held : r.2.held = h
  done : r.1 = true ↔ v.bmblock + vb (i + n) < v.nblocks

/-- `x` is the byte with the bits marked so far. -/
theorem mark_loop_spec (v : Vol) (room : h.dedup.length < NBUFFERS) (n i : ℕ) (d : ℕ → ℕ → UInt8) (x : UInt8)
    (inside : v.bmblock + vb i < v.nblocks) (last : 0 < n → v.bmblock + vb (i + n - 1) < v.nblocks)
    (hx : i % 8 = 0 → x = d (v.bmblock + vb i) (hp i)) :
    Marked v d h i n ((St.put ⟨d, h⟩ (v.bmblock + vb i) (hp i) x).bits v)
      (mark_loop v n (hp i) (v.bmblock + vb i) (Bitmap.mask (i % 8)) x ⟨d, (v.bmblock + vb i) :: h⟩) := by
  induction n generalizing i d x with
  | zero =>
    rw [mark_loop]
    by_cases first : i % 8 = 0
    · have same : St.put ⟨d, h⟩ (v.bmblock + vb i) (hp i) x = ⟨d, h⟩ := by
        rw [hx first]
        exact put_self ⟨d, h⟩ _ _
      rw [mask_first first, if_neg (fun ne => ne rfl), release_cons, same]
      exact ⟨rfl, below_refl v _, rfl, iff_of_true rfl inside⟩
    · have other : Bitmap.mask (i % 8) ≠ 0x80 := by
        have := mod_lt i
        generalize i % 8 = p at *
        interval_cases p <;> first | exact absurd rfl first | decide
      rw [if_pos other, release_put]
      exact ⟨rfl, below_put (Nat.le_add_right _ _), rfl, iff_of_true rfl inside⟩
  | succ n ih =>
    have inside' : v.bmblock + vb (i + n) < v.nblocks := last (Nat.succ_pos n)
    have last' : 0 < n → v.bmblock + vb (i + 1 + n - 1) < v.nblocks := fun _ => by
      rwa [show i + 1 + n - 1 = i + n by omega]
    have sum : i + (n + 1) = i + 1 + n := by omega
    -- the byte is written, and the rest is marked behind it
    have stored {r : Bool × St} (hr : Marked v
        (St.put ⟨d, h⟩ (v.bmblock + vb i) (hp i) (x ||| Bitmap.mask (i % 8))).data h (i + 1) n
        ((St.put ⟨d, h⟩ (v.bmblock + vb i) (hp i) (x ||| Bitmap.mask (i % 8))).bits v) r) :
        Marked v d h i (n + 1) ((St.put ⟨d, h⟩ (v.bmblock + vb i) (hp i) x).bits v) r := by
      refine ⟨?_, ?_, hr.held, ?_⟩
      · rw [hr.bits, Blocks.markAll, mark_put]
      · exact (below_put (s := ⟨d, h⟩) (Nat.le_add_right _ _)).trans hr.below
      · rw [hr.done, sum]
    rw [mark_loop]
    dsimp only
    cases next_bit i with
    | bit more blk offs pos =>
      have rest := ih (i + 1) d (x ||| Bitmap.mask (i % 8)) (blk ▸ inside) last' (fun zero => by omega)
      rw [blk, offs, pos] at rest
      rw [mask_shift more, if_neg (mask_ne_zero more)]
      refine ⟨?_, rest.below, rest.held, ?_⟩
      · rw [rest.bits, Blocks.markAll, mark_put]
      · rw [rest.done, sum]
    | byte eighth offs blk next pos =>
      have rest := ih (i + 1) (St.put ⟨d, h⟩ (v.bmblock + vb i) (hp i) (x ||| Bitmap.mask (i % 8))).data
        ((St.put ⟨d, h⟩ (v.bmblock + vb i) (hp i) (x ||| Bitmap.mask (i % 8))).data (v.bmblock + vb (i + 1))
          (hp (i + 1))) (blk ▸ inside) last' (fun _ => rfl)
      rw [mask_last eighth, if_pos rfl, if_neg offs, ← blk, ← next, ← mask_first pos, blk]
      rw [blk] at rest
      refine stored ?_
      have same := put_self (St.put ⟨d, h⟩ (v.bmblock + vb i) (hp i) (x ||| Bitmap.mask (i % 8)))
        (v.bmblock + vb i) (hp (i + 1))
      exact ⟨rest.bits.trans (congrArg (fun s => Blocks.markAll (St.bits v s) (i + 1) n) same), rest.below,
        rest.held, rest.done⟩
    | block eighth offs blk next pos =>
      have crossed : v.bmblock + vb i + 1 = v.bmblock + vb (i + 1) := by omega
      rw [mask_last eighth, if_pos rfl, if_pos offs, release_put, crossed]
      refine stored ?_
      by_cases there : v.bmblock + vb (i + 1) < v.nblocks
      · have rest := ih (i + 1) (St.put ⟨d, h⟩ (v.bmblock + vb i) (hp i) (x ||| Bitmap.mask (i % 8))).data
          ((St.put ⟨d, h⟩ (v.bmblock + vb i) (hp i) (x ||| Bitmap.mask (i % 8))).data (v.bmblock + vb (i + 1))
            (hp (i + 1))) there last' (fun _ => rfl)
        have same := put_self (St.put ⟨d, h⟩ (v.bmblock + vb i) (hp i) (x ||| Bitmap.mask (i % 8)))
          (v.bmblock + vb (i + 1)) (hp (i + 1))
        rw [get_block_some there room, ← mask_first pos, ← next]
        exact ⟨rest.bits.trans (congrArg (fun s => Blocks.markAll (St.bits v s) (i + 1) n) same), rest.below,
          rest.held, rest.done⟩
      · have outside := Nat.le_of_not_lt there
        obtain rfl : n = 0 := by
          by_contra some_more
          have mono : vb (i + 1) ≤ vb (i + n) := vb_mono (by omega)
          omega
        rw [get_block_none outside]
        exact ⟨rfl, below_refl v _, rfl, iff_of_false Bool.false_ne_true there⟩

/-- Without another block, the loop gets to its end. -/
theorem mark_loop_short (v : Vol) (n offs b : ℕ) (x : UInt8) (s : St) (hp : p < 8)
    (short : offs * 8 + p + n < 4096) : (mark_loop v n offs b (Bitmap.mask p) x s).1 = true := by
  induction n generalizing p offs x s with
  | zero => rfl
  | succ n ih =>
    rw [mark_loop]
    dsimp only
    rcases Nat.lt_or_ge (p + 1) 8 with more | eighth
    · rw [mask_shift more, if_neg (mask_ne_zero more)]
      exact ih offs _ s more (by omega)
    · rw [mask_last (by omega), if_pos rfl, if_neg (by omega)]
      exact ih (offs + 1) _ _ (p := 0) (by decide) (by omega)

end

end RSX280.Vol180
