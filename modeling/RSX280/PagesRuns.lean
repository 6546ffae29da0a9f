import RSX280.PagesBufs

/-!
# The records of the text editor are an array

The calls do what they do to an array, as long as there is space for a buffer beside the block map. The
space that `START` wants is not enough for the work file that it asks for.
-/

namespace RSX280.Ted

open Numbered

variable {β : Type} [Inhabited β] {s t : Sys β} {c m n r k : ℕ}

/-! ### Allocation -/

theorem recs_vars {x y : ℕ} : ({ s with FSTFRE := x, NUMFRE := y } : Sys β).recs = s.recs :=
  recs_congr rfl rfl rfl rfl fun _ => rfl

/-- There is space for one more byte of the map, unless there is no buffer left. -/
theorem alc1_spec (h : s.Good 0 m) : (alc1 s = none → s.NUMBUF = 0 ∧ s.BFPOOL ≤ s.ENDMAP) ∧
    ∀ t, alc1 s = some t → t.Good 0 m ∧ Same s t ∧ t.ENDMAP < t.BFPOOL := by
  unfold alc1
  by_cases hroom : s.ENDMAP < s.BFPOOL
  · rw [if_pos hroom]
    refine ⟨(by rintro ⟨⟩), fun t ht => ?_⟩
    obtain rfl := Option.some.inj ht
    exact ⟨h, ⟨rfl, rfl, rfl⟩, hroom⟩
  · rw [if_neg hroom]
    by_cases hz : s.NUMBUF = 0
    · rw [if_pos hz]
      exact ⟨fun _ => ⟨hz, Nat.not_lt.mp hroom⟩, by rintro _ ⟨⟩⟩
    · rw [if_neg hz]
      refine ⟨(by rintro ⟨⟩), fun t ht => ?_⟩
      obtain rfl := Option.some.inj ht
      have hpos := Nat.pos_of_ne_zero hz
      obtain ⟨hgood, hsame⟩ := SWPOUT_spec h hpos (Nat.le_refl _)
      have hroom' : s.ENDMAP < s.BFPOOL + BUFSIZ := by
        have := h.apart
        unfold BUFSIZ
        omega
      refine ⟨⟨h.program, h.word, h.endmap, ?_, hroom'.le, h.blks, fun n hp hn _ => ?_,
        fun blk hb hm => ?_, fun n hp hn _ => ?_⟩, hsame.trans (Same.of_vars rfl rfl rfl rfl rfl rfl
          rfl rfl fun _ => rfl), hroom'⟩
      · have := h.pool
        change s.BFPOOL + BUFSIZ + BUFSIZ * (s.NUMBUF - 1) = s.MEMTOP
        unfold BUFSIZ at *
        omega
      · change n ≤ s.NUMBUF - 1 at hn
        exact hgood.named n hp (show n ≤ s.NUMBUF by omega) (by omega)
      · obtain ⟨hle, hne, hblk⟩ := hgood.held blk hb hm
        refine ⟨?_, hm, hblk⟩
        exact Nat.le_sub_one_of_lt (Nat.lt_of_le_of_ne hle hne)
      · change n ≤ s.NUMBUF - 1 at hn
        exact hgood.clean n hp (show n ≤ s.NUMBUF by omega) (by omega)

/-- The array with a new block. -/
theorem flat_assign {f y : ℕ} (hrecs : ∀ r < 32 * (s.NBLKS + 1),
    (assign s c (s.NBLKS + 1) ⟨s.USECNT, true, s.NBLKS, links s.NBLKS (s.buf c).recs⟩).recs r =
      if r / 32 = s.NBLKS then links s.NBLKS (s.buf c).recs (r % 32) else s.recs r) :
    ({ assign s c (s.NBLKS + 1) ⟨s.USECNT, true, s.NBLKS, links s.NBLKS (s.buf c).recs⟩ with
      FSTFRE := f, NUMFRE := y } : Sys β).flat = ⟨fun r => if r / 32 = s.NBLKS then
        ⟨if r % 32 < 30 then r + 1 else 0, ((s.buf c).recs (r % 32)).rest⟩ else s.recs r, f, y,
          s.NBLKS + 1, s.WFBLKS⟩ := by
  refine congrArg (fun g => (⟨g, f, y, s.NBLKS + 1, s.WFBLKS⟩ : Flat β)) (recs_vars.trans ?_)
  funext r
  by_cases hr : r < 32 * (s.NBLKS + 1)
  · refine (hrecs r hr).trans ?_
    by_cases hb : r / 32 = s.NBLKS
    · rw [if_pos hb, if_pos hb]
      unfold links
      rw [show 32 * s.NBLKS + r % 32 + 1 = r + 1 by omega]
    · rw [if_neg hb, if_neg hb]
  · rw [if_neg (by omega)]
    unfold Sys.recs
    exact (if_neg hr).trans (if_neg (by omega)).symm

/-- A new block is in a buffer, unless there is no space for one. -/
theorem alc2_spec (h : s.Good 0 s.NBLKS) (hmost : s.WFBLKS ≤ 2048)
    (hroom : s.ENDMAP < s.BFPOOL) (hfree : s.FSTFRE = 0) (hfull : s.NBLKS < s.WFBLKS) :
    (alc2 s = none → s.NUMBUF = 0 ∧ s.BFPOOL < s.ENDMAP + 1 + BUFSIZ) ∧
      ∀ r t, alc2 s = some (r, t) → t.Ok ∧ (∃ junk, (r, t.flat) = s.flat.ALLREC junk) ∧
        t.MEMBOT = s.MEMBOT ∧ t.MEMTOP = s.MEMTOP := by
  have hgrow : ({ s with ENDMAP := s.ENDMAP + 1 } : Sys β).Good 0 (s.NBLKS + 1) :=
    ⟨h.program, h.word, congrArg Nat.succ h.endmap, h.pool, hroom, Nat.le_succ _, h.named, h.held,
      h.clean⟩
  obtain ⟨hnone, hget⟩ := NEWBUF_spec hgrow
  unfold alc2
  generalize NEWBUF { s with ENDMAP := s.ENDMAP + 1 } = o at hnone hget
  cases o with
  | none => exact ⟨fun _ => hnone rfl, by rintro _ _ ⟨⟩⟩
  | some uc =>
    obtain ⟨u, c⟩ := uc
    obtain ⟨hgood, hsame, hpos, hc, -⟩ := hget u c rfl
    have hvars : Same s { s with ENDMAP := s.ENDMAP + 1 } :=
      Same.of_vars rfl rfl rfl rfl rfl rfl rfl rfl fun _ => rfl
    have hsame := hvars.trans hsame
    have hblks := hsame.NBLKS
    refine ⟨(by rintro ⟨⟩), fun r t ht => ?_⟩
    obtain ⟨rfl, rfl⟩ := Prod.mk.inj (Option.some.inj ht)
    have hend : s.ENDMAP = u.MEMBOT + u.NBLKS := by
      rw [hsame.MEMBOT, hblks]
      exact h.endmap
    rw [← hblks] at hgood
    obtain ⟨hgood', hrecs⟩ := assign_spec (k := u.NBLKS + 1)
      (x := ⟨u.USECNT, true, u.NBLKS, links u.NBLKS (u.buf c).recs⟩) hgood hpos hc (Nat.lt_succ_self _)
        (Nat.le_succ _) (Nat.le_refl _) (fun j hj hne => by dsimp only at hne; omega)
        (fun n hp hn hne hb => by have := (hgood.named n hp hn hne).1; dsimp only at hb; omega)
        fun hd => Bool.noConfusion hd
    dsimp only
    rw [hend]
    have hsize : u.NBLKS + 1 ≤ u.WFBLKS := by
      rw [hblks, hsame.WFBLKS]
      exact hfull
    refine ⟨⟨?_, fun _ => Nat.lt_of_lt_of_le hpos hc, hsize, hsame.WFBLKS ▸ hmost⟩,
      ⟨fun r => ((u.buf c).recs (r % 32)).rest, ?_⟩,
      hsame.MEMBOT, hsame.MEMTOP⟩
    · exact hgood'.vars
    · unfold Flat.ALLREC
      rw [if_pos (show s.flat.FSTFRE = 0 from hfree), if_neg (show ¬s.flat.WFBLKS ≤ s.flat.NBLKS from
        Nat.not_le.mpr hfull), ← hsame.flat]
      exact Prod.ext rfl (flat_assign hrecs)

/-- `ALLREC` is that of the array. It fails only where the file may grow and there is no space. -/
theorem ALLREC_spec (h : s.Ok) (hfree : s.FSTFRE ≠ 0 → s.FSTFRE < 32 * s.NBLKS) :
    (ALLREC s = none → s.NBLKS < s.WFBLKS ∧ s.MEMTOP < s.MEMBOT + s.NBLKS + 1 + BUFSIZ) ∧
      ∀ r t, ALLREC s = some (r, t) → t.Ok ∧ (∃ junk, (r, t.flat) = s.flat.ALLREC junk) ∧
        t.MEMBOT = s.MEMBOT ∧ t.MEMTOP = s.MEMTOP := by
  unfold ALLREC
  by_cases hz : s.FSTFRE = 0
  · rw [if_pos hz]
    by_cases hfull : s.WFBLKS ≤ s.NBLKS
    · rw [if_pos hfull]
      refine ⟨(by rintro ⟨⟩), fun r t ht => ?_⟩
      obtain ⟨rfl, rfl⟩ := Prod.mk.inj (Option.some.inj ht)
      refine ⟨h, ⟨fun _ => default, ?_⟩, rfl, rfl⟩
      rw [Flat.ALLREC, if_pos (show s.flat.FSTFRE = 0 from hz),
        if_pos (show s.flat.WFBLKS ≤ s.flat.NBLKS from hfull)]
    · rw [if_neg hfull]
      obtain ⟨hnone, hget⟩ := alc1_spec h.good
      generalize alc1 s = o at hnone hget
      cases o with
      | none =>
        refine ⟨fun _ => ⟨Nat.not_le.mp hfull, ?_⟩, by rintro _ _ ⟨⟩⟩
        obtain ⟨hno, hle⟩ := hnone rfl
        have h₁ := h.good.pool
        have h₂ := h.good.endmap
        rw [hno] at h₁
        omega
      | some u =>
        obtain ⟨hgood, hsame, hroom⟩ := hget u rfl
        have hu : u.FSTFRE = 0 := (congrArg Flat.FSTFRE hsame.flat).trans hz
        have hfull' : u.NBLKS < u.WFBLKS := by
          rw [hsame.NBLKS, hsame.WFBLKS]
          exact Nat.not_le.mp hfull
        obtain ⟨hnone', hget'⟩ := alc2_spec (hsame.NBLKS ▸ hgood) (hsame.WFBLKS ▸ h.most) hroom hu hfull'
        refine ⟨fun hn => ⟨Nat.not_le.mp hfull, ?_⟩, fun r t ht => ?_⟩
        · obtain ⟨hno, hlt⟩ := hnone' hn
          have h₁ := hgood.pool
          have h₂ := hgood.endmap
          rw [hno] at h₁
          rw [hsame.MEMTOP] at h₁
          rw [hsame.MEMBOT] at h₂
          omega
        · obtain ⟨hok, ⟨junk, hjunk⟩, hbot, htop⟩ := hget' r t ht
          exact ⟨hok, ⟨junk, hsame.flat ▸ hjunk⟩, hbot.trans hsame.MEMBOT, htop.trans hsame.MEMTOP⟩
  · rw [if_neg hz]
    obtain ⟨t, n, hld, hok, hsame, hat, hd⟩ := LDREC_spec h hz (hfree hz) true
    rw [hld]
    obtain ⟨hset, hrecs⟩ := set_spec (y := { t.get n s.FSTFRE with link := 0 }) hok hat (hd rfl)
    refine ⟨(by rintro ⟨⟩), fun r u hu => ?_⟩
    obtain ⟨rfl, rfl⟩ := Prod.mk.inj (Option.some.inj hu)
    refine ⟨hset.vars, ⟨fun _ => default, ?_⟩, hsame.MEMBOT, hsame.MEMTOP⟩
    have hread : t.recs = s.recs := congrArg Flat.recs hsame.flat
    have hnum : t.NUMFRE = s.NUMFRE := congrArg Flat.NUMFRE hsame.flat
    rw [Flat.ALLREC, if_neg (show ¬s.flat.FSTFRE = 0 from hz)]
    refine Prod.ext rfl ((congrArg (fun f => (⟨f, (t.get n s.FSTFRE).link, (t.NUMFRE + 65535) % 65536,
      t.NBLKS, t.WFBLKS⟩ : Flat β)) (recs_vars.trans hrecs)).trans ?_)
    rw [hat.get, hread, hnum, hsame.NBLKS, hsame.WFBLKS]
    rfl

/-- The chain of a record is walked to its end. The induction is on the chain. -/
theorem frc1_spec {e : ℕ} {l : List ℕ} (h : s.Ok) (hl : Linked s.flat.link r l) (hne : l ≠ [])
    (hlt : ∀ x ∈ l, x < 32 * s.NBLKS) (hk : l.length ≤ k) : ∃ t, frc1 k s e r = some t ∧ t.Ok ∧
      t.flat = { s.flat.set (l.getLast hne) { s.recs (l.getLast hne) with link := e } with
        NUMFRE := (s.NUMFRE + l.length) % 65536 } ∧ t.MEMBOT = s.MEMBOT ∧ t.MEMTOP = s.MEMTOP := by
  induction l generalizing s r k with
  | nil => exact absurd rfl hne
  | cons q l ih =>
    obtain ⟨rfl, hr, hl⟩ := hl
    obtain ⟨k, rfl⟩ : ∃ j, k = j + 1 := ⟨k - 1, by rw [List.length_cons] at hk; omega⟩
    have hvars : ({ s with NUMFRE := (s.NUMFRE + 1) % 65536 } : Sys β).Ok := h.vars
    obtain ⟨t, n, hld, hok, hsame, hat, hd⟩ := LDREC_spec hvars hr (hlt r List.mem_cons_self) true
    have hread : t.recs = s.recs := (congrArg Flat.recs hsame.flat).trans recs_vars
    have hnum : t.NUMFRE = (s.NUMFRE + 1) % 65536 := congrArg Flat.NUMFRE hsame.flat
    have hfree : t.FSTFRE = s.FSTFRE := congrArg Flat.FSTFRE hsame.flat
    have hflink : t.flat.link = s.flat.link := by
      funext x
      exact congrArg (fun f : ℕ → Rec β => (f x).link) hread
    unfold frc1
    rw [hld]
    dsimp only
    rw [hat.get, hread]
    by_cases hnil : l = []
    · subst hnil
      have hz : (s.recs r).link = 0 := hl
      obtain ⟨hset, hrecs⟩ := set_spec (y := { s.recs r with link := e }) hok hat (hd rfl)
      rw [if_pos hz]
      refine ⟨_, rfl, hset, ?_, hsame.MEMBOT, hsame.MEMTOP⟩
      refine (congrArg (fun f => (⟨f, t.FSTFRE, t.NUMFRE, t.NBLKS, t.WFBLKS⟩ : Flat β)) hrecs).trans ?_
      rw [hread, hnum, hfree, hsame.NBLKS, hsame.WFBLKS]
      rfl
    · have hz : ¬(s.recs r).link = 0 := fun hz => hnil (hl.zero_iff.mp hz)
      rw [if_neg hz]
      obtain ⟨u, hu, huok, huflat, hbot, htop⟩ := ih (s := t) (k := k) (r := (s.recs r).link) hok
        (hflink.symm ▸ hl) hnil (fun x hx => hsame.NBLKS ▸ hlt x (List.mem_cons_of_mem _ hx))
          (Nat.le_of_succ_le_succ hk)
      refine ⟨u, hu, huok, huflat.trans ?_, hbot.trans hsame.MEMBOT, htop.trans hsame.MEMTOP⟩
      rw [List.getLast_cons hnil, hread, hnum, hsame.flat, List.length_cons]
      unfold Flat.set
      dsimp only
      rw [show ((s.NUMFRE + 1) % 65536 + l.length) % 65536 = (s.NUMFRE + (l.length + 1)) % 65536 by
        omega]
      exact congrArg (fun f => (⟨Function.update f _ _, s.FSTFRE, _, s.NBLKS, s.WFBLKS⟩ : Flat β))
        recs_vars

/-- `FREREC` is that of the array. -/
theorem FREREC_spec {c : List ℕ} (h : s.Ok) (hr : r ≠ 0) (hc : Linked s.flat.link r c)
    (hlt : ∀ x ∈ c, x < 32 * s.NBLKS) (hlen : c.length ≤ 65536) : ∃ t, FREREC s r = some t ∧ t.Ok ∧
      t.flat = s.flat.FREREC r ∧ t.MEMBOT = s.MEMBOT ∧ t.MEMTOP = s.MEMTOP := by
  have hne : c ≠ [] := fun hnil => hr (hc.zero_iff.mpr hnil)
  have hvars : ({ s with FSTFRE := r } : Sys β).Ok := h.vars
  have hrecs : ({ s with FSTFRE := r } : Sys β).recs = s.recs := recs_vars
  have hlink : ({ s with FSTFRE := r } : Sys β).flat.link = s.flat.link := by
    funext x
    exact congrArg (fun f : ℕ → Rec β => (f x).link) hrecs
  obtain ⟨t, ht, hok, hflat, hbot, htop⟩ := frc1_spec (e := s.FSTFRE) hvars (hlink ▸ hc) hne hlt hlen
  refine ⟨t, ht, hok, hflat.trans ?_, hbot, htop⟩
  have hchain : s.flat.chain r = c := hc.follow hlen
  unfold Flat.FREREC
  rw [hchain, List.getLast?_eq_some_getLast hne, hrecs]
  exact congrArg (fun f => (⟨Function.update f _ _, _, _, _, _⟩ : Flat β)) hrecs

/-! ### Runs -/

/-- Each call is that of the array. Only `ALLREC` may fail, for lack of space. -/
theorem step_spec {free A : List ℕ} {op : Op β} (h : s.Ok) (hb : s.flat.Books free A)
    (hop : s.flat.Ready A op) :
    (step s op = none → s.NBLKS < s.WFBLKS ∧ s.MEMTOP < s.MEMBOT + s.NBLKS + 1 + BUFSIZ) ∧
      ∀ t o, step s op = some (t, o) → t.Ok ∧ t.MEMBOT = s.MEMBOT ∧ t.MEMTOP = s.MEMTOP ∧
        ∃ junk free', (t.flat, o) = s.flat.step junk op ∧ t.flat.Books free' (s.flat.alive A o op) := by
  have hbelow : ∀ x ∈ A, x ≠ 0 ∧ x < 32 * s.NBLKS := fun x hx =>
    hb.range x (List.mem_append_right _ hx)
  cases op with
  | ALLREC =>
    obtain ⟨hnone, hget⟩ := ALLREC_spec h hb.FSTFRE_lt
    unfold step
    dsimp only
    generalize ALLREC s = o at hnone hget
    cases o with
    | none => exact ⟨fun _ => hnone rfl, by rintro _ _ ⟨⟩⟩
    | some rt =>
      obtain ⟨r, t⟩ := rt
      obtain ⟨hok, ⟨junk, hjunk⟩, hbot, htop⟩ := hget r t rfl
      refine ⟨(by rintro ⟨⟩), fun u o hu => ?_⟩
      obtain ⟨rfl, rfl⟩ := Prod.mk.inj (Option.some.inj hu)
      obtain ⟨⟨free', hfree⟩, -⟩ := hb.ALLREC junk
      have hr : r = (s.flat.ALLREC junk).1 := congrArg Prod.fst hjunk
      have ht : t.flat = (s.flat.ALLREC junk).2 := congrArg Prod.snd hjunk
      refine ⟨hok, hbot, htop, junk, free', by rw [ht, hr]; rfl, ?_⟩
      rw [← ht, ← hr] at hfree
      unfold Flat.alive Out.nums
      dsimp only
      by_cases hz : r = 0
      · rw [if_pos hz] at hfree ⊢
        exact hfree
      · rw [if_neg hz] at hfree ⊢
        exact hfree
  | FREREC r =>
    obtain ⟨hr, c, hc, hA⟩ := hop
    obtain ⟨hchain, hbooks⟩ := hb.FREREC (Nat.le_trans h.size h.most) hr hc hA
    have hlen : c.length ≤ 65536 := by
      rw [← hchain]
      exact follow_length
    obtain ⟨t, ht, hok, hflat, hbot, htop⟩ := FREREC_spec h hr hc (fun x hx => (hbelow x (hA x hx)).2) hlen
    unfold step
    dsimp only
    rw [ht]
    refine ⟨(by rintro ⟨⟩), fun u o hu => ?_⟩
    obtain ⟨rfl, rfl⟩ := Prod.mk.inj (Option.some.inj hu)
    refine ⟨hok, hbot, htop, fun _ => default, c ++ free, by rw [hflat]; rfl, ?_⟩
    rw [hflat, Flat.alive, hchain]
    exact hbooks
  | LDREC r =>
    obtain ⟨t, n, hld, hok, hsame, hat, -⟩ := LDREC_spec h hop.1 hop.2 false
    unfold step
    dsimp only
    rw [hld]
    refine ⟨(by rintro ⟨⟩), fun u o hu => ?_⟩
    obtain ⟨rfl, rfl⟩ := Prod.mk.inj (Option.some.inj hu)
    refine ⟨hok, hsame.MEMBOT, hsame.MEMTOP, fun _ => default, free, ?_, hsame.flat ▸ hb⟩
    rw [hsame.flat, hat.get]
    exact congrArg (fun f : ℕ → Rec β => (s.flat, Out.data (f r))) (congrArg Flat.recs hsame.flat)
  | LDRECD r f =>
    obtain ⟨hne, hlt⟩ := hbelow r hop
    obtain ⟨t, n, hld, hok, hsame, hat, hd⟩ := LDREC_spec h hne hlt true
    obtain ⟨hset, hrecs⟩ := set_spec (y := f (t.get n r)) hok hat (hd rfl)
    have hread : t.recs = s.recs := congrArg Flat.recs hsame.flat
    unfold step
    dsimp only
    rw [hld]
    refine ⟨(by rintro ⟨⟩), fun u o hu => ?_⟩
    obtain ⟨rfl, rfl⟩ := Prod.mk.inj (Option.some.inj hu)
    have hflat : (t.set n r (f (t.get n r))).flat = s.flat.set r (f (s.recs r)) := by
      refine (congrArg (fun f => (⟨f, t.FSTFRE, t.NUMFRE, t.NBLKS, t.WFBLKS⟩ : Flat β)) hrecs).trans ?_
      rw [hat.get, hread, ← hsame.flat]
      unfold Flat.set Sys.flat
      rw [hread]
    refine ⟨hset, hsame.MEMBOT, hsame.MEMTOP, fun _ => default, free, ?_, ?_⟩
    · rw [hflat, hat.get, hread]
      rfl
    · rw [hflat]
      exact hb.set hop

/-- Calls that may be made, one after another: what they return, the state, and the allocated
records. -/
inductive Run (s₀ : Sys β) : List (Op β) → List (Out β) → Sys β → List ℕ → Prop
  | nil : Run s₀ [] [] s₀ []
  | snoc {ops os s A op t o} (h : Run s₀ ops os s A) (hop : s.flat.Ready A op)
    (hs : step s op = some (t, o)) : Run s₀ (ops ++ [op]) (os ++ [o]) t (s.flat.alive A o op)

/-- The calls are those of the array, and none of them fails. `ALLREC` returns zero if no record is
free and the work file has its full size. -/
def IsArray (s₀ : Sys β) : Prop :=
  ∀ ops os s A, Run s₀ ops os s A → s.Ok ∧ Flat.Run s₀.flat ops os s.flat ∧
    (∃ free, s.flat.Books free A) ∧ (∀ op, s.flat.Ready A op → step s op ≠ none) ∧
      ∀ r t, ALLREC s = some (r, t) → (r = 0 ↔ s.FSTFRE = 0 ∧ s.NBLKS = s.WFBLKS)

section Start

variable {a : Area} {w : ℕ} {map : ℕ → ℕ} {buf : ℕ → Buf β} {file : ℕ → ℕ → Rec β} {ops : List (Op β)}
  {os : List (Out β)} {A : List ℕ}

theorem START_spec (hw : w ≤ 2048) : (START a w map buf file).Ok ∧
    (START a w map buf file).flat.Books [] [] := by
  have hroom := a.room
  refine ⟨⟨⟨a.program, a.word, rfl, rfl, Nat.le_trans (Nat.le_add_right _ _) hroom, Nat.le_refl _,
    fun n hp hn => ?_, fun blk hb => absurd hb (Nat.not_lt_zero _), fun n hp hn => ?_⟩,
      fun hb => absurd hb (Nat.lt_irrefl _), Nat.zero_le _, hw⟩, rfl, List.nodup_nil,
        List.forall_mem_nil _, rfl⟩
  · exact absurd (Nat.lt_of_lt_of_le hp hn) (Nat.lt_irrefl _)
  · exact absurd (Nat.lt_of_lt_of_le hp hn) (Nat.lt_irrefl _)

theorem run_spec (hw : w ≤ 2048) (h : Run (START a w map buf file) ops os s A) : s.Ok ∧
    Flat.Run (START a w map buf file).flat ops os s.flat ∧ (∃ free, s.flat.Books free A) ∧
      s.MEMBOT = a.MEMBOT ∧ s.MEMTOP = a.MEMTOP ∧ s.WFBLKS = w := by
  induction h with
  | nil => exact ⟨(START_spec hw).1, Flat.Run.nil, ⟨[], (START_spec hw).2⟩, rfl, rfl, rfl⟩
  | snoc h hop hs ih =>
    obtain ⟨hok, hrun, ⟨free, hbooks⟩, hbot, htop, hwf⟩ := ih
    obtain ⟨hok', hbot', htop', junk, free', hstep, hbooks'⟩ := (step_spec hok hbooks hop).2 _ _ hs
    obtain ⟨hflat, ho⟩ := Prod.mk.inj hstep
    refine ⟨hok', ?_, ⟨free', hbooks'⟩, hbot'.trans hbot, htop'.trans htop, ?_⟩
    · rw [hflat, ho]
      exact hrun.snoc _ junk
    · exact (congrArg Flat.WFBLKS hflat).trans ((Flat.step_WFBLKS _ _ _).trans hwf)

/-- As long as there is less space than the blocks and a buffer need, the file never has its full
size. So the next record is always a new one, until there is no buffer for it. -/
theorem run_ALLREC (hw : w ≤ 2048) (hroom : a.MEMTOP - a.MEMBOT < w + BUFSIZ) (k : ℕ) :
    (∃ ops os s A, Run (START a w map buf file) ops os s A ∧ step s .ALLREC = none) ∨
      ∃ ops os s A, Run (START a w map buf file) ops os s A ∧ A.length = k := by
  induction k with
  | zero => exact Or.inr ⟨[], [], _, [], Run.nil, rfl⟩
  | succ k ih =>
    rcases ih with hnone | ⟨ops, os, s, A, hrun, hk⟩
    · exact Or.inl hnone
    obtain ⟨hok, -, ⟨free, hbooks⟩, hbot, htop, hwf⟩ := run_spec hw hrun
    have hop : s.flat.Ready A .ALLREC := trivial
    cases hs : step s .ALLREC with
    | none => exact Or.inl ⟨ops, os, s, A, hrun, hs⟩
    | some u =>
      obtain ⟨t, o⟩ := u
      refine Or.inr ⟨_, _, t, _, hrun.snoc hop hs, ?_⟩
      obtain ⟨-, -, -, junk, -, hstep, -⟩ := (step_spec hok hbooks hop).2 t o hs
      have hlt : s.NBLKS < s.WFBLKS := by
        have h₁ := hok.good.endmap
        have h₂ := hok.good.pool
        have h₃ := hok.good.apart
        have h₄ := hok.some
        have h₅ := a.room
        rw [hbot] at h₁
        rw [htop] at h₂
        unfold BUFSIZ at *
        omega
      have hnew : (s.flat.ALLREC junk).1 ≠ 0 := fun hz =>
        Nat.not_le.mpr hlt ((hbooks.ALLREC junk).2.mp hz).2
      have ho : o = .num (s.flat.ALLREC junk).1 := congrArg Prod.snd hstep
      subst ho
      unfold Flat.alive Out.nums
      dsimp only
      rw [if_neg hnew, List.length_append, List.length_singleton, hk, Nat.add_comm]

/-- With too little space there is a call that fails. -/
theorem starved (hw : w ≤ 2048) (hroom : a.MEMTOP - a.MEMBOT < w + BUFSIZ) :
    ∃ ops os s A, Run (START a w map buf file) ops os s A ∧ step s .ALLREC = none := by
  have hmany : _ ∨ ∃ ops os s A, Run (START a w map buf file) ops os s A ∧ A.length = 65536 :=
    run_ALLREC hw hroom 65536
  rcases hmany with hnone | ⟨ops, os, s, A, hrun, hk⟩
  · exact hnone
  obtain ⟨hok, -, ⟨free, hbooks⟩, -⟩ := run_spec hw hrun
  have h₁ := hbooks.all
  have h₂ : s.NBLKS ≤ 2048 := Nat.le_trans hok.size hok.most
  rw [List.length_append, hk] at h₁
  change _ = 32 * s.NBLKS - 1 at h₁
  omega

/-- The records are an array if and only if a buffer has space beside the map of the full file. -/
theorem records_are_array (hw : w ≤ 2048) :
    IsArray (START a w map buf file) ↔ w + BUFSIZ ≤ a.MEMTOP - a.MEMBOT := by
  refine ⟨fun h => Nat.not_lt.mp fun hroom => ?_, fun hroom ops os s A hrun => ?_⟩
  · obtain ⟨ops, os, s, A, hrun, hnone⟩ : ∃ ops os s A, Run (START a w map buf file) ops os s A ∧
        step s .ALLREC = none := starved hw hroom
    exact (h ops os s A hrun).2.2.2.1 .ALLREC trivial hnone
  · obtain ⟨hok, hflat, ⟨free, hbooks⟩, hbot, htop, hwf⟩ := run_spec hw hrun
    refine ⟨hok, hflat, ⟨free, hbooks⟩, fun op hop hnone => ?_, fun r t ht => ?_⟩
    · obtain ⟨h₁, h₂⟩ := (step_spec hok hbooks hop).1 hnone
      have := a.room
      omega
    · obtain ⟨-, ⟨junk, hjunk⟩, -⟩ := (ALLREC_spec hok hbooks.FSTFRE_lt).2 r t ht
      have hr : r = (s.flat.ALLREC junk).1 := congrArg Prod.fst hjunk
      rw [hr, (hbooks.ALLREC junk).2, ← hbooks.linked.zero_iff]
      exact and_congr_right fun _ => ⟨fun hle => Nat.le_antisymm hok.size hle, fun heq => heq.ge⟩

end Start

/-- A start with records of two bytes. -/
def start (bot top : ℕ) (h : BUFSIZ ≤ bot ∧ bot + 2048 ≤ top ∧ top < 65536) : Sys Unit :=
  START ⟨bot, top, h.1, h.2.1, h.2.2⟩ 2048 (fun _ => 0) (fun _ => ⟨0, false, 0, fun _ => ⟨0, ()⟩⟩)
    fun _ _ => ⟨0, ()⟩

/-- A memory of 10000 bytes is enough for all 2048 blocks. -/
theorem records_are_array_10000 : IsArray (start 20000 30000 (by decide)) :=
  (records_are_array (by decide)).mpr (by decide)

/-- The 2 KB that `START` wants are not. -/
theorem not_array_2048 : ¬IsArray (start 20000 22048 (by decide)) := by
  intro h
  obtain ⟨ops, os, s, A, hrun, hnone⟩ : ∃ ops os s A,
      Run (start 20000 22048 (by decide)) ops os s A ∧ step s .ALLREC = none := by
    refine starved ?_ ?_
    · exact Nat.le_refl _
    · decide
  exact (h ops os s A hrun).2.2.2.1 .ALLREC trivial hnone

end RSX280.Ted
