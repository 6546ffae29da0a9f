import RSX280.FileMaps

/-!
# Files that grow

A new allocation block, and a new cluster of data, are apart from all that the file has, so that
it stays consistent (`Fcb.Consistent.extalc`, `Fcb.Consistent.locate`).
-/

namespace RSX280.Fileio

open Bitmap (bk2cl)

variable {v v' : Volume} {alc : ℕ → Prop}

/-! ## A new cluster -/

/-- What `ALLSGC` does to the volume -/
structure Allocated (v v' : Volume) (n : ℕ) : Prop where
  lt : n < v.clusters
  free : v.bm.used n = false
  used : ∀ i, v'.bm.used i = (decide (i = n) || v.bm.used i)
  blks : v'.blks = v.blks
  clf : v'.clf = v.clf
  disk : v'.disk = v.disk

theorem allocated_allsgc {n : ℕ} (h : v.allsgc = (.ok n, v')) : Allocated v v' n := by
  obtain ⟨hn, hv⟩ := Prod.mk.inj h
  subst hv
  have hvcb : v.toVcb.allsgc = (.ok n, v.toVcb.allsgc.2) := Prod.ext hn rfl
  obtain ⟨hlt, hfree, hbm⟩ := Bitmap.Vcb.allsgc_eq_ok hvcb
  have htakes := Bitmap.Vcb.takes_allsgc v.toVcb
  rw [hvcb] at htakes
  refine ⟨hlt, hfree, fun i => ?_, htakes.1, htakes.2.1, rfl⟩
  rw [hbm]
  exact Bitmap.used_mark v.bm n i

/-- More clusters are in use, and the blocks are the same. -/
structure Grows (v v' : Volume) : Prop where
  clf : v'.clf = v.clf
  blks : v'.blks = v.blks
  disk : v'.disk = v.disk
  used : ∀ i, v.bm.used i = true → v'.bm.used i = true

theorem Grows.refl (v : Volume) : Grows v v := ⟨rfl, rfl, rfl, fun _ h => h⟩

theorem Allocated.grows {n : ℕ} (h : Allocated v v' n) : Grows v v' :=
  ⟨h.clf, h.blks, h.disk, fun i hi => by rw [h.used, hi, Bool.or_true]⟩

theorem Data.grow {e : ℕ} (h : Data v alc e) (hg : Grows v v') : Data v' alc e :=
  ⟨by rw [hg.clf]; exact h.start, by rw [hg.clf]; exact h.le,
    by rw [hg.clf]; exact hg.used _ h.used, by rw [hg.clf]; exact h.apart⟩

/-- A block at `lbn` that is not one of data -/
structure Apart (v v' : Volume) (alc : ℕ → Prop) (lbn : ℕ) : Prop where
  ne : lbn ≠ 0
  lt : lbn < 16777216
  used : v'.bm.used (bk2cl lbn v.clf) = true
  data : ∀ e, Data v alc e → bk2cl lbn v.clf ≠ bk2cl e v.clf

theorem cl2bk_eq {n clf : ℕ} (h : n * 2 ^ clf < 16777216) : cl2bk n clf = n * 2 ^ clf := by
  rw [cl2bk, Nat.shiftLeft_eq, Nat.mod_eq_of_lt h]

theorem bk2cl_add {e o clf : ℕ} (h : rem e clf = 0) (ho : o < 2 ^ clf) :
    bk2cl (e + o) clf = bk2cl e clf := by
  rw [rem] at h
  rw [bk2cl_eq, bk2cl_eq, Nat.add_div_eq_of_add_mod_lt (by rw [h]; omega), Nat.div_eq_of_lt ho,
    Nat.add_zero]

namespace Fcb

variable {f : Fcb}

theorem Consistent.grow (h : f.Consistent v alc) (hg : Grows v v') : f.Consistent v' alc where
  clf := by rw [hg.clf]; exact h.clf
  blks := by rw [hg.blks]; exact h.blks
  boot := hg.used 0 h.boot
  block m hm := by
    obtain ⟨h₁, h₂, h₃⟩ := h.block m hm
    rw [hg.clf]
    exact ⟨h₁, h₂, hg.used _ h₃⟩
  prev := by rw [hg.disk]; exact h.prev
  next := by rw [hg.disk]; exact h.next
  first := h.first
  cached := h.cached
  direct i hi := (h.direct i hi).imp_right fun hd => hd.grow hg
  entry m hm vcn := by
    rw [hg.disk]
    exact (h.entry m hm vcn).imp_right fun hd => hd.grow hg

/-- The cluster that `ALLSGC` returns -/
theorem Consistent.allsgc (h : f.Consistent v alc) {n : ℕ} (ha : Allocated v v' n) :
    Data v' alc (cl2bk n v.clf) ∧ Apart v v' alc (cl2bk n v.clf) := by
  have hpos : 0 < 2 ^ v.clf := Nat.two_pow_pos _
  have hend : (n + 1) * 2 ^ v.clf ≤ v.blks := by
    have hlt := ha.lt
    rw [Bitmap.Vcb.clusters, bk2cl_eq] at hlt
    exact (Nat.mul_le_mul_right _ hlt).trans (Nat.div_mul_le_self _ _)
  have hblks := h.blks
  rw [Nat.add_mul, Nat.one_mul] at hend
  have hother : ∀ i, v.bm.used i = true → i ≠ n := by
    rintro i hi rfl
    rw [ha.free] at hi
    cases hi
  have hn : n ≠ 0 := fun h₀ => hother 0 h.boot h₀.symm
  have hcl : bk2cl (n * 2 ^ v.clf) v.clf = n := by
    rw [bk2cl_eq, Nat.mul_div_cancel n hpos]
  have hused : v'.bm.used n = true := by
    rw [ha.used, decide_eq_true rfl, Bool.true_or]
  rw [cl2bk_eq (by omega)]
  refine ⟨⟨?_, ?_, ?_, fun m hm => ?_⟩, ⟨?_, by omega, ?_, fun e he => ?_⟩⟩
  · rw [rem, ha.clf]
    exact Nat.mul_mod_left n _
  · rw [ha.clf]
    omega
  · rw [ha.clf, hcl]
    exact hused
  · rw [ha.clf, hcl]
    exact hother _ (h.block m hm).2.2
  · exact (Nat.mul_pos (Nat.pos_of_ne_zero hn) hpos).ne'
  · rw [hcl]
    exact hused
  · rw [hcl]
    exact (hother _ he.used).symm

/-! ## The chain -/

theorem newalc_apart (h : f.Consistent v alc) {lbn : ℕ} (hr : f.newalc v = (.ok lbn, v')) :
    Grows v v' ∧ Apart v v' alc lbn := by
  rw [newalc] at hr
  split at hr
  · cases ha : v.allsgc with
    | mk e w =>
      rw [ha] at hr
      cases e with
      | error e => cases hr
      | ok n =>
        obtain ⟨hlbn, rfl⟩ := Prod.mk.inj hr
        obtain rfl := Except.ok.inj hlbn
        rw [(allocated_allsgc ha).clf]
        exact ⟨(allocated_allsgc ha).grows, (h.allsgc (allocated_allsgc ha)).2⟩
  · next hne =>
    obtain ⟨hlbn, rfl⟩ := Prod.mk.inj hr
    obtain rfl := Except.ok.inj hlbn
    rw [not_or, not_or] at hne
    obtain ⟨-, hne, hlast⟩ := hne
    have halc : alc f.calbn := h.cached.resolve_right fun h₀ => hne h₀.1
    obtain ⟨-, hlt, hused⟩ := h.block _ halc
    have hpos : 0 < 2 ^ v.clf := Nat.two_pow_pos _
    have hmod := Nat.mod_lt f.calbn hpos
    rw [rem] at hlast
    -- there is room in the cluster, so its number is the same
    have hroom : f.calbn % 2 ^ v.clf + 1 < 2 ^ v.clf := by omega
    have hsame : bk2cl (f.calbn + 1) v.clf = bk2cl f.calbn v.clf := by
      rw [bk2cl_eq, bk2cl_eq, Nat.add_div hpos, Nat.div_eq_of_lt (by omega : 1 < 2 ^ v.clf),
        Nat.mod_eq_of_lt (by omega : 1 < 2 ^ v.clf), if_neg (by omega), Nat.add_zero]
    have hnext : f.calbn + 1 < 16777216 := by
      have hclf := h.clf
      have hdvd : 2 ^ v.clf ∣ 16777216 := Nat.pow_dvd_pow 2 (by omega : v.clf ≤ 24)
      have hend : (f.calbn + 1) % 2 ^ v.clf ≠ 0 := by
        rw [Nat.add_mod, Nat.mod_eq_of_lt (by omega : 1 < 2 ^ v.clf), Nat.mod_eq_of_lt hroom]
        omega
      rcases Nat.lt_or_ge (f.calbn + 1) 16777216 with hlt' | hge
      · exact hlt'
      · rw [show f.calbn + 1 = 16777216 by omega] at hend
        exact absurd (Nat.mod_eq_zero_of_dvd hdvd) hend
    rw [inc24, Nat.mod_eq_of_lt hnext]
    refine ⟨.refl v, Nat.succ_ne_zero _, hnext, ?_, fun e he => ?_⟩
    · rw [hsame]
      exact hused
    · rw [hsame]
      exact he.apart _ halc

/-- The fields that extending the chain leaves alone -/
structure Alike (f f' : Fcb) : Prop where
  rd : f'.rd = f.rd
  ctg : f'.ctg = f.ctg
  naloc : f'.naloc = f.naloc
  nused : f'.nused = f.nused
  lbcnt : f'.lbcnt = f.lbcnt

theorem Alike.refl (f : Fcb) : Alike f f := ⟨rfl, rfl, rfl, rfl, rfl⟩

theorem Alike.trans {f g k : Fcb} (h₁ : Alike f g) (h₂ : Alike g k) : Alike f k :=
  ⟨h₂.rd.trans h₁.rd, h₂.ctg.trans h₁.ctg, h₂.naloc.trans h₁.naloc, h₂.nused.trans h₁.nused,
    h₂.lbcnt.trans h₁.lbcnt⟩

/-- The blocks after an allocation block has been added -/
theorem disk_chain (f : Fcb) (v : Volume) (lbn m : ℕ) :
    (f.chain v lbn).2.disk m =
      if m = lbn then Block.put (fun _ => 0) 0 f.calbn
      else if m = f.calbn ∧ f.calbn ≠ 0 then (v.disk f.calbn).put 3 lbn
      else v.disk m := by
  rw [chain]
  by_cases h₀ : f.calbn = 0
  · simp [h₀, Volume.write, Function.update_apply]
  · simp [h₀, Volume.write, Function.update_apply]

theorem blkptr_pos (vcn : ℕ) : 6 ≤ blkptr vcn := by
  unfold blkptr
  omega

theorem Consistent.chain (h : f.Consistent v alc) (hg : Grows v v') {lbn : ℕ}
    (ha : Apart v v' alc lbn) :
    (f.chain v' lbn).1.Consistent (f.chain v' lbn).2 (fun m => m = lbn ∨ alc m) ∧
      Alike f (f.chain v' lbn).1 := by
  have hcalbn : f.calbn < 16777216 := by
    rcases h.cached with hc | hc
    · exact (h.block _ hc).2.1
    · omega
  have hold : alc f.calbn ∨ f.calbn = 0 := h.cached.imp_right And.left
  -- what an allocation block holds afterwards, if it is not the new one
  have hprev : ∀ m, m ≠ lbn → ((f.chain v' lbn).2.disk m).get 0 = (v.disk m).get 0 := fun m hm => by
    rw [disk_chain, if_neg hm, hg.disk]
    split
    · next hc => rw [hc.1, Block.get_put_of_ne (.inl (by decide))]
    · rfl
  have hnext : ∀ m, m ≠ lbn → ((f.chain v' lbn).2.disk m).get 3 = lbn ∨
      ((f.chain v' lbn).2.disk m).get 3 = (v.disk m).get 3 := fun m hm => by
    rw [disk_chain, if_neg hm, hg.disk]
    split
    · exact .inl (Block.get_put ha.lt)
    · exact .inr rfl
  have hentry : ∀ m vcn, m ≠ lbn →
      ((f.chain v' lbn).2.disk m).get (blkptr vcn) = (v.disk m).get (blkptr vcn) := fun m vcn hm => by
    have hpos := blkptr_pos vcn
    rw [disk_chain, if_neg hm, hg.disk]
    split
    · next hc => rw [hc.1, Block.get_put_of_ne (.inr (by omega))]
    · rfl
  have hnew : (f.chain v' lbn).2.disk lbn = Block.put (fun _ => 0) 0 f.calbn := by
    rw [disk_chain, if_pos rfl]
  have hsame : (f.chain v' lbn).2.toVcb = v'.toVcb := by
    rw [Fcb.chain]
    split <;> rfl
  have hclf : (f.chain v' lbn).2.clf = v.clf := by rw [hsame, hg.clf]
  have hdata : ∀ e, Data v alc e → Data (f.chain v' lbn).2 (fun m => m = lbn ∨ alc m) e :=
    fun e he => ⟨by rw [hclf]; exact he.start, by rw [hclf]; exact he.le,
      by rw [hsame, hg.clf]; exact hg.used _ he.used, fun m hm => by
        rw [hclf]
        rcases hm with rfl | hm
        · exact ha.data e he
        · exact he.apart m hm⟩
  refine ⟨⟨?_, ?_, ?_, ?_, ?_, ?_, ?_, .inl (.inl rfl), ?_, ?_⟩, ⟨rfl, rfl, rfl, rfl, rfl⟩⟩
  · rw [hclf]
    exact h.clf
  · rw [hsame, hg.blks]
    exact h.blks
  · rw [hsame]
    exact hg.used 0 h.boot
  · rw [hclf, hsame]
    rintro m (rfl | hm)
    · exact ⟨ha.ne, ha.lt, ha.used⟩
    · obtain ⟨h₁, h₂, h₃⟩ := h.block m hm
      exact ⟨h₁, h₂, hg.used _ h₃⟩
  · intro m hm
    rcases eq_or_ne m lbn with rfl | hne
    · rw [hnew, Block.get_put hcalbn]
      exact hold.symm.imp_right .inr
    · rw [hprev m hne]
      exact (h.prev m (hm.resolve_left hne)).imp_right .inr
  · intro m hm
    rcases eq_or_ne m lbn with rfl | hne
    · rw [hnew, Block.get_put_of_ne (.inr (by decide))]
      exact .inl rfl
    · rcases hnext m hne with heq | heq
      · rw [heq]
        exact .inr (.inl rfl)
      · rw [heq]
        exact (h.next m (hm.resolve_left hne)).imp_right .inr
  · rw [Fcb.chain]
    by_cases h₀ : f.calbn = 0
    · simp [h₀]
    · simpa [h₀] using h.first.imp_right Or.inr
  · intro i hi
    have hbmap : (f.chain v' lbn).1.bmap i = f.bmap i := by
      rw [Fcb.chain]
      by_cases h₀ : f.calbn = 0
      · simp [h₀, Function.update_of_ne (show i ≠ 5 by omega)]
      · simp [h₀]
    rw [hbmap]
    exact (h.direct i hi).imp_right (hdata _)
  · intro m hm vcn
    rcases eq_or_ne m lbn with rfl | hne
    · have hpos := blkptr_pos vcn
      rw [hnew, Block.get_put_of_ne (.inr (by omega))]
      exact .inl rfl
    · rw [hentry m vcn hne]
      exact (h.entry m (hm.resolve_left hne) vcn).imp_right (hdata _)

theorem Consistent.new1 (n : ℕ) : ∀ {v : Volume} {f : Fcb} {alc : ℕ → Prop},
    f.Consistent v alc → ∀ {f' v'}, f.new1 v n = (.ok (), f', v') →
      ∃ alc', f'.Consistent v' alc' ∧ Alike f f' ∧ v'.clf = v.clf := by
  induction n with
  | zero =>
    intro v f alc h f' v' hr
    obtain ⟨rfl, rfl⟩ := Prod.mk.inj (Prod.mk.inj hr).2
    exact ⟨alc, h, .refl f, rfl⟩
  | succ n ih =>
    intro v f alc h f' v' hr
    rw [Fcb.new1] at hr
    cases ha : f.newalc v with
    | mk e w =>
      rw [ha] at hr
      cases e with
      | error e => cases hr
      | ok lbn =>
        obtain ⟨hg, hap⟩ := newalc_apart h ha
        obtain ⟨hcons, halike⟩ := h.chain hg hap
        obtain ⟨alc', hcons', halike', hclf⟩ := ih hcons hr
        refine ⟨alc', hcons', halike.trans halike', hclf.trans ?_⟩
        rw [← hg.clf, Fcb.chain]
        split <;> rfl

theorem Consistent.extalc (h : f.Consistent v alc) {vcn : ℕ} {f' : Fcb}
    (hr : f.extalc v vcn = (.ok (), f', v')) :
    ∃ alc', f'.Consistent v' alc' ∧ Alike f f' ∧ v'.clf = v.clf := by
  obtain ⟨c, a, heq, hc, -⟩ := follows_fndalc h vcn
  have hcons := h.seek hc
  rw [Fcb.extalc] at hr
  cases hfnd : f.fndalc v.disk vcn with
  | mk e g =>
    rw [hfnd] at hr heq
    subst heq
    cases e with
    | ok u =>
      obtain ⟨rfl, rfl⟩ := Prod.mk.inj (Prod.mk.inj hr).2
      exact ⟨alc, hcons, ⟨rfl, rfl, rfl, rfl, rfl⟩, rfl⟩
    | error e =>
      dsimp only at hr
      split at hr
      · obtain ⟨alc', hcons', halike, hclf⟩ := hcons.new1 _ hr
        exact ⟨alc', hcons', .trans (g := f.seek c a) ⟨rfl, rfl, rfl, rfl, rfl⟩ halike, hclf⟩
      · cases hr

end Fcb

end RSX280.Fileio
