import RSX280.FileGrows

/-!
# What `FWRITE` writes, `FREAD` reads

A write that succeeds covers its block and is seen by a read of the same bytes just when the two
routines agree on the end of the file (`Fcb.agrees_iff`). They do not for a non-contiguous file
with blocks behind `F.NUSED`: `FWRITE` takes `F.NALOC` for the end there.
-/

namespace RSX280.Fileio

open Bitmap (bk2cl)

/-- A block of a cluster with data is not an allocation block. -/
theorem Data.ne_of_alc {v : Volume} {alc : ℕ → Prop} {e m o : ℕ} (h : Data v alc e) (hm : alc m) :
    m ≠ add24 e (rem o v.clf) := by
  have hpos : 0 < 2 ^ v.clf := Nat.two_pow_pos _
  have ho := Nat.mod_lt o hpos
  have hle := h.le
  rw [add24, rem, Nat.mod_eq_of_lt (by omega)]
  rintro rfl
  exact h.apart _ hm (bk2cl_add h.start ho)

theorem add24_ne_zero {v : Volume} {alc : ℕ → Prop} {e o : ℕ} (h : Data v alc e) (hne : e ≠ 0) : add24 e (rem o v.clf) ≠ 0 := by
  have hpos : 0 < 2 ^ v.clf := Nat.two_pow_pos _
  have ho := Nat.mod_lt o hpos
  have hle := h.le
  rw [add24, rem, Nat.mod_eq_of_lt (by omega)]
  omega

namespace Fcb

variable {v v' : Volume} {f f' : Fcb} {alc : ℕ → Prop} {vbn lbn : ℕ}

theorem v2lbn1_of_settled (hctg : f.ctg = false) (h : f.Settled (bk2cl vbn v.clf)) :
    f.v2lbn1 v vbn =
      (if f.cluster v.disk (bk2cl vbn v.clf) = 0 then .error .una
        else .ok (add24 (f.cluster v.disk (bk2cl vbn v.clf)) (rem vbn v.clf)), f) := by
  rw [v2lbn1, if_neg (by rw [hctg]; decide)]
  dsimp only
  rw [find_of_settled h]
  dsimp only
  split <;> rfl

/-- Block `vbn` is at `lbn`, and is found there again. -/
structure Located (v : Volume) (f : Fcb) (vbn lbn : ℕ) : Prop where
  settled : f.Settled (bk2cl vbn v.clf)
  ne : f.cluster v.disk (bk2cl vbn v.clf) ≠ 0
  eq : lbn = add24 (f.cluster v.disk (bk2cl vbn v.clf)) (rem vbn v.clf)
  apart : 5 ≤ bk2cl vbn v.clf → f.calbn ≠ lbn

theorem Consistent.data_cluster (h : f.Consistent v alc) {vcn : ℕ} (hc : 5 ≤ vcn → alc f.calbn)
    (hne : f.cluster v.disk vcn ≠ 0) : Data v alc (f.cluster v.disk vcn) := by
  rw [cluster] at hne ⊢
  split at hne
  · next hlt =>
    rw [if_pos hlt]
    exact (h.direct vcn hlt).resolve_left hne
  · next hge =>
    rw [if_neg hge]
    exact (h.entry _ (hc (by omega)) vcn).resolve_left hne

/-- The new cluster is where the block is found. -/
theorem Consistent.newLbn (h : f.Consistent v alc) (hctg : f.ctg = false)
    (hs : f.Settled (bk2cl vbn v.clf)) (hc : 5 ≤ bk2cl vbn v.clf → alc f.calbn) {new : Bool}
    (hr : f.newLbn v vbn = (.ok (lbn, new), f', v')) :
    Located v' f' vbn lbn ∧ Alike f f' ∧ v'.clf = v.clf := by
  rw [Fcb.newLbn] at hr
  cases ha : v.allsgc with
  | mk e w =>
    rw [ha] at hr
    cases e with
    | error e => cases hr
    | ok n =>
      have hall := allocated_allsgc ha
      obtain ⟨hdata, hapart⟩ := h.allsgc hall
      dsimp only at hr
      rw [if_neg (by rw [hctg]; decide), setLbn, hall.clf] at hr
      obtain ⟨hlbn, hset⟩ := Prod.mk.inj hr
      have hlbn : add24 (cl2bk n v.clf) (rem vbn v.clf) = lbn :=
        (Prod.mk.inj (Except.ok.inj hlbn)).1
      split at hset
      · next hlt =>
        obtain ⟨rfl, rfl⟩ := Prod.mk.inj hset
        have hcl : ({ f with bmap := Function.update f.bmap (bk2cl vbn v.clf) (cl2bk n v.clf) } :
            Fcb).cluster w.disk (bk2cl vbn v.clf) = cl2bk n v.clf := by
          rw [cluster, if_pos hlt]
          exact Function.update_self _ _ _
        refine ⟨⟨fun h₅ => ?_, ?_, ?_, fun h₅ => ?_⟩, ⟨rfl, rfl, rfl, rfl, rfl⟩, hall.clf⟩
        · rw [hall.clf] at h₅
          omega
        · rw [hall.clf, hcl]
          exact hapart.ne
        · rw [hall.clf, hcl, hlbn]
        · rw [hall.clf] at h₅
          omega
      · next hge =>
        obtain ⟨rfl, rfl⟩ := Prod.mk.inj hset
        have hclf : (w.write f.calbn ((w.disk f.calbn).put (blkptr (bk2cl vbn v.clf))
            (cl2bk n v.clf))).clf = v.clf := hall.clf
        have hcl : f.cluster (w.write f.calbn ((w.disk f.calbn).put (blkptr (bk2cl vbn v.clf))
            (cl2bk n v.clf))).disk (bk2cl vbn v.clf) = cl2bk n v.clf := by
          rw [cluster, if_neg hge, Volume.disk_write_self, Block.get_put hapart.lt]
        refine ⟨⟨?_, ?_, ?_, fun h₅ => ?_⟩, .refl f, hclf⟩
        · rw [hclf]
          exact hs
        · rw [hclf, hcl]
          exact hapart.ne
        · rw [hclf, hcl, hlbn]
        · rw [hclf] at h₅
          rw [← hlbn, ← hall.clf]
          rw [← hall.clf] at hdata
          exact hdata.ne_of_alc (hc h₅)

theorem Consistent.locate (h : f.Consistent v alc) (hctg : f.ctg = false) {new : Bool}
    (hr : f.locate v vbn = (.ok (lbn, new), f', v')) :
    Located v' f' vbn lbn ∧ Alike f f' ∧ v'.clf = v.clf := by
  obtain ⟨c, a, heq, hcons, hok⟩ := h.find (bk2cl vbn v.clf)
  have herr : ∀ e, (f.find v.disk (bk2cl vbn v.clf)).1 = .error e → e.err ≠ .una :=
    fun _ => err_find f v.disk _
  have hgctg : (f.seek c a).ctg = false := hctg
  have halike : Alike f (f.seek c a) := ⟨rfl, rfl, rfl, rfl, rfl⟩
  rw [Fcb.locate, v2lbn1, if_neg (by rw [hctg]; decide)] at hr
  dsimp only at hr
  cases hfind : f.find v.disk (bk2cl vbn v.clf) with
  | mk e g =>
    rw [hfind] at hr heq hok herr
    subst heq
    cases e with
    | error e =>
      dsimp only at hr
      rw [if_neg fun h => herr e rfl h.1] at hr
      cases hr
    | ok u =>
      obtain ⟨hs, hc⟩ := hok rfl
      dsimp only at hr
      by_cases hne : (f.seek c a).cluster v.disk (bk2cl vbn v.clf) = 0
      · rw [if_pos hne] at hr
        dsimp only at hr
        rw [if_pos ⟨rfl, by rw [hgctg]; decide⟩] at hr
        obtain ⟨hloc, halike', hclf⟩ := hcons.newLbn hgctg hs hc hr
        exact ⟨hloc, halike.trans halike', hclf⟩
      · have hdata := hcons.data_cluster hc hne
        rw [if_neg hne] at hr
        dsimp only at hr
        rw [if_neg (add24_ne_zero hdata hne)] at hr
        obtain ⟨hlbn, hrest⟩ := Prod.mk.inj hr
        obtain ⟨rfl, rfl⟩ := Prod.mk.inj hrest
        have hlbn := (Prod.mk.inj (Except.ok.inj hlbn)).1
        refine ⟨⟨hs, hne, hlbn.symm, fun h₅ => ?_⟩, halike, rfl⟩
        rw [← hlbn]
        exact hdata.ne_of_alc (hc h₅)

/-! ## The end of the file -/

/-- A file that is open, on a volume where nothing is used twice -/
structure Sound (v : Volume) (f : Fcb) : Prop where
  nused : f.nused < 16777216
  /-- a contiguous file is behind block 0 and within the reach of an LBN -/
  ctg : f.ctg = true → 0 < f.bmap 0 ∧ f.bmap 0 + f.naloc ≤ 16777216
  map : f.ctg = false → ∃ alc, f.Consistent v alc

/-- Is block `vbn` behind what `FWRITE` takes for the end of the file? -/
def Fresh (f : Fcb) (vbn : ℕ) : Prop := if f.ctg then f.nused < vbn + 1 else f.naloc < vbn + 1

/-- Is it the last one to `FWRITE`? -/
def AtEnd (f : Fcb) (vbn : ℕ) : Prop := if f.ctg then vbn + 1 = f.nused else vbn + 1 = f.naloc

instance (f : Fcb) (vbn : ℕ) : Decidable (f.Fresh vbn) :=
  inferInstanceAs (Decidable (if f.ctg then f.nused < vbn + 1 else f.naloc < vbn + 1))

instance (f : Fcb) (vbn : ℕ) : Decidable (f.AtEnd vbn) :=
  inferInstanceAs (Decidable (if f.ctg then vbn + 1 = f.nused else vbn + 1 = f.naloc))

/-- What the first half of `FWRITE` leaves -/
structure Admitted (v v' : Volume) (f f' : Fcb) (vbn : ℕ) (last : Bool) : Prop where
  rd : f'.rd = f.rd
  ctg : f'.ctg = f.ctg
  bmap : f.ctg = true → f'.bmap = f.bmap ∧ vbn < f.naloc
  map : f.ctg = false → ∃ alc, f'.Consistent v' alc
  fresh : f.Fresh vbn → last = true ∧ f'.nused = vbn + 1 ∧ f'.lbcnt = 0
  old : ¬f.Fresh vbn → last = decide (f.AtEnd vbn) ∧ f'.nused = f.nused ∧ f'.lbcnt = f.lbcnt

theorem admitted_ctg (hctg : f.ctg = true) (hvbn : vbn < 16777215) {last : Bool}
    (hr : f.permit v vbn = (.ok last, f', v')) : Admitted v v' f f' vbn last := by
  have hfresh : f.Fresh vbn ↔ f.nused < vbn + 1 := by rw [Fresh, if_pos hctg]
  have hend : f.AtEnd vbn ↔ vbn + 1 = f.nused := by rw [AtEnd, if_pos hctg]
  have hmap : f.ctg = false → ∃ alc, f'.Consistent v' alc := fun h => by
    rw [hctg] at h
    cases h
  rw [permit, if_pos hctg, inc24, Nat.mod_eq_of_lt (by omega)] at hr
  split at hr
  · cases hr
  next hle =>
  split at hr
  · next hold =>
    obtain ⟨hlast, hrest⟩ := Prod.mk.inj hr
    obtain ⟨rfl, rfl⟩ := Prod.mk.inj hrest
    refine ⟨rfl, rfl, fun _ => ⟨rfl, by omega⟩, hmap, fun h => ?_, fun _ => ⟨?_, rfl, rfl⟩⟩
    · rw [hfresh] at h
      omega
    · rw [← Except.ok.inj hlast]
      exact decide_eq_decide.mpr hend.symm
  · next hnew =>
    obtain ⟨hlast, hrest⟩ := Prod.mk.inj hr
    obtain ⟨rfl, rfl⟩ := Prod.mk.inj hrest
    refine ⟨rfl, rfl, fun _ => ⟨rfl, by omega⟩, hmap, fun _ => ⟨?_, rfl, rfl⟩, fun h => ?_⟩
    · exact (Except.ok.inj hlast).symm
    · rw [hfresh] at h
      omega

theorem admitted_map (h : f.Consistent v alc) (hctg : f.ctg = false) (hvbn : vbn < 16777215)
    {last : Bool} (hr : f.permit v vbn = (.ok last, f', v')) : Admitted v v' f f' vbn last := by
  have hne : ¬f.ctg = true := by rw [hctg]; decide
  have hfresh : f.Fresh vbn ↔ f.naloc < vbn + 1 := by rw [Fresh, if_neg hne]
  have hend : f.AtEnd vbn ↔ vbn + 1 = f.naloc := by rw [AtEnd, if_neg hne]
  rw [permit, if_neg hne, inc24, Nat.mod_eq_of_lt (by omega)] at hr
  dsimp only at hr
  split at hr
  · next hold =>
    obtain ⟨hlast, hrest⟩ := Prod.mk.inj hr
    obtain ⟨rfl, rfl⟩ := Prod.mk.inj hrest
    refine ⟨rfl, rfl, fun h => absurd h hne, fun _ => ⟨alc, h⟩, fun h => ?_, fun _ => ⟨?_, rfl, rfl⟩⟩
    · rw [hfresh] at h
      omega
    · rw [← Except.ok.inj hlast]
      exact decide_eq_decide.mpr hend.symm
  · next hnew =>
    -- the state after the chain has been extended, if need be
    have hext : ∀ {e : Except Err Unit} {g : Fcb} {w : Volume},
        (if bk2cl (vbn + 1) v.clf < 5 then (.ok (), f, v) else f.extalc v (bk2cl (vbn + 1) v.clf)) =
          (e, g, w) → e = .ok () → ∃ alc', g.Consistent w alc' ∧ Alike f g := by
      rintro e g w heq rfl
      split at heq
      · obtain ⟨rfl, rfl⟩ := Prod.mk.inj (Prod.mk.inj heq).2
        exact ⟨alc, h, .refl f⟩
      · obtain ⟨alc', hcons, halike, -⟩ := h.extalc heq
        exact ⟨alc', hcons, halike⟩
    cases hres : (if bk2cl (vbn + 1) v.clf < 5 then (.ok (), f, v)
        else f.extalc v (bk2cl (vbn + 1) v.clf) : Except Err Unit × Fcb × Volume) with
    | mk e p =>
      obtain ⟨g, w⟩ := p
      rw [hres] at hr
      cases e with
      | error e => cases hr
      | ok u =>
        obtain ⟨alc', hcons, halike⟩ := hext hres rfl
        obtain ⟨hlast, hrest⟩ := Prod.mk.inj hr
        obtain ⟨rfl, rfl⟩ := Prod.mk.inj hrest
        refine ⟨halike.rd, halike.ctg, fun h => absurd h hne, fun _ => ⟨alc', { hcons with }⟩,
          fun _ => ⟨(Except.ok.inj hlast).symm, rfl, rfl⟩, fun h => ?_⟩
        rw [hfresh] at h
        omega

/-! ## Reading back -/

theorem trim_eq_length {offset len size : ℕ} (h : len ≠ 0) :
    trim offset len size = len ↔ (offset + len) % 65536 ≤ size := by
  have hle := Nat.mod_le (offset + len) 65536
  unfold trim
  split <;> omega

theorem trim_le (offset len size : ℕ) : trim offset len size ≤ len := by
  have hle := Nat.mod_le (offset + len) 65536
  unfold trim
  split <;> omega

theorem Located.congr {f₁ f₂ : Fcb} {v₁ v₂ : Volume} (h : Located v₁ f₁ vbn lbn)
    (hf : f₂.bmap = f₁.bmap ∧ f₂.calbn = f₁.calbn ∧ f₂.cavbn = f₁.cavbn) (hclf : v₂.clf = v₁.clf)
    (hdisk : 5 ≤ bk2cl vbn v₁.clf → v₂.disk f₁.calbn = v₁.disk f₁.calbn) :
    Located v₂ f₂ vbn lbn := by
  obtain ⟨h₁, h₂, h₃⟩ := hf
  have hcl : f₂.cluster v₂.disk (bk2cl vbn v₁.clf) = f₁.cluster v₁.disk (bk2cl vbn v₁.clf) := by
    rw [cluster, cluster]
    split
    · rw [h₁]
    · rw [h₂, hdisk (by omega)]
  refine ⟨?_, ?_, ?_, ?_⟩
  · rw [hclf, Settled, h₁, h₂, h₃]
    exact h.settled
  · rw [hclf, hcl]
    exact h.ne
  · rw [hclf, hcl]
    exact h.eq
  · rw [hclf, h₂]
    exact h.apart

/-- Block `vbn` is at `lbn` for either kind of file. -/
def At (v : Volume) (f : Fcb) (vbn lbn : ℕ) : Prop :=
  if f.ctg then lbn = add24 (f.bmap 0) vbn else Located v f vbn lbn

/-- `FREAD` of the bytes that have been put in a block -/
theorem fread_put (h : At v f vbn lbn) (hrd : f.rd = true) (offset : ℕ) {l : List UInt8}
    (hl : l ≠ []) (new last : Bool) :
    ((f.put v lbn offset l new last).1.fread (f.put v lbn offset l new last).2 vbn offset
        l.length).1 = .ok l ↔
      inc24 vbn ≤ f.nused ∧
        let size := if inc24 vbn = f.nused then (f.put v lbn offset l new last).1.lbcnt else 512
        offset < size ∧ (offset + l.length) % 65536 ≤ size := by
  have hne : l.length ≠ 0 := fun h₀ => hl (List.length_eq_zero_iff.mp h₀)
  obtain ⟨b, hb⟩ : ∃ b, ((f.put v lbn offset l new last).2).disk =
      (v.write lbn (Block.copy b offset l)).disk := ⟨_, rfl⟩
  have hclf : ((f.put v lbn offset l new last).2).clf = v.clf := rfl
  generalize hw : (f.put v lbn offset l new last).2 = w at hb hclf ⊢
  have hg : ∃ m c, (f.put v lbn offset l new last).1 = { f with modf := m, lbcnt := c } := by
    rw [put]
    cases last
    · exact ⟨true, f.lbcnt, rfl⟩
    · exact ⟨true, _, rfl⟩
  obtain ⟨m, c, hg⟩ := hg
  rw [hg]
  -- the block is found where it was put
  have hfound : (({ f with modf := m, lbcnt := c } : Fcb).v2lbn1 w vbn).1 = .ok lbn := by
    rw [At] at h
    split at h
    · next hctg =>
      rw [v2lbn1, if_pos hctg, h]
    · next hctg =>
      have hctg' : ({ f with modf := m, lbcnt := c } : Fcb).ctg = false := by simpa using hctg
      have hloc : Located w { f with modf := m, lbcnt := c } vbn lbn :=
        h.congr ⟨rfl, rfl, rfl⟩ hclf
          fun h₅ => by rw [hb, Volume.disk_write_of_ne _ (h.apart h₅)]
      rw [v2lbn1_of_settled hctg' hloc.settled, if_neg hloc.ne, ← hloc.eq]
  rw [fread, if_neg hne, if_neg (by rw [hrd]; decide)]
  dsimp only
  generalize hsize : (if inc24 vbn = f.nused then c else 512) = size
  by_cases heof : f.nused < inc24 vbn
  · rw [if_pos heof]
    exact iff_of_false (fun h => nomatch h) fun h => absurd h.1 (by omega)
  rw [if_neg heof]
  by_cases hoff : size ≤ offset
  · rw [if_pos hoff]
    refine iff_of_false (fun h => ?_) fun h => absurd h.2.1 (by omega)
    split at h
    · cases h
    · exact hl (Except.ok.inj h).symm
  rw [if_neg hoff]
  cases hv : ({ f with modf := m, lbcnt := c } : Fcb).v2lbn1 w vbn with
  | mk e g =>
    rw [hv] at hfound
    obtain rfl : e = .ok lbn := hfound
    dsimp only
    rw [hb, Volume.disk_write_self]
    refine ⟨fun h => ⟨by omega, by omega, ?_⟩, fun h => ?_⟩
    · have hlen := congrArg List.length (Except.ok.inj h)
      unfold Block.fetch at hlen
      rw [List.length_map, List.length_range] at hlen
      exact (trim_eq_length hne).mp hlen
    · rw [(trim_eq_length hne).mpr h.2.2, Block.fetch_copy]

/-! ## The end of a write -/

/-- Where the bytes of a request end, in 16 bits -/
def fin (offset : ℕ) (l : List UInt8) : ℕ := (offset + trim offset l.length 512) % 65536

/-- `FREAD` takes the block and the bytes for part of the file, once they have been written. -/
def Agrees (f : Fcb) (vbn offset : ℕ) (l : List UInt8) : Prop :=
  if l = [] then vbn < f.nused
  else vbn ≠ 16777215 ∧
    if f.Fresh vbn then offset < fin offset l
    else if f.AtEnd vbn then
      vbn + 1 < f.nused ∨ vbn + 1 = f.nused ∧ offset < max f.lbcnt (fin offset l)
    else vbn + 1 < f.nused ∨ vbn + 1 = f.nused ∧ offset < f.lbcnt ∧ fin offset l ≤ f.lbcnt

/-- The block is covered, and its bytes are read. -/
def Visible (v : Volume) (f : Fcb) (vbn offset : ℕ) (l : List UInt8) : Prop :=
  vbn < f.nused ∧ (f.fread v vbn offset l.length).1 = .ok l

theorem At.of_locate {last new : Bool} (hs : f.Sound v) {f₁ : Fcb} {v₁ : Volume}
    (ha : Admitted v v₁ f f₁ vbn last) (hr : f₁.locate v₁ vbn = (.ok (lbn, new), f', v')) :
    At v' f' vbn lbn ∧ Alike f₁ f' := by
  cases hctg : f.ctg with
  | true =>
    obtain ⟨hbmap, hlt⟩ := ha.bmap hctg
    obtain ⟨hpos, hle⟩ := hs.ctg hctg
    have hctg₁ : f₁.ctg = true := ha.ctg.trans hctg
    have hlbn : add24 (f₁.bmap 0) vbn = f.bmap 0 + vbn := by
      rw [hbmap, add24, Nat.mod_eq_of_lt (by omega)]
    rw [locate, v2lbn1, if_pos hctg₁] at hr
    dsimp only at hr
    rw [if_neg (by omega)] at hr
    obtain ⟨hl, hrest⟩ := Prod.mk.inj hr
    obtain ⟨rfl, rfl⟩ := Prod.mk.inj hrest
    rw [At, if_pos hctg₁]
    exact ⟨(Prod.mk.inj (Except.ok.inj hl)).1.symm, .refl _⟩
  | false =>
    obtain ⟨alc, hcons⟩ := ha.map hctg
    have hctg₁ : f₁.ctg = false := ha.ctg.trans hctg
    obtain ⟨hloc, halike, -⟩ := hcons.locate hctg₁ hr
    have hctg' : ¬f'.ctg = true := by rw [halike.ctg, hctg₁]; decide
    rw [At, if_neg hctg']
    exact ⟨hloc, halike⟩

theorem nused_locate (hs : f.Sound v) {new : Bool}
    (hr : f.locate v vbn = (.ok (lbn, new), f', v')) : f'.nused = f.nused := by
  cases hctg : f.ctg with
  | true =>
    have hnew : ∀ {r : Except Fail (ℕ × Bool)}, f.newLbn v vbn = (r, f', v') → f'.nused = f.nused := by
      intro r hr
      rw [newLbn] at hr
      cases ha : v.allsgc with
      | mk e w =>
        rw [ha] at hr
        cases e with
        | error e => rw [← (Prod.mk.inj (Prod.mk.inj hr).2).1]
        | ok n =>
          dsimp only at hr
          rw [if_pos hctg] at hr
          rw [← (Prod.mk.inj (Prod.mk.inj hr).2).1]
    rw [locate, v2lbn1, if_pos hctg] at hr
    dsimp only at hr
    split at hr
    · exact hnew hr
    · rw [← (Prod.mk.inj (Prod.mk.inj hr).2).1]
  | false =>
    obtain ⟨alc, hcons⟩ := hs.map hctg
    exact (hcons.locate hctg hr).2.1.nused

/-- The last block number is taken for the one before the first. -/
theorem permit_max {last : Bool} (hr : f.permit v 16777215 = (.ok last, f', v')) :
    f' = f ∧ v' = v := by
  have hzero : inc24 16777215 = 0 := rfl
  rw [permit, hzero] at hr
  dsimp only at hr
  rw [if_neg (Nat.not_lt_zero _), if_pos (Nat.zero_le _), if_pos (Nat.zero_le _)] at hr
  split at hr
  · obtain ⟨rfl, rfl⟩ := Prod.mk.inj (Prod.mk.inj hr).2
    exact ⟨rfl, rfl⟩
  · obtain ⟨rfl, rfl⟩ := Prod.mk.inj (Prod.mk.inj hr).2
    exact ⟨rfl, rfl⟩

theorem admitted (hs : f.Sound v) (hvbn : vbn < 16777215) {last : Bool}
    (hr : f.permit v vbn = (.ok last, f', v')) : Admitted v v' f f' vbn last := by
  cases hctg : f.ctg with
  | true => exact admitted_ctg hctg hvbn hr
  | false =>
    obtain ⟨alc, hcons⟩ := hs.map hctg
    exact admitted_map hcons hctg hvbn hr

/-- What a write leaves is visible just when the two ends of the file agree on it. -/
theorem visible_put (hvbn : vbn < 16777215) {offset : ℕ} (hoff : offset < 512) {l : List UInt8}
    (hl : l ≠ []) {last new : Bool} {f₁ f₂ : Fcb} {v₁ v₂ : Volume} (ha : Admitted v v₁ f f₁ vbn last)
    (hloc : At v₂ f₂ vbn lbn) (halike : Alike f₁ f₂) (hrd : f.rd = true) :
    let l' := l.take (trim offset l.length 512)
    let r := f₂.put v₂ lbn offset l' new last
    Visible r.2 r.1 vbn offset l' ↔ f.Agrees vbn offset l := by
  have hne : l.length ≠ 0 := fun h₀ => hl (List.length_eq_zero_iff.mp h₀)
  have hle := trim_le offset l.length 512
  have hlen : (l.take (trim offset l.length 512)).length = trim offset l.length 512 := by
    rw [List.length_take, Nat.min_eq_left hle]
  have hpos : 0 < trim offset l.length 512 := by
    unfold trim
    split <;> omega
  have hl' : l.take (trim offset l.length 512) ≠ [] := fun h => by
    rw [h] at hlen
    exact absurd hlen (by rw [List.length_nil]; omega)
  have hfin : fin offset l ≤ 512 := by
    have hmod := Nat.mod_le (offset + l.length) 65536
    unfold fin trim
    split <;> omega
  have hinc : inc24 vbn = vbn + 1 := Nat.mod_eq_of_lt (by omega)
  have hread := fread_put hloc (halike.rd.trans (ha.rd.trans hrd)) offset hl' new last
  have hnused : (f₂.put v₂ lbn offset (l.take (trim offset l.length 512)) new last).1.nused =
      f₁.nused := by
    rw [put]
    cases last <;> exact halike.nused
  have hlbcnt : (f₂.put v₂ lbn offset (l.take (trim offset l.length 512)) new last).1.lbcnt =
      if last then max f₁.lbcnt (fin offset l) else f₁.lbcnt := by
    rw [put, hlen, ← halike.lbcnt, fin]
    cases last <;> rfl
  dsimp only
  rw [Visible, hread, hnused, hlbcnt, hinc, halike.nused, hlen, ← fin, Agrees, if_neg hl,
    and_iff_right (show vbn ≠ 16777215 by omega)]
  dsimp only
  by_cases hfresh : f.Fresh vbn
  · obtain ⟨rfl, h₁, h₂⟩ := ha.fresh hfresh
    rw [if_pos hfresh, h₁, h₂, if_pos rfl, if_pos rfl]
    omega
  · obtain ⟨rfl, h₁, h₂⟩ := ha.old hfresh
    rw [if_neg hfresh, h₁, h₂]
    by_cases hend : f.AtEnd vbn
    · rw [if_pos hend, if_pos (decide_eq_true hend)]
      split <;> omega
    · rw [if_neg hend, decide_eq_false hend, if_neg Bool.false_ne_true]
      split <;> omega

/-- A successful `FWRITE` is visible to `FREAD` just when the two agree on the end. -/
theorem visible_iff_agrees (hs : f.Sound v) (hrd : f.rd = true) (hvbn : vbn < 16777216)
    {offset : ℕ} {l : List UInt8} {n : ℕ} (hr : f.fwrite v vbn offset l = (.ok n, f', v')) :
    Visible v' f' vbn offset (l.take n) ↔ f.Agrees vbn offset l := by
  rw [fwrite] at hr
  by_cases hl : l = []
  · rw [if_pos hl] at hr
    obtain ⟨hn, hrest⟩ := Prod.mk.inj hr
    obtain ⟨rfl, rfl⟩ := Prod.mk.inj hrest
    rw [Visible, Agrees, if_pos hl, hl, List.take_nil, fread, if_pos List.length_nil]
    exact and_iff_left rfl
  rw [if_neg hl] at hr
  split at hr
  · cases hr
  cases hadm : f.permit v vbn with
  | mk e p =>
    obtain ⟨f₁, v₁⟩ := p
    rw [hadm] at hr
    cases e with
    | error e => cases hr
    | ok last =>
      dsimp only at hr
      split at hr
      · cases hr
      next hoff =>
      cases hloc : f₁.locate v₁ vbn with
      | mk e p =>
        obtain ⟨f₂, v₂⟩ := p
        rw [hloc] at hr
        cases e with
        | error e => cases hr
        | ok r =>
          obtain ⟨lbn, new⟩ := r
          obtain ⟨hn, hrest⟩ := Prod.mk.inj hr
          have hn := Except.ok.inj hn
          obtain rfl : (f₂.put v₂ lbn offset (l.take (trim offset l.length 512)) new last).1 = f' :=
            congrArg Prod.fst hrest
          obtain rfl : (f₂.put v₂ lbn offset (l.take (trim offset l.length 512)) new last).2 = v' :=
            congrArg Prod.snd hrest
          rcases Nat.lt_or_ge vbn 16777215 with hlt | hge
          · have ha := admitted hs hlt hadm
            obtain ⟨hat, halike⟩ := At.of_locate hs ha hloc
            have htake : l.take n = l.take (trim offset l.length 512) := by
              rw [← hn, List.length_take, Nat.min_eq_left (trim_le _ _ _)]
            rw [htake]
            exact visible_put hlt (by omega) hl ha hat halike hrd
          · obtain rfl : vbn = 16777215 := by omega
            obtain ⟨rfl, rfl⟩ := permit_max hadm
            have hnused := nused_locate hs hloc
            have hput : (f₂.put v₂ lbn offset (l.take (trim offset l.length 512)) new last).1.nused =
                f₂.nused := by
              rw [put]
              cases last <;> rfl
            have hlt := hs.nused
            refine iff_of_false (fun h => ?_) fun h => ?_
            · have h₁ := h.1
              rw [hput, hnused] at h₁
              omega
            · rw [Agrees, if_neg hl] at h
              exact h.1 rfl

end Fcb

/-! ## A file of `vol180` -/

/-- A volume with clusters of two blocks -/
def vol180 : Volume where
  blks := 16
  clf := 1
  free := 4
  bm := fun _ hl => if hl = Bitmap.bmhsz then 0xF0 else 0
  disk := fun _ _ => 0
  inodes := fun _ => ⟨1, false, 0, 0, 0, 2, 1, 100, fun i => if i = 0 then 6 else 0⟩

/-- A file of 100 bytes: one of its two blocks is used. -/
def text : Fcb where
  rd := true
  wr := true
  ctg := false
  modf := false
  user := 0
  group := 0
  prot := 0
  inode := 1
  naloc := 2
  nused := 1
  lbcnt := 100
  bmap := fun i => if i = 0 then 6 else 0
  calbn := 0
  cavbn := 0

/-- The second block is written, and not seen. -/
theorem not_visible_text : (text.fwrite vol180 1 0 [7]).1 = .ok 1 ∧
    ¬Fcb.Visible (text.fwrite vol180 1 0 [7]).2.2 (text.fwrite vol180 1 0 [7]).2.1 1 0 [7] :=
  ⟨rfl, fun h => absurd h.1 (by decide)⟩

theorem sound_text : text.Sound vol180 where
  nused := by decide
  ctg h := nomatch h
  map _ := by
    refine ⟨fun _ => False, by decide, by decide, by decide, fun _ h => h.elim, fun _ h => h.elim,
      fun _ h => h.elim, .inl rfl, .inr ⟨rfl, rfl⟩, fun i hi => ?_, fun _ h => h.elim⟩
    by_cases h₀ : i = 0
    · rw [h₀]
      exact .inr ⟨by decide, by decide, by decide, fun _ h => h.elim⟩
    · exact .inl (if_neg h₀)

/-- A third block is added, and seen. -/
theorem visible_text :
    Fcb.Visible (text.fwrite vol180 2 0 [7]).2.2 (text.fwrite vol180 2 0 [7]).2.1 2 0 [7] :=
  (Fcb.visible_iff_agrees sound_text rfl (by decide)
    (show text.fwrite vol180 2 0 [7] = (.ok 1, _) from rfl)).mpr (by unfold Fcb.Agrees; decide)

end RSX280.Fileio
