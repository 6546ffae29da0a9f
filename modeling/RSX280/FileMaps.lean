import RSX280.Clusters
import RSX280.FileRw

/-!
# Consistent files

The allocation blocks of a file are in clusters of their own, and its data is in others
(`Fcb.Consistent`). That remains so when the chain is followed, when it is extended and when a
cluster is allocated. Once a block has been found, it is found again without the chain being
followed (`Fcb.find_of_settled`).
-/

namespace RSX280.Fileio

open Bitmap (bk2cl)

/-! ## Bytes -/

namespace Block

variable {b : Block} {o n : ℕ}

theorem get_put (h : n < 16777216) : (b.put o n).get o = n := by
  have h₀ : (b.put o n) o = UInt8.ofNat n := if_pos rfl
  have h₁ : (b.put o n) (o + 1) = UInt8.ofNat (n / 256) := by
    rw [put, if_neg (by omega), if_pos rfl]
  have h₂ : (b.put o n) (o + 2) = UInt8.ofNat (n / 65536) := by
    rw [put, if_neg (by omega), if_neg (by omega), if_pos rfl]
  rw [get, h₀, h₁, h₂, UInt8.toNat_ofNat', UInt8.toNat_ofNat', UInt8.toNat_ofNat']
  omega

theorem get_put_of_ne {o' : ℕ} (h : o' + 2 < o ∨ o + 2 < o') : (b.put o n).get o' = b.get o' := by
  have hbyte : ∀ i, i < 3 → (b.put o n) (o' + i) = b (o' + i) := fun i hi => by
    rw [put, if_neg (by omega), if_neg (by omega), if_neg (by omega)]
  have h₀ : (b.put o n) o' = b o' := hbyte 0 (by omega)
  rw [get, get, h₀, hbyte 1 (by omega), hbyte 2 (by omega)]

/-- What was written is read. -/
theorem fetch_copy (b : Block) (offset : ℕ) (l : List UInt8) :
    (b.copy offset l).fetch offset l.length = l := by
  have hbyte : ∀ i, (hi : i < l.length) → b.copy offset l (offset + i) = l[i] := fun i hi => by
    rw [copy, if_pos (by omega), Nat.add_sub_cancel_left, List.getElem?_eq_getElem hi,
      Option.getD_some]
  unfold fetch
  refine List.ext_getElem (by rw [List.length_map, List.length_range]) fun i h₁ h₂ => ?_
  rw [List.getElem_map, List.getElem_range]
  exact hbyte i h₂

end Block

theorem bk2cl_eq (blocks clf : ℕ) : bk2cl blocks clf = blocks / 2 ^ clf :=
  Nat.shiftRight_eq_div_pow blocks clf

/-! ## Consistency -/

/-- A cluster of data starts at `e`. -/
structure Data (v : Volume) (alc : ℕ → Prop) (e : ℕ) : Prop where
  start : rem e v.clf = 0
  le : e + 2 ^ v.clf ≤ 16777216
  used : v.bm.used (bk2cl e v.clf) = true
  apart : ∀ m, alc m → bk2cl m v.clf ≠ bk2cl e v.clf

namespace Fcb

/-- A file whose allocation blocks are those with `alc` -/
structure Consistent (v : Volume) (f : Fcb) (alc : ℕ → Prop) : Prop where
  clf : v.clf < 8
  blks : v.blks < 16777216
  /-- cluster 0 has the boot block -/
  boot : v.bm.used 0 = true
  block : ∀ m, alc m → m ≠ 0 ∧ m < 16777216 ∧ v.bm.used (bk2cl m v.clf) = true
  prev : ∀ m, alc m → (v.disk m).get 0 = 0 ∨ alc ((v.disk m).get 0)
  next : ∀ m, alc m → (v.disk m).get 3 = 0 ∨ alc ((v.disk m).get 3)
  first : f.bmap 5 = 0 ∨ alc (f.bmap 5)
  cached : alc f.calbn ∨ f.calbn = 0 ∧ f.cavbn = 0
  direct : ∀ i, i < 5 → f.bmap i = 0 ∨ Data v alc (f.bmap i)
  entry : ∀ m, alc m → ∀ vcn,
    (v.disk m).get (blkptr vcn) = 0 ∨ Data v alc ((v.disk m).get (blkptr vcn))

/-! ## The chain -/

/-- The FCB with another allocation block remembered -/
def seek (f : Fcb) (calbn cavbn : ℕ) : Fcb := { f with calbn, cavbn }

/-- Where a cluster is looked up is known without following the chain. -/
def Settled (f : Fcb) (vcn : ℕ) : Prop :=
  5 ≤ vcn → avbn vcn < 65536 ∧ f.calbn ≠ 0 ∧ f.cavbn = avbn vcn ∧
    (avbn vcn = 0 → f.calbn = f.bmap 5)

theorem find_of_settled {f : Fcb} {vcn : ℕ} (h : f.Settled vcn) (disk : ℕ → Block) :
    f.find disk vcn = (.ok (), f) := by
  rw [find]
  split
  · rfl
  · next hvcn =>
    obtain ⟨hlt, hne, hcav, hfirst⟩ := h (by omega)
    rw [fndalc]
    rw [if_neg (by omega)]
    split
    · next h₀ =>
      have hself : { f with cavbn := 0, calbn := f.bmap 5 } = f := by
        rw [← hfirst (by omega), ← h₀]
      rw [start, hself, if_neg hne, show avbn vcn = 0 by omega, nxt1]
    · rw [if_pos hcav.symm]

section Follow

variable {v : Volume} {alc : ℕ → Prop}

theorem nxt1_spec (hnext : ∀ m, alc m → (v.disk m).get 3 = 0 ∨ alc ((v.disk m).get 3)) (de : ℕ) :
    ∀ f : Fcb, alc f.calbn → ∃ c a, (f.nxt1 v.disk de).2 = f.seek c a ∧ alc c ∧
      ((f.nxt1 v.disk de).1 = .ok () → a = f.cavbn + de) := by
  induction de with
  | zero => exact fun f hf => ⟨f.calbn, f.cavbn, rfl, hf, fun _ => rfl⟩
  | succ de ih =>
    intro f hf
    rw [nxt1]
    split
    · exact ⟨f.calbn, f.cavbn, rfl, hf, fun h => nomatch h⟩
    · next hne =>
      obtain ⟨c, a, heq, hc, ha⟩ := ih (f.seek _ (f.cavbn + 1)) ((hnext _ hf).resolve_left hne)
      exact ⟨c, a, heq, hc, fun h => (ha h).trans (Nat.add_right_comm f.cavbn 1 de)⟩

theorem prev_spec (hprev : ∀ m, alc m → (v.disk m).get 0 = 0 ∨ alc ((v.disk m).get 0)) (de : ℕ) :
    ∀ f : Fcb, alc f.calbn → ∃ c a, (f.prev v.disk de).2 = f.seek c a ∧ alc c ∧
      ((f.prev v.disk de).1 = .ok () → a = f.cavbn - de) := by
  induction de with
  | zero => exact fun f hf => ⟨f.calbn, f.cavbn, rfl, hf, fun _ => rfl⟩
  | succ de ih =>
    intro f hf
    rw [Fcb.prev]
    split
    · exact ⟨f.calbn, f.cavbn, rfl, hf, fun h => nomatch h⟩
    · next hne =>
      obtain ⟨c, a, heq, hc, ha⟩ := ih (f.seek _ (f.cavbn - 1)) ((hprev _ hf).resolve_left hne)
      refine ⟨c, a, heq, hc, fun h => (ha h).trans ?_⟩
      show f.cavbn - 1 - de = f.cavbn - (de + 1)
      omega

/-- What following the chain from anywhere leads to -/
def Follows (f : Fcb) (alc : ℕ → Prop) (n : ℕ) (r : Except Miss Unit × Fcb) : Prop :=
  ∃ c a, r.2 = f.seek c a ∧ (alc c ∨ c = 0 ∧ a = 0) ∧
    (r.1 = .ok () → alc c ∧ a = n ∧ (n = 0 → c = f.bmap 5))

theorem follows_start {f : Fcb} (h : f.Consistent v alc) (n : ℕ) :
    f.Follows alc n (f.start v.disk n) := by
  rw [start]
  split
  · next h₀ =>
    have hzero : f.bmap 5 = 0 := h₀
    exact ⟨f.bmap 5, 0, rfl, .inr ⟨hzero, rfl⟩, fun h => nomatch h⟩
  · next hne =>
    have hfirst : alc (f.seek (f.bmap 5) 0).calbn := h.first.resolve_left hne
    obtain ⟨c, a, heq, hc, ha⟩ := nxt1_spec h.next n _ hfirst
    refine ⟨c, a, heq, .inl hc, fun hok => ⟨hc, by rw [ha hok, seek, Nat.zero_add], ?_⟩⟩
    rintro rfl
    exact (congrArg calbn heq).symm

theorem follows_fndalc {f : Fcb} (h : f.Consistent v alc) (vcn : ℕ) :
    f.Follows alc (avbn vcn) (f.fndalc v.disk vcn) := by
  have hcached : f.cavbn ≠ 0 → alc f.calbn := fun hne => h.cached.resolve_right fun h₀ => hne h₀.2
  rw [fndalc]
  split
  · exact ⟨f.calbn, f.cavbn, rfl, h.cached, fun h => nomatch h⟩
  split
  · exact follows_start h _
  split
  · next hne heq =>
    exact ⟨f.calbn, f.cavbn, rfl, h.cached, fun _ => ⟨hcached hne, heq.symm, fun h₀ => by omega⟩⟩
  split
  · next hne _ hlt =>
    obtain ⟨c, a, heq, hc, ha⟩ := nxt1_spec h.next (avbn vcn - f.cavbn) f (hcached hne)
    exact ⟨c, a, heq, .inl hc, fun hok => ⟨hc, by rw [ha hok]; omega, fun h₀ => by omega⟩⟩
  split
  · exact follows_start h _
  · next hne _ _ _ =>
    obtain ⟨c, a, heq, hc, ha⟩ := prev_spec h.prev (f.cavbn - avbn vcn) f (hcached hne)
    exact ⟨c, a, heq, .inl hc, fun hok => ⟨hc, by rw [ha hok]; omega, fun h₀ => by omega⟩⟩

theorem Consistent.seek {f : Fcb} (h : f.Consistent v alc) {c a : ℕ}
    (hc : alc c ∨ c = 0 ∧ a = 0) : (f.seek c a).Consistent v alc :=
  { h with cached := hc }

theorem Consistent.find {f : Fcb} (h : f.Consistent v alc) (vcn : ℕ) :
    ∃ c a, (f.find v.disk vcn).2 = f.seek c a ∧ (f.seek c a).Consistent v alc ∧
      ((f.find v.disk vcn).1 = .ok () → (f.seek c a).Settled vcn ∧ (5 ≤ vcn → alc c)) := by
  rw [Fcb.find]
  split
  · exact ⟨f.calbn, f.cavbn, rfl, h, fun _ => ⟨fun _ => by omega, fun _ => by omega⟩⟩
  · obtain ⟨c, a, heq, hc, hok⟩ := follows_fndalc h vcn
    refine ⟨c, a, heq, h.seek hc, fun hr => ?_⟩
    obtain ⟨hc', ha, hfirst⟩ := hok hr
    refine ⟨fun _ => ⟨?_, (h.block c hc').1, ha, hfirst⟩, fun _ => hc'⟩
    rw [fndalc] at hr
    split at hr
    · cases hr
    · omega

/-- The errors of `FNDALC` -/
theorem err_find (f : Fcb) (disk : ℕ → Block) (vcn : ℕ) {e : Miss}
    (h : (f.find disk vcn).1 = .error e) : e.err ≠ .una := by
  have hnxt : ∀ de, ∀ f : Fcb, (f.nxt1 disk de).1 = .error e → e.err ≠ .una := by
    intro de
    induction de with
    | zero => exact fun _ h => nomatch h
    | succ de ih =>
      intro f h
      rw [nxt1] at h
      split at h
      · obtain rfl := Except.error.inj h
        exact fun h => nomatch h
      · exact ih _ h
  have hprev : ∀ de, ∀ f : Fcb, (f.prev disk de).1 = .error e → e.err ≠ .una := by
    intro de
    induction de with
    | zero => exact fun _ h => nomatch h
    | succ de ih =>
      intro f h
      rw [Fcb.prev] at h
      split at h
      · obtain rfl := Except.error.inj h
        exact fun h => nomatch h
      · exact ih _ h
  have hstart : (f.start disk (avbn vcn)).1 = .error e → e.err ≠ .una := fun h => by
    rw [start] at h
    split at h
    · obtain rfl := Except.error.inj h
      exact fun h => nomatch h
    · exact hnxt _ _ h
  rw [Fcb.find, fndalc] at h
  split at h
  · cases h
  split at h
  · obtain rfl := Except.error.inj h
    exact fun h => nomatch h
  split at h
  · exact hstart h
  split at h
  · cases h
  split at h
  · exact hnxt _ _ h
  split at h
  · exact hstart h
  · exact hprev _ _ h

end Follow

end Fcb

end RSX280.Fileio
