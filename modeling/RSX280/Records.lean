import RSX280.Numbered
import RSX280.Pages

/-!
# The records of the text editor as an array

The calls on an array of records, with the numbers of those that are allocated. They and the free list
are all records there are.
-/

namespace RSX280.Ted

open Numbered

variable {β : Type}

/-- The records, and the variables of the free list. -/
structure Flat (β : Type) where
  recs : ℕ → Rec β
  FSTFRE : ℕ
  NUMFRE : ℕ
  NBLKS : ℕ
  WFBLKS : ℕ

/-- The record that was allocated, if there is one. -/
def Out.nums : Out β → List ℕ
  | .num r => if r = 0 then [] else [r]
  | _ => []

namespace Flat

/-- The links of the records. -/
def link (p : Flat β) (r : ℕ) : ℕ := (p.recs r).link

/-- A record and the ones it is linked to. -/
def chain (p : Flat β) (r : ℕ) : List ℕ := follow p.link 65536 r

/-- `ALLREC`. `junk` is what stands in the records of a new block. -/
def ALLREC (p : Flat β) (junk : ℕ → β) : ℕ × Flat β :=
  if p.FSTFRE = 0 then
    if p.WFBLKS ≤ p.NBLKS then (0, p)
    else
      let first := 32 * p.NBLKS
      (first + 31, { p with
        recs := fun r =>
          if r / 32 = p.NBLKS then ⟨if r % 32 < 30 then r + 1 else 0, junk r⟩ else p.recs r
        FSTFRE := if first = 0 then 1 else first
        NUMFRE := if first = 0 then (p.NUMFRE + 65534) % 65536 else (p.NUMFRE + 65535) % 65536
        NBLKS := p.NBLKS + 1 })
  else
    let x := p.recs p.FSTFRE
    (p.FSTFRE, { p with
      recs := Function.update p.recs p.FSTFRE { x with link := 0 }
      FSTFRE := x.link
      NUMFRE := (p.NUMFRE + 65535) % 65536 })

/-- `FREREC`: the last record of the chain is linked to the free list. -/
def FREREC (p : Flat β) (r : ℕ) : Flat β :=
  match (p.chain r).getLast? with
  | none => p
  | some l => { p with
      recs := Function.update p.recs l { p.recs l with link := p.FSTFRE }
      FSTFRE := r
      NUMFRE := (p.NUMFRE + (p.chain r).length) % 65536 }

/-- A record is written. -/
def set (p : Flat β) (r : ℕ) (x : Rec β) : Flat β := { p with recs := Function.update p.recs r x }

/-- One call. -/
def step (p : Flat β) (junk : ℕ → β) : Op β → Flat β × Out β
  | .ALLREC => ((p.ALLREC junk).2, .num (p.ALLREC junk).1)
  | .FREREC r => (p.FREREC r, .unit)
  | .LDREC r => (p, .data (p.recs r))
  | .LDRECD r f => (p.set r (f (p.recs r)), .data (p.recs r))

/-- The size of the work file is never changed. -/
theorem step_WFBLKS (p : Flat β) (junk : ℕ → β) (op : Op β) :
    (p.step junk op).1.WFBLKS = p.WFBLKS := by
  cases op with
  | ALLREC =>
    change (p.ALLREC junk).2.WFBLKS = _
    unfold ALLREC
    split
    · split
      · rfl
      · rfl
    · rfl
  | FREREC r =>
    change (p.FREREC r).WFBLKS = _
    unfold FREREC
    split
    · rfl
    · rfl
  | LDREC r => rfl
  | LDRECD r f => rfl

/-- Calls one after another, and what they return. -/
inductive Run (p : Flat β) : List (Op β) → List (Out β) → Flat β → Prop
  | nil : Run p [] [] p
  | snoc {ops os q} (op : Op β) (junk : ℕ → β) (h : Run p ops os q) :
    Run p (ops ++ [op]) (os ++ [(q.step junk op).2]) (q.step junk op).1

/-! ### Allocated records -/

/-- What the caller must meet: a chain that it frees is one of its own, and it writes to its own
records only. -/
def Ready (p : Flat β) (A : List ℕ) : Op β → Prop
  | .ALLREC => True
  | .FREREC r => r ≠ 0 ∧ ∃ c, Linked p.link r c ∧ ∀ x ∈ c, x ∈ A
  | .LDREC r => r ≠ 0 ∧ r < 32 * p.NBLKS
  | .LDRECD r _ => r ∈ A

/-- The allocated records after a call that returns `o`. -/
def alive (p : Flat β) (A : List ℕ) (o : Out β) : Op β → List ℕ
  | .FREREC r => A.filter fun x => x ∉ p.chain r
  | _ => o.nums ++ A

/-- The free list and the allocated records are all records but record 0, and none is there twice. -/
structure Books (p : Flat β) (free A : List ℕ) : Prop where
  linked : Linked p.link p.FSTFRE free
  nodup : (free ++ A).Nodup
  range : ∀ x ∈ free ++ A, x ≠ 0 ∧ x < 32 * p.NBLKS
  all : (free ++ A).length = 32 * p.NBLKS - 1

variable {p : Flat β} {free A c : List ℕ} {r : ℕ} {x : Rec β}

theorem Books.FSTFRE_lt (h : p.Books free A) (hz : p.FSTFRE ≠ 0) : p.FSTFRE < 32 * p.NBLKS := by
  obtain ⟨hlinked, -, hrange, -⟩ := h
  cases free with
  | nil => exact absurd hlinked hz
  | cons f free => exact hlinked.1 ▸ (hrange f List.mem_cons_self).2

theorem link_set_of_ne {y : ℕ} (h : y ≠ r) : (p.set r x).link y = p.link y :=
  congrArg Rec.link (Function.update_of_ne h _ _)

/-- An allocated record is written. -/
theorem Books.set (h : p.Books free A) (hr : r ∈ A) : (p.set r x).Books free A := by
  refine ⟨h.linked.congr fun y hy => link_set_of_ne ?_, h.nodup, h.range, h.all⟩
  exact fun hyr => (List.nodup_append.mp h.nodup).2.2 y hy r hr hyr

/-- Record 0 is never allocated, and a record is not allocated twice. There is none if the free list is
empty and the file has its full size. -/
theorem Books.ALLREC (h : p.Books free A) (junk : ℕ → β) :
    (∃ free', (p.ALLREC junk).2.Books free'
        (if (p.ALLREC junk).1 = 0 then A else (p.ALLREC junk).1 :: A)) ∧
      ((p.ALLREC junk).1 = 0 ↔ free = [] ∧ p.WFBLKS ≤ p.NBLKS) := by
  unfold Flat.ALLREC
  have hnil := h.linked.zero_iff
  by_cases hz : p.FSTFRE = 0
  · rw [if_pos hz]
    have hfree := hnil.mp hz
    subst hfree
    by_cases hfull : p.WFBLKS ≤ p.NBLKS
    · rw [if_pos hfull]
      exact ⟨⟨[], h⟩, iff_of_true rfl ⟨rfl, hfull⟩⟩
    · rw [if_neg hfull]
      dsimp only
      refine ⟨?_, iff_of_false (Nat.succ_ne_zero _) fun hc => hfull hc.2⟩
      rw [if_neg (Nat.succ_ne_zero _)]
      have hA : ∀ y ∈ A, y ≠ 0 ∧ y < 32 * p.NBLKS := h.range
      have hlen : A.length = 32 * p.NBLKS - 1 := h.all
      -- the first block has no record 0
      obtain ⟨a, n, ha, hn⟩ : ∃ a n, a = (if 32 * p.NBLKS = 0 then 1 else 32 * p.NBLKS) ∧
          a + n = 32 * p.NBLKS + 30 := by
        by_cases hb : 32 * p.NBLKS = 0
        · exact ⟨1, 29, (if_pos hb).symm, by omega⟩
        · exact ⟨_, 30, (if_neg hb).symm, rfl⟩
      have hpos : a ≠ 0 := by split at ha <;> omega
      have hlow : 32 * p.NBLKS ≤ a := by split at ha <;> omega
      refine ⟨List.range' a (n + 1), ?_, ?_, fun y hy => ?_, ?_⟩
      · rw [← ha]
        refine linked_range' hpos ?_ fun i hi => ?_
        · unfold link
          dsimp only
          rw [if_pos (show (a + n) / 32 = p.NBLKS by omega)]
          exact if_neg (by omega)
        · unfold link
          dsimp only
          rw [if_pos (show (a + i) / 32 = p.NBLKS by omega)]
          exact if_pos (by omega)
      · refine List.nodup_append.mpr ⟨List.nodup_range', List.nodup_cons.mpr ⟨fun hy => ?_, ?_⟩,
          fun y hy z hz' hyz => ?_⟩
        · have := (hA _ hy).2
          omega
        · exact h.nodup
        · have := List.mem_range'_1.mp hy
          rcases List.mem_cons.mp hz' with rfl | hz'
          · omega
          · have := (hA z hz').2
            omega
      · rcases List.mem_append.mp hy with hy | hy
        · have := List.mem_range'_1.mp hy
          dsimp only
          omega
        · dsimp only
          rcases List.mem_cons.mp hy with rfl | hy
          · omega
          · have := hA y hy
            omega
      · rw [List.length_append, List.length_range', List.length_cons, hlen]
        dsimp only
        split at ha <;> omega
  · rw [if_neg hz]
    dsimp only
    refine ⟨?_, iff_of_false hz fun hc => hz (hnil.mpr hc.1)⟩
    rw [if_neg hz]
    cases hf : free with
    | nil => exact absurd (hnil.mpr hf) hz
    | cons f free' =>
      subst hf
      obtain ⟨hfirst, -, hrest⟩ := h.linked
      have hperm : (free' ++ p.FSTFRE :: A).Perm (f :: free' ++ A) := hfirst ▸ List.perm_middle
      refine ⟨free', ?_, hperm.nodup_iff.mpr h.nodup, fun y hy => h.range y (hperm.mem_iff.mp hy),
        hperm.length_eq.trans h.all⟩
      dsimp only
      refine Linked.congr (hfirst ▸ hrest) fun y hy => ?_
      refine congrArg Rec.link (Function.update_of_ne ?_ _ _)
      rintro rfl
      exact (List.nodup_cons.mp (List.nodup_append.mp h.nodup).1).1 (hfirst ▸ hy)

theorem Books.perm {A' : List ℕ} (h : p.Books free A) (hp : A.Perm A') : p.Books free A' :=
  have hp := hp.append_left free
  ⟨h.linked, hp.nodup_iff.mp h.nodup, fun x hx => h.range x (hp.mem_iff.mpr hx),
    hp.length_eq.symm.trans h.all⟩

theorem Books.chain (h : p.Books free (c ++ A)) (hsize : p.NBLKS ≤ 2048) (hc : Linked p.link r c) :
    p.chain r = c := by
  refine hc.follow ?_
  have hall := h.all
  rw [List.length_append, List.length_append] at hall
  omega

/-- A chain of allocated records is put before the free list. -/
theorem Books.release (h : p.Books free (c ++ A)) (hsize : p.NBLKS ≤ 2048) (hr : r ≠ 0)
    (hc : Linked p.link r c) : (p.FREREC r).Books (c ++ free) A := by
  have hne : c ≠ [] := fun hnil => hr (hc.zero_iff.mpr hnil)
  have hdis : ∀ y ∈ c, y ∉ free := fun y hy hf =>
    (List.nodup_append.mp h.nodup).2.2 y hf y (List.mem_append_left _ hy) rfl
  have hperm : ((c ++ free) ++ A).Perm (free ++ (c ++ A)) := by
    rw [← List.append_assoc free]
    exact List.perm_append_comm.append_right _
  unfold Flat.FREREC
  rw [h.chain hsize hc, List.getLast?_eq_some_getLast hne]
  dsimp only
  refine ⟨?_, hperm.nodup_iff.mpr h.nodup, fun y hy => h.range y (hperm.mem_iff.mp hy),
    hperm.length_eq.trans h.all⟩
  refine (hc.join hne h.linked hdis).congr fun y _ => ?_
  unfold link
  dsimp only
  by_cases hy : y = c.getLast hne
  · rw [hy, Function.update_self, Function.update_self]
  · rw [Function.update_of_ne hy, Function.update_of_ne hy]

/-- The chain is any chain of allocated records. -/
theorem Books.FREREC (h : p.Books free A) (hsize : p.NBLKS ≤ 2048) (hr : r ≠ 0)
    (hc : Linked p.link r c) (hA : ∀ x ∈ c, x ∈ A) : p.chain r = c ∧
      (p.FREREC r).Books (c ++ free) (A.filter fun x => x ∉ c) := by
  have hAnd := (List.nodup_append.mp h.nodup).2.1
  have hsplit : A.Perm (c ++ A.filter fun x => x ∉ c) := by
    refine (List.perm_ext_iff_of_nodup hAnd ?_).mpr fun y => ?_
    · refine List.nodup_append.mpr ⟨hc.nodup, hAnd.filter _, fun y hy z hz hyz => ?_⟩
      have := (List.mem_filter.mp hz).2
      rw [← hyz] at this
      exact absurd hy (of_decide_eq_true this)
    · rw [List.mem_append, List.mem_filter, decide_eq_true_iff]
      by_cases hy : y ∈ c
      · exact iff_of_true (hA y hy) (Or.inl hy)
      · exact ⟨fun h => Or.inr ⟨h, hy⟩, fun h => (h.resolve_left hy).1⟩
  have h := h.perm hsplit
  exact ⟨h.chain hsize hc, h.release hsize hr hc⟩

/-! ### What stays as it is -/

theorem FREREC_other {y : ℕ} (hc : p.chain r = c) (hy : y ∉ c) :
    (p.FREREC r).recs y = p.recs y := by
  unfold Flat.FREREC
  rw [hc]
  cases hl : c.getLast? with
  | none => rfl
  | some l =>
    refine Function.update_of_ne ?_ _ _
    rintro rfl
    exact hy (List.mem_of_getLast? hl)

theorem FREREC_size : (p.FREREC r).NBLKS = p.NBLKS ∧ (p.FREREC r).WFBLKS = p.WFBLKS := by
  unfold Flat.FREREC
  split
  · exact ⟨rfl, rfl⟩
  · exact ⟨rfl, rfl⟩

/-- `ALLREC` changes no allocated record, and the new one is the last of its chain. -/
theorem Books.ALLREC_other (h : p.Books free A) (junk : ℕ → β) :
    (∀ y ∈ A, (p.ALLREC junk).2.recs y = p.recs y) ∧
      ((p.ALLREC junk).1 = 0 → (p.ALLREC junk).2 = p) ∧
        ((p.ALLREC junk).1 ≠ 0 → (p.ALLREC junk).2.link (p.ALLREC junk).1 = 0) := by
  unfold Flat.ALLREC
  by_cases hz : p.FSTFRE = 0
  · rw [if_pos hz]
    by_cases hfull : p.WFBLKS ≤ p.NBLKS
    · rw [if_pos hfull]
      exact ⟨fun _ _ => rfl, fun _ => rfl, fun h => absurd rfl h⟩
    · rw [if_neg hfull]
      refine ⟨fun y hy => ?_, fun h => absurd h (Nat.succ_ne_zero _), fun _ => ?_⟩
      · have := (h.range y (List.mem_append_right _ hy)).2
        exact if_neg (by omega)
      · unfold link
        dsimp only
        rw [if_pos (show (32 * p.NBLKS + 31) / 32 = p.NBLKS by omega)]
        exact if_neg (by omega)
  · rw [if_neg hz]
    refine ⟨fun y hy => Function.update_of_ne ?_ _ _, fun h => absurd h hz, fun _ => ?_⟩
    · rintro rfl
      cases hf : free with
      | nil => exact hz (h.linked.zero_iff.mpr hf)
      | cons f free' =>
        subst hf
        exact (List.nodup_append.mp h.nodup).2.2 f List.mem_cons_self _ hy h.linked.1.symm
    · unfold link
      dsimp only
      rw [Function.update_self]

theorem ALLREC_size (h : p.NBLKS ≤ p.WFBLKS) (junk : ℕ → β) :
    (p.ALLREC junk).2.NBLKS ≤ (p.ALLREC junk).2.WFBLKS ∧
      (p.ALLREC junk).2.WFBLKS = p.WFBLKS := by
  unfold Flat.ALLREC
  by_cases hz : p.FSTFRE = 0
  · rw [if_pos hz]
    by_cases hfull : p.WFBLKS ≤ p.NBLKS
    · rw [if_pos hfull]
      exact ⟨h, rfl⟩
    · rw [if_neg hfull]
      exact ⟨Nat.not_le.mp hfull, rfl⟩
  · rw [if_neg hz]
    exact ⟨h, rfl⟩

end Flat

end RSX280.Ted
