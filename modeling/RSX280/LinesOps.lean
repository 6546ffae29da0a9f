import Mathlib.Data.List.TakeWhile
import RSX280.Lines

/-!
# The lines of the text editor are a list

The records of the lines, with their continuation records, are the allocated ones. The first records
are linked in both directions. Inserting and deleting a line changes the list at one place and no other
line.
-/

namespace RSX280.Ted

open Numbered

/-! ### Fields of records -/

def nextOf (p : Flat Body) (r : ℕ) : ℕ := (p.recs r).rest.next
def prevOf (p : Flat Body) (r : ℕ) : ℕ := (p.recs r).rest.prev
def textOf (p : Flat Body) (r : ℕ) : List UInt8 := (p.recs r).rest.text

variable {p q : Flat Body} {r n x : ℕ} {t : List UInt8}

theorem set_self {y : Rec Body} : (p.set r y).recs r = y := Function.update_self _ _ _

theorem set_other {y : Rec Body} (h : x ≠ r) : (p.set r y).recs x = p.recs x :=
  Function.update_of_ne h _ _

/-- A field is kept where the record keeps it. -/
theorem field_set {α : Type} (f : Rec Body → α) {y : Rec Body} (h : f y = f (p.recs r)) :
    f ((p.set r y).recs x) = f (p.recs x) := by
  by_cases hx : x = r
  · rw [hx, set_self, h]
  · rw [set_other hx]

theorem link_setNext : (setNext p r n).link x = p.link x := field_set Rec.link rfl
theorem prev_setNext : prevOf (setNext p r n) x = prevOf p x := field_set (fun y => y.rest.prev) rfl
theorem text_setNext : textOf (setNext p r n) x = textOf p x := field_set (fun y => y.rest.text) rfl
theorem next_setNext : nextOf (setNext p r n) x = if x = r then n else nextOf p x := by
  unfold nextOf setNext
  by_cases hx : x = r
  · rw [if_pos hx, hx, set_self]
  · rw [if_neg hx, set_other hx]

theorem link_setPrev : (setPrev p r n).link x = p.link x := field_set Rec.link rfl
theorem next_setPrev : nextOf (setPrev p r n) x = nextOf p x := field_set (fun y => y.rest.next) rfl
theorem text_setPrev : textOf (setPrev p r n) x = textOf p x := field_set (fun y => y.rest.text) rfl
theorem prev_setPrev : prevOf (setPrev p r n) x = if x = r then n else prevOf p x := by
  unfold prevOf setPrev
  by_cases hx : x = r
  · rw [if_pos hx, hx, set_self]
  · rw [if_neg hx, set_other hx]

theorem link_setText : (setText p r t).link x = p.link x := field_set Rec.link rfl
theorem next_setText : nextOf (setText p r t) x = nextOf p x := field_set (fun y => y.rest.next) rfl
theorem prev_setText : prevOf (setText p r t) x = prevOf p x := field_set (fun y => y.rest.prev) rfl
theorem text_setText : textOf (setText p r t) r = t := by
  unfold textOf setText
  rw [set_self]

/-! ### Storing text -/

/-- The file has not more than its full size, and there are numbers for all records. -/
structure Fits (p : Flat Body) : Prop where
  size : p.NBLKS ≤ p.WFBLKS
  most : p.WFBLKS ≤ 2048

theorem Fits.ALLREC (h : Fits p) (junk : ℕ → Body) : Fits (p.ALLREC junk).2 :=
  have hs := Flat.ALLREC_size h.size junk
  ⟨hs.1, hs.2 ▸ h.most⟩

theorem Fits.set (h : Fits p) {y : Rec Body} : Fits (p.set r y) := ⟨h.size, h.most⟩

theorem Fits.FREREC (h : Fits p) : Fits (p.FREREC r) :=
  have hs := Flat.FREREC_size (p := p) (r := r)
  ⟨hs.1 ▸ hs.2 ▸ h.size, hs.2 ▸ h.most⟩

/-- The work file has no record that is not in use, and cannot grow. -/
def Full (p : Flat Body) : Prop := p.FSTFRE = 0 ∧ p.WFBLKS ≤ p.NBLKS

variable {free A : List ℕ} {e : List UInt8} {b : ℕ} {junk : ℕ → Body}

theorem ALLREC_zero (h : (p.ALLREC junk).1 = 0) : Full p := by
  unfold Flat.ALLREC at h
  by_cases hz : p.FSTFRE = 0
  · rw [if_pos hz] at h
    by_cases hfull : p.WFBLKS ≤ p.NBLKS
    · exact ⟨hz, hfull⟩
    · rw [if_neg hfull] at h
      exact absurd h (Nat.succ_ne_zero _)
  · rw [if_neg hz] at h
    exact absurd h hz

/-- How many continuation records `n` bytes need, if `b` of them have space in the record before. -/
def conts (b n : ℕ) : ℕ := (n - b + 13) / 14

variable {k c₁ c₂ new free' : List ℕ}

/-- What `sto8` returns for the bytes `e` behind the text `t` of a record `r` and for its continuation
records: `c₁` were used and `c₂` are left over, and `new` are those from the free list. -/
structure Sto8 (p : Flat Body) (A : List ℕ) (r b : ℕ) (t e : List UInt8) (u : Bool × Flat Body × ℕ)
    (c₁ c₂ new free' : List ℕ) : Prop where
  used : new ≠ [] → c₂ = []
  books : u.2.1.Books free' (new ++ A)
  fits : Fits u.2.1
  linked : Linked u.2.1.link r (r :: (c₁ ++ new) ++ c₂)
  last : (r :: (c₁ ++ new)).getLast? = some u.2.2
  keep : ∀ y ∈ A, y ≠ r → y ∉ c₁ → u.2.1.recs y = p.recs y
  next : nextOf u.2.1 r = nextOf p r
  prev : prevOf u.2.1 r = prevOf p r
  full : u.1 = true → c₂ = [] ∧ Full u.2.1
  text : u.1 = false → (r :: (c₁ ++ new)).flatMap (textOf u.2.1) = t ++ e ∨
    (r :: (c₁ ++ new)).flatMap (textOf u.2.1) = t ++ e ++ [CR]
  count : u.1 = false → (c₁ ++ new).length = conts b e.length

/-- There is no more to put into the record. -/
theorem sto8_nil (h : p.Books free A) (hf : Fits p) (hr : r ∈ A) (hlink : Linked p.link r (r :: k))
    (ht : textOf p r = t) {u} (hu : u = sto8 junk p r b [CR]) : Sto8 p A r b t [] u [] k [] free := by
  cases b with
  | zero =>
    rw [sto8, if_pos rfl] at hu
    subst hu
    refine ⟨fun hne => absurd rfl hne, h, hf, hlink, rfl, fun _ _ _ _ => rfl, rfl, rfl,
      fun hcy => Bool.noConfusion hcy, fun _ => Or.inl ?_, fun _ => rfl⟩
    rw [List.nil_append, List.flatMap_singleton, ht, List.append_nil]
  | succ b =>
    rw [sto8, if_pos rfl] at hu
    subst hu
    refine ⟨fun hne => absurd rfl hne, h.set hr, hf.set, hlink.congr fun _ _ => link_setText, rfl,
      fun _ _ hy _ => set_other hy, next_setText, prev_setText, fun hcy => Bool.noConfusion hcy,
        fun _ => Or.inr ?_, fun _ => ?_⟩
    · rw [List.nil_append, List.flatMap_singleton, List.append_nil]
      exact text_setText.trans (by rw [← ht]; rfl)
    · change 0 = (0 - (b + 1) + 13) / 14
      omega

/-- The next record gets the rest, which begins with `a`: `p'` is what it is linked in. -/
theorem Sto8.cons {p' : Flat Body} {A' : List ℕ} {x a u} (h : Sto8 p' A' x 13 [a] e u c₁ c₂ new free')
    (hr : r ∈ A') (hne : r ≠ x) (hc₁ : r ∉ c₁) (hr0 : r ≠ 0) {y : Rec Body} (hy : p'.recs r = y) (hlink : y.link = x)
    (hrest : y.rest = (p.recs r).rest) (ht : textOf p r = t) :
    Linked u.2.1.link r (r :: x :: (c₁ ++ new) ++ c₂) ∧
      (r :: x :: (c₁ ++ new)).getLast? = some u.2.2 ∧ nextOf u.2.1 r = nextOf p r ∧ prevOf u.2.1 r = prevOf p r ∧
        (u.1 = false → (r :: x :: (c₁ ++ new)).flatMap (textOf u.2.1) = t ++ a :: e ∨
          (r :: x :: (c₁ ++ new)).flatMap (textOf u.2.1) = t ++ a :: e ++ [CR]) ∧
            (u.1 = false → (x :: (c₁ ++ new)).length = conts 0 (a :: e).length) := by
  have hrec : u.2.1.recs r = y := (h.keep r hr hne hc₁).trans hy
  have hbody : (u.2.1.recs r).rest = (p.recs r).rest := hrec ▸ hrest
  refine ⟨⟨rfl, hr0, ?_⟩, ?_, congrArg Body.next hbody, congrArg Body.prev hbody, fun hcy => ?_, fun hcy => ?_⟩
  · rw [show u.2.1.link r = x from hlink ▸ congrArg Rec.link hrec]
    exact h.linked
  · rw [List.getLast?_cons_of_ne_nil (List.cons_ne_nil _ _)]
    exact h.last
  · have hrt : textOf u.2.1 r = t := (congrArg Body.text hbody).trans ht
    rw [List.flatMap_cons, hrt]
    rcases h.text hcy with ht' | ht'
    · exact Or.inl (by rw [ht']; rfl)
    · exact Or.inr (by rw [ht', List.append_assoc t]; rfl)
  · have hcount := h.count hcy
    rw [List.length_cons, hcount, List.length_cons]
    unfold conts
    omega

/-- The bytes are put into the record, into the ones it is linked to and into new ones. The others are as
they were. The induction is on the bytes. -/
theorem sto8_chain (h : p.Books free A) (hf : Fits p) (hr : r ∈ A) (hk : ∀ x ∈ k, x ∈ A)
    (hlink : Linked p.link r (r :: k)) (ht : textOf p r = t) (he : ∀ x ∈ e, x ≠ CR) {u}
    (hu : u = sto8 junk p r b (e ++ [CR])) :
    ∃ c₁ c₂ new free', k = c₁ ++ c₂ ∧ Sto8 p A r b t e u c₁ c₂ new free' := by
  have hr0 := (h.range r (List.mem_append_right _ hr)).1
  induction e generalizing p r b t free A k u with
  | nil => exact ⟨[], k, [], free, rfl, sto8_nil h hf hr hlink ht hu⟩
  | cons a e ih =>
    obtain ⟨ha, he⟩ := List.forall_mem_cons.mp he
    cases b with
    | zero =>
      rw [List.cons_append, sto8, if_neg ha] at hu
      dsimp only at hu
      cases k with
      | cons x k =>
        have hx : p.link r = x := hlink.2.2.1
        have hx0 : x ≠ 0 := hlink.2.2.2.1
        have hnd := List.nodup_cons.mp hlink.nodup
        have hrx : r ≠ x := fun heq => hnd.1 (heq ▸ List.mem_cons_self)
        rw [show (p.recs r).link = x from hx, if_pos hx0] at hu
        dsimp only at hu
        rw [if_neg hx0] at hu
        have hxA : x ∈ A := hk x List.mem_cons_self
        obtain ⟨c₁, c₂, new, free', rfl, hsto⟩ := ih (p := setText p x [a]) (h.set hxA) hf.set hxA
          (fun y hy => hk y (List.mem_cons_of_mem _ hy))
            (Linked.congr (⟨rfl, hlink.2.2.2⟩ : Linked p.link x (x :: k)) fun _ _ => link_setText) text_setText he hu hx0
        have hc₁ : r ∉ c₁ := fun hmem => hnd.1 (List.mem_cons_of_mem _ (List.mem_append_left _ hmem))
        obtain ⟨hlinked, hlast, hnext, hprev, htext, hcount⟩ :=
          hsto.cons (p := p) hr hrx hc₁ hr0 (set_other hrx) hx rfl ht
        refine ⟨x :: c₁, c₂, new, free', rfl, hsto.used, hsto.books, hsto.fits, hlinked, hlast, fun y hy hyr hyc => ?_,
          hnext, hprev, hsto.full, htext, hcount⟩
        have hyx : y ≠ x := fun heq => hyc (heq ▸ List.mem_cons_self)
        exact (hsto.keep y hy hyx fun hmem => hyc (List.mem_cons_of_mem _ hmem)).trans (set_other hyx)
      | nil =>
        have hlink : p.link r = 0 := hlink.2.2
        rw [if_neg (not_not.mpr (show (p.recs r).link = 0 from hlink))] at hu
        obtain ⟨⟨free', hb⟩, -⟩ := h.ALLREC junk
        obtain ⟨hother, hzero, hnew⟩ := h.ALLREC_other junk
        have hfits := hf.ALLREC junk
        have hfull : (p.ALLREC junk).1 = 0 → Full p := ALLREC_zero
        generalize p.ALLREC junk = w at hu hb hother hzero hnew hfits hfull
        obtain ⟨new, p'⟩ := w
        dsimp only at hu hb hother hzero hnew hfits hfull
        by_cases hz : new = 0
        · obtain rfl := hzero hz
          rw [if_pos hz, hz] at hu
          subst hu
          have hlink' : (setLink p' r 0).link r = 0 := congrArg Rec.link set_self
          exact ⟨[], [], [], free, rfl, fun _ => rfl, h.set hr, hf.set, ⟨rfl, hr0, hlink'⟩, rfl,
            fun _ _ hy _ => set_other hy, field_set (fun y => y.rest.next) rfl, field_set (fun y => y.rest.prev) rfl,
              fun _ => ⟨rfl, hfull hz⟩, fun hcy => Bool.noConfusion hcy, fun hcy => Bool.noConfusion hcy⟩
        · rw [if_neg hz] at hu hb
          have hnA : new ∉ A := (List.nodup_cons.mp (List.nodup_append.mp hb.nodup).2.1).1
          have hrn : r ≠ new := fun heq => hnA (heq ▸ hr)
          have hb' := (hb.set (x := { p'.recs r with link := new }) (List.mem_cons_of_mem _ hr)).set
            (x := { (setLink p' r new).recs new with
              rest := { ((setLink p' r new).recs new).rest with text := [a] } }) List.mem_cons_self
          have hend : (setText (setLink p' r new) new [a]).link new = 0 :=
            link_setText.trans ((Flat.link_set_of_ne hrn.symm).trans (hnew hz))
          obtain ⟨c₁, c₂, new', free'', hsplit, hsto⟩ := ih (k := []) hb' hfits.set.set List.mem_cons_self
            (List.forall_mem_nil _) ⟨rfl, hz, hend⟩ text_setText he hu hz
          obtain ⟨rfl, rfl⟩ := List.append_eq_nil_iff.mp hsplit.symm
          have hrec : (setText (setLink p' r new) new [a]).recs r = { p.recs r with link := new } := by
            rw [← hother r hr]
            exact (set_other hrn).trans set_self
          obtain ⟨hlinked, hlast, hnext, hprev, htext, hcount⟩ := hsto.cons (p := p) (List.mem_cons_of_mem _ hr) hrn
            List.not_mem_nil hr0 hrec rfl rfl ht
          refine ⟨[], [], new :: new', free'', rfl, fun _ => rfl, hsto.books.perm List.perm_middle, hsto.fits, hlinked, hlast,
            fun y hy hyr _ => ?_, hnext, hprev, hsto.full, htext, hcount⟩
          have hyn : y ≠ new := fun heq => hnA (heq ▸ hy)
          rw [hsto.keep y (List.mem_cons_of_mem _ hy) hyn List.not_mem_nil, ← hother y hy]
          exact (set_other hyn).trans (set_other hyr)
    | succ b =>
      rw [List.cons_append, sto8, if_neg ha] at hu
      obtain ⟨c₁, c₂, new, free', hsplit, hsto⟩ := ih (t := t ++ [a]) (h.set hr) hf.set hr hk
        (hlink.congr fun _ _ => link_setText) (text_setText.trans (by rw [← ht]; rfl)) he hu hr0
      refine ⟨c₁, c₂, new, free', hsplit, hsto.used, hsto.books, hsto.fits, hsto.linked, hsto.last,
        fun y hy hyr hyc => (hsto.keep y hy hyr hyc).trans (set_other hyr), hsto.next.trans next_setText,
          hsto.prev.trans prev_setText, hsto.full, fun hcy => ?_, fun hcy => ?_⟩
      · rcases hsto.text hcy with ht' | ht'
        · exact Or.inl (by rw [ht', List.append_assoc]; rfl)
        · exact Or.inr (by rw [ht', List.append_assoc t [a]]; rfl)
      · rw [hsto.count hcy, List.length_cons]
        unfold conts
        omega

/-- A record that is linked to no other one gets new ones. -/
theorem sto8_spec (h : p.Books free A) (hf : Fits p) (hr : r ∈ A) (hlink : p.link r = 0)
    (ht : textOf p r = t) (he : ∀ x ∈ e, x ≠ CR) {u} (hu : u = sto8 junk p r b (e ++ [CR])) :
    ∃ c free', u.2.1.Books free' (c ++ A) ∧ Fits u.2.1 ∧ Linked u.2.1.link r (r :: c) ∧
      (∀ y ∈ A, y ≠ r → u.2.1.recs y = p.recs y) ∧ nextOf u.2.1 r = nextOf p r ∧
        prevOf u.2.1 r = prevOf p r ∧ u.2.1.link u.2.2 = 0 ∧ (u.1 = true → Full u.2.1) ∧
          (u.1 = false → (r :: c).flatMap (textOf u.2.1) = t ++ e ∨
            (r :: c).flatMap (textOf u.2.1) = t ++ e ++ [CR]) := by
  have hr0 := (h.range r (List.mem_append_right _ hr)).1
  obtain ⟨c₁, c₂, c, free', hsplit, hsto⟩ := sto8_chain (k := []) h hf hr (List.forall_mem_nil _)
    ⟨rfl, hr0, hlink⟩ ht he hu
  obtain ⟨rfl, rfl⟩ := List.append_eq_nil_iff.mp hsplit.symm
  have hlinked : Linked u.2.1.link r (r :: c ++ []) := hsto.linked
  refine ⟨c, free', hsto.books, hsto.fits, ?_, fun y hy hyr => hsto.keep y hy hyr List.not_mem_nil, hsto.next,
    hsto.prev, hlinked.link_last hsto.last, fun hcy => (hsto.full hcy).2, hsto.text⟩
  rwa [List.append_nil] at hlinked

theorem run_ne_CR {c : ℕ} : ∀ x ∈ run c, x ≠ CR := by
  unfold run
  split
  · exact List.forall_mem_nil _
  · refine List.forall_mem_singleton.mpr fun heq => ?_
    have hle : 128 ≤ (UInt8.ofNat (c % 256) ||| 0x80).toNat := by
      rw [UInt8.toNat_or]
      exact Nat.right_le_or
    rw [heq] at hle
    exact absurd hle (by decide)

/-- The bytes of a line have no `CR`. -/
theorem encode_ne_CR {c : ℕ} {l : List UInt8} : ∀ x ∈ encode n c l, x ≠ CR := by
  induction l generalizing n c with
  | nil => exact run_ne_CR
  | cons a l ih =>
    rw [encode]
    split
    · exact ih
    · dsimp only
      refine List.forall_mem_append.mpr ⟨run_ne_CR, ?_⟩
      split
      · exact List.forall_mem_nil _
      · split
        · exact ih
        · split
          · exact ih
          · split
            · rename_i hlt
              refine List.forall_mem_cons.mpr ⟨fun heq => ?_, ih⟩
              rw [heq] at hlt
              exact absurd hlt (by decide)
            · split
              · exact ih
              · split
                · exact List.forall_mem_cons.mpr ⟨by decide, ih⟩
                · split
                  · exact List.forall_mem_nil _
                  · exact List.forall_mem_cons.mpr ⟨by decide, ih⟩

/-! ### Linking a record -/

/-- The record before the new one, if there is one, is linked to it. -/
def linkNext (p : Flat Body) (hl new : ℕ) : Flat Body := if hl = 0 then p else setNext p hl new

/-- So is the one behind it. -/
def linkPrev (p : Flat Body) (next new : ℕ) : Flat Body := if next = 0 then p else setPrev p next new

variable {hl new : ℕ}

theorem link_linkNext : (linkNext p hl new).link x = p.link x := by
  unfold linkNext
  split
  · rfl
  · exact link_setNext

theorem text_linkNext : textOf (linkNext p hl new) x = textOf p x := by
  unfold linkNext
  split
  · rfl
  · exact text_setNext

theorem prev_linkNext : prevOf (linkNext p hl new) x = prevOf p x := by
  unfold linkNext
  split
  · rfl
  · exact prev_setNext

theorem next_linkNext (hx : x ≠ 0) :
    nextOf (linkNext p hl new) x = if x = hl then new else nextOf p x := by
  unfold linkNext
  split
  · rename_i hz
    rw [hz, if_neg hx]
  · exact next_setNext

theorem link_linkPrev : (linkPrev p hl new).link x = p.link x := by
  unfold linkPrev
  split
  · rfl
  · exact link_setPrev

theorem text_linkPrev : textOf (linkPrev p hl new) x = textOf p x := by
  unfold linkPrev
  split
  · rfl
  · exact text_setPrev

theorem next_linkPrev : nextOf (linkPrev p hl new) x = nextOf p x := by
  unfold linkPrev
  split
  · rfl
  · exact next_setPrev

theorem prev_linkPrev (hx : x ≠ 0) :
    prevOf (linkPrev p hl new) x = if x = hl then new else prevOf p x := by
  unfold linkPrev
  split
  · rename_i hz
    rw [hz, if_neg hx]
  · exact prev_setPrev

theorem Fits.linkNext (h : Fits p) : Fits (linkNext p hl new) := by
  unfold Ted.linkNext
  split
  · exact h
  · exact h.set

theorem Fits.linkPrev (h : Fits p) : Fits (linkPrev p hl new) := by
  unfold Ted.linkPrev
  split
  · exact h
  · exact h.set

theorem books_linkNext (h : p.Books free A) (hA : hl ≠ 0 → hl ∈ A) :
    (linkNext p hl new).Books free A := by
  unfold linkNext
  split
  · exact h
  · rename_i hz
    exact h.set (hA hz)

theorem books_linkPrev (h : p.Books free A) (hA : hl ≠ 0 → hl ∈ A) :
    (linkPrev p hl new).Books free A := by
  unfold linkPrev
  split
  · exact h
  · rename_i hz
    exact h.set (hA hz)

/-! ### Lines -/

/-- The record of a line is the first one of its chain. -/
def head (c : List ℕ) : ℕ := c.headD 0

/-- The text of a line. -/
def lineText (p : Flat Body) (c : List ℕ) : List UInt8 := (c.flatMap (textOf p)).takeWhile (· ≠ CR)

/-- The records of the lines, in order: they are linked in both directions, and no other record is
allocated. -/
structure Text (s : Ed) (ls : List (List ℕ)) : Prop where
  fits : Fits s.p
  books : ∃ free, s.p.Books free ls.flatten
  chains : ∀ c ∈ ls, c ≠ [] ∧ Linked s.p.link (head c) c
  next : Linked (nextOf s.p) s.FSTREC (ls.map head)
  prev : Linked (prevOf s.p) s.LSTREC (ls.map head).reverse
  last : s.LASTLN = ls.length

variable {s : Ed} {ls l₁ l₂ : List (List ℕ)} {c : List ℕ} {de : List UInt8} {bc : ℕ}

theorem Text.head_mem (h : Text s ls) (hc : c ∈ ls) : head c ∈ ls.flatten := by
  obtain ⟨hne, -⟩ := h.chains c hc
  refine List.mem_flatten.mpr ⟨c, hc, ?_⟩
  cases c with
  | nil => exact absurd rfl hne
  | cons a c => exact List.mem_cons_self

theorem Text.mem_heads (h : Text s ls) (hx : x ∈ ls.map head) : x ∈ ls.flatten := by
  obtain ⟨c, hc, rfl⟩ := List.mem_map.mp hx
  exact h.head_mem hc

/-- The text of a line is that of its record. -/
theorem Text.chars (h : Text s ls) (hc : c ∈ ls) : chars s.p (head c) = lineText s.p c := by
  obtain ⟨free, hb⟩ := h.books
  obtain ⟨l₁, l₂, rfl⟩ := List.append_of_mem hc
  have hperm : (l₁ ++ c :: l₂).flatten.Perm (c ++ (l₁ ++ l₂).flatten) := by
    rw [List.flatten_append, List.flatten_cons, List.flatten_append, ← List.append_assoc,
      ← List.append_assoc]
    exact List.perm_append_comm.append_right _
  have hchain := (hb.perm hperm).chain (Nat.le_trans h.fits.size h.fits.most) (h.chains c hc).2
  unfold Ted.chars lineText
  rw [hchain]
  rfl

/-! ### Inserting a line -/

/-- The state of `INSBUF` when it calls `STORE`. -/
def linked (s : Ed) (p : Flat Body) (new hl bc : ℕ) : Ed :=
  let next := if hl = 0 then s.FSTREC else nextOf p hl
  { s with
    p := (linkPrev (linkNext p hl new) next new).set new
      ⟨0, next, hl, textOf (linkPrev (linkNext p hl new) next new) new⟩
    FSTREC := if hl = 0 then new else s.FSTREC
    LSTREC := if next = 0 then new else s.LSTREC
    CURLN := if s.CURLN ≤ bc then s.CURLN else s.CURLN + 1
    LASTLN := s.LASTLN + 1 }

theorem INSBUF_eq : INSBUF s hl de bc = if (s.p.ALLREC s.junk).1 = 0 then (true, s) else
    STORE (linked s (s.p.ALLREC s.junk).2 (s.p.ALLREC s.junk).1 hl bc) (s.p.ALLREC s.junk).1 de := by
  unfold INSBUF linked linkPrev linkNext
  generalize s.p.ALLREC s.junk = w
  obtain ⟨new, p⟩ := w
  dsimp only
  by_cases hz : new = 0
  · rw [if_pos hz, if_pos hz]
  · rw [if_neg hz, if_neg hz]
    by_cases hh : hl = 0
    · rw [if_pos hh, if_pos hh, if_pos hh, if_pos hh]
      by_cases hn : s.FSTREC = 0
      · rw [if_pos hn, if_pos hn, if_pos hn]
        rfl
      · rw [if_neg hn, if_neg hn, if_neg hn]
        rfl
    · rw [if_neg hh, if_neg hh, if_neg hh, if_neg hh]
      by_cases hn : nextOf p hl = 0
      · rw [if_pos (show (p.recs hl).rest.next = 0 from hn), if_pos hn, if_pos hn]
        rfl
      · rw [if_neg (show ¬(p.recs hl).rest.next = 0 from hn), if_neg hn, if_neg hn]
        rfl

/-- What `STORE` does to a new record. -/
theorem STORE_spec (h : s.p.Books free A) (hf : Fits s.p) (hr : r ∈ A) (hlink : s.p.link r = 0) {u}
    (hu : u = STORE s r de) : ∃ c free', u.2.p.Books free' (c ++ A) ∧ Fits u.2.p ∧
      Linked u.2.p.link r (r :: c) ∧ (∀ y ∈ A, y ≠ r → u.2.p.recs y = s.p.recs y) ∧
        nextOf u.2.p r = nextOf s.p r ∧ prevOf u.2.p r = prevOf s.p r ∧ (u.1 = true → Full u.2.p) ∧
          (u.1 = false → lineText u.2.p (r :: c) = encode 0 0 de) ∧
            u.2 = { s with p := u.2.p, EDREC := r, NXTREC := u.2.NXTREC, PRVREC := u.2.PRVREC } := by
  have hne : ∀ x ∈ encode 0 0 de, x ≠ CR := encode_ne_CR
  obtain ⟨c, free', hbooks, hfits, hc, hkeep, hnext, hprev, hlast, hover, htext⟩ := sto8_spec
    (u := sto8 s.junk (setText s.p r []) r 10 (encode 0 0 de ++ [CR])) (h.set hr) hf.set hr
      (link_setText.trans hlink) text_setText hne rfl
  unfold STORE at hu
  generalize sto8 s.junk (setText s.p r []) r 10 (encode 0 0 de ++ [CR]) = w at hbooks hfits hc hkeep hnext hprev hlast hover htext hu
  obtain ⟨cy, q, last⟩ := w
  dsimp only at hbooks hfits hc hkeep hnext hprev hlast hover htext hu
  have hp : (if cy then q else sto12 q last) = q := by
    split
    · rfl
    · exact if_pos hlast
  rw [hp] at hu
  subst hu
  refine ⟨c, free', hbooks, hfits, hc, fun y hy hyr => (hkeep y hy hyr).trans (set_other hyr),
    hnext.trans next_setText, hprev.trans prev_setText, hover, fun hcy => ?_, rfl⟩
  have hall : ∀ x ∈ encode 0 0 de, decide (x ≠ CR) = true := fun x hx => decide_eq_true (hne x hx)
  unfold lineText
  rcases htext hcy with ht | ht
  · rw [ht, List.nil_append, List.takeWhile_eq_self_iff]
    exact hall
  · rw [ht, List.nil_append, List.takeWhile_append_of_pos hall]
    exact List.append_nil _

variable {next : ℕ}

theorem Text.ne_zero (h : Text s ls) (hx : x ∈ ls.map head) : x ≠ 0 := h.next.ne_zero x hx

/-- There is no record before the first line. -/
theorem Text.prev_zero (h : Text s (l₁ ++ l₂)) (hp : hl = (l₁.map head).getLast?.getD 0) :
    hl = 0 ↔ l₁ = [] := by
  constructor
  · intro hz
    cases hlast : (l₁.map head).getLast? with
    | none => exact List.map_eq_nil_iff.mp (List.getLast?_eq_none_iff.mp hlast)
    | some y =>
      rw [hlast] at hp
      have hy : y ∈ (l₁ ++ l₂).map head := by
        rw [List.map_append]
        exact List.mem_append_left _ (List.mem_of_getLast? hlast)
      exact absurd (hp.symm.trans hz) (h.ne_zero hy)
  · rintro rfl
    exact hp

/-- The next record is found from the one before, or it is the first one. -/
theorem Text.next_of_prev (h : Text s (l₁ ++ l₂)) (hp : hl = (l₁.map head).getLast?.getD 0) :
    (if hl = 0 then s.FSTREC else nextOf s.p hl) = (l₂.map head).headD 0 := by
  have hnext := h.next
  rw [List.map_append] at hnext
  by_cases hz : hl = 0
  · rw [if_pos hz]
    obtain rfl := (h.prev_zero hp).mp hz
    exact hnext.head
  · rw [if_neg hz]
    refine hnext.link_last ?_
    cases hlast : (l₁.map head).getLast? with
    | none => exact absurd (by rw [hp, hlast]; rfl) hz
    | some y =>
      rw [hp, hlast]
      rfl

theorem getLast?_iff {l : List ℕ} {y : ℕ} (hy : y ≠ 0) :
    l.getLast? = some y ↔ y = l.getLast?.getD 0 := by
  cases l.getLast? with
  | none => exact iff_of_false (by rintro ⟨⟩) hy
  | some z => exact ⟨fun h => (Option.some.inj h).symm, fun h => congrArg some h.symm⟩

theorem head?_iff {l : List ℕ} {y : ℕ} (hy : y ≠ 0) : l.head? = some y ↔ y = l.headD 0 := by
  cases l with
  | nil => exact iff_of_false (by rintro ⟨⟩) hy
  | cons z l => exact ⟨fun h => (Option.some.inj h).symm, fun h => congrArg some h.symm⟩

theorem headD_eq {l l' : List ℕ} (hne : l ≠ []) : (l ++ l').headD 0 = l.headD 0 := by
  cases l with
  | nil => exact absurd rfl hne
  | cons a l => rfl

/-- A line is linked between two others. -/
theorem Text.insert (h : Text s (l₁ ++ l₂)) (hp : hl = (l₁.map head).getLast?.getD 0)
    (hnext : next = (l₂.map head).headD 0) {s' : Ed} (hfits : Fits s'.p)
    (hb : s'.p.Books free (l₁ ++ (new :: c) :: l₂).flatten) (hc : Linked s'.p.link new (new :: c))
    (hq : ∀ y ∈ (l₁ ++ l₂).flatten, s'.p.link y = s.p.link y ∧
      nextOf s'.p y = (if y = hl then new else nextOf s.p y) ∧
        prevOf s'.p y = if y = next then new else prevOf s.p y)
    (hqn : nextOf s'.p new = next) (hqv : prevOf s'.p new = hl)
    (hfst : s'.FSTREC = if hl = 0 then new else s.FSTREC)
    (hlst : s'.LSTREC = if next = 0 then new else s.LSTREC) (hlast : s'.LASTLN = s.LASTLN + 1) :
    Text s' (l₁ ++ (new :: c) :: l₂) := by
  have hnd := h.next.nodup
  have hnew0 : new ≠ 0 := hc.2.1
  have hmap : (l₁ ++ (new :: c) :: l₂).map head = l₁.map head ++ new :: l₂.map head := List.map_append
  have hmap' : (l₁ ++ l₂).map head = l₁.map head ++ l₂.map head := List.map_append
  have hmem : ∀ y ∈ l₁.map head ++ l₂.map head, y ∈ (l₁ ++ l₂).flatten := fun y hy =>
    h.mem_heads (hmap' ▸ hy)
  refine ⟨hfits, ⟨free, hb⟩, fun d hd => ?_, ?_, ?_, ?_⟩
  · have hd : d = new :: c ∨ d ∈ l₁ ++ l₂ := by
      rw [List.mem_append, List.mem_cons] at hd
      rw [List.mem_append]
      rcases hd with hd | hd | hd
      · exact Or.inr (Or.inl hd)
      · exact Or.inl hd
      · exact Or.inr (Or.inr hd)
    rcases hd with rfl | hd
    · exact ⟨List.cons_ne_nil _ _, hc⟩
    · obtain ⟨hne, hl⟩ := h.chains d hd
      exact ⟨hne, hl.congr fun y hy => (hq y (List.mem_flatten.mpr ⟨d, hd, hy⟩)).1⟩
  · rw [hmap, hfst]
    have hold := h.next
    rw [hmap'] at hold hnd
    have hhead : (if hl = 0 then new else s.FSTREC) = (l₁.map head ++ [new]).headD 0 := by
      by_cases hz : hl = 0
      · obtain rfl := (h.prev_zero hp).mp hz
        exact if_pos hz
      · have hne : l₁.map head ≠ [] := fun hn =>
          hz ((h.prev_zero hp).mpr (List.map_eq_nil_iff.mp hn))
        rw [if_neg hz, hold.head, headD_eq hne, headD_eq hne]
    rw [hhead]
    refine hold.insert hnew0 (fun y hy hyl => ?_) (fun y hy => ?_) (hqn.trans hnext) hnd
    · rw [(hq y (hmem y hy)).2.1, if_neg]
      exact fun hyh => hyl ((getLast?_iff (h.ne_zero (hmap' ▸ hy))).mpr (hyh.trans hp))
    · have hmem' := List.mem_append_left (l₂.map head) (List.mem_of_getLast? hy)
      rw [(hq y (hmem y hmem')).2.1, if_pos]
      exact ((getLast?_iff (h.ne_zero (hmap' ▸ hmem'))).mp hy).trans hp.symm
  · have hold := h.prev
    rw [hmap', List.reverse_append] at hold
    rw [hmap, List.reverse_append, List.reverse_cons, List.append_assoc, List.singleton_append, hlst]
    have hmemr : ∀ y ∈ (l₂.map head).reverse ++ (l₁.map head).reverse, y ∈ (l₁ ++ l₂).flatten := by
      intro y hy
      rw [← List.reverse_append] at hy
      exact hmem y (List.mem_reverse.mp hy)
    have hhead : (if next = 0 then new else s.LSTREC) = ((l₂.map head).reverse ++ [new]).headD 0 := by
      by_cases hz : next = 0
      · have hnil : l₂.map head = [] := by
          cases hl₂ : l₂.map head with
          | nil => rfl
          | cons y l =>
            rw [hnext, hl₂] at hz
            refine absurd hz (h.ne_zero (hmap' ▸ List.mem_append_right _ ?_))
            rw [hl₂]
            exact List.mem_cons_self
        rw [if_pos hz, hnil]
        rfl
      · have hne : (l₂.map head).reverse ≠ [] := by
          intro hn
          rw [List.reverse_eq_nil_iff] at hn
          rw [hnext, hn] at hz
          exact hz rfl
        rw [if_neg hz, hold.head, headD_eq hne, headD_eq hne]
    have hlink : prevOf s'.p new = (l₁.map head).reverse.headD 0 := by
      rw [hqv, hp, List.headD_eq_head?_getD, List.head?_reverse]
    have hfirst : (l₂.map head).reverse.getLast? = (l₂.map head).head? := List.getLast?_reverse
    rw [hhead]
    refine hold.insert hnew0 (fun y hy hyl => ?_) (fun y hy => ?_) hlink hold.nodup
    · rw [(hq y (hmemr y hy)).2.2, if_neg]
      exact fun hyn => hyl (hfirst.trans ((head?_iff (hold.ne_zero y hy)).mpr (hyn.trans hnext)))
    · rw [hfirst] at hy
      have hy' : y ∈ (l₂.map head).reverse ++ (l₁.map head).reverse :=
        List.mem_append_left _ (List.mem_reverse.mpr (List.mem_of_head? hy))
      rw [(hq y (hmemr y hy')).2.2, if_pos]
      exact ((head?_iff (hold.ne_zero y hy')).mp hy).trans hnext.symm
  · rw [hlast, h.last, List.length_append, List.length_append, List.length_cons]
    omega

/-- `INSBUF` puts a line behind the one at `HL`, and changes no other one. -/
theorem INSBUF_spec (h : Text s (l₁ ++ l₂)) (hp : hl = (l₁.map head).getLast?.getD 0) {t}
    (ht : t = INSBUF s hl de bc) : t = (true, s) ∧ Full s.p ∨ ∃ c, Text t.2 (l₁ ++ c :: l₂) ∧
      (∀ d ∈ l₁ ++ l₂, lineText t.2.p d = lineText s.p d) ∧ (t.1 = true → Full t.2.p) ∧
        (t.1 = false → lineText t.2.p c = encode 0 0 de) ∧ t.2.CURREC = s.CURREC ∧
          t.2.CURLN = (if s.CURLN ≤ bc then s.CURLN else s.CURLN + 1) ∧ t.2.EDREC = head c := by
  obtain ⟨free, hb⟩ := h.books
  rw [INSBUF_eq] at ht
  obtain ⟨⟨free', hb'⟩, -⟩ := hb.ALLREC s.junk
  obtain ⟨hother, -, hnew⟩ := hb.ALLREC_other s.junk
  have hfits := h.fits.ALLREC s.junk
  have hfull : (s.p.ALLREC s.junk).1 = 0 → Full s.p := ALLREC_zero
  generalize s.p.ALLREC s.junk = w at ht hb' hother hnew hfits hfull
  obtain ⟨new, p⟩ := w
  dsimp only at ht hb' hother hnew hfits hfull
  by_cases hz : new = 0
  · rw [if_pos hz] at ht
    exact Or.inl ⟨ht, hfull hz⟩
  · rw [if_neg hz] at ht hb'
    refine Or.inr ?_
    have hnotin : new ∉ (l₁ ++ l₂).flatten :=
      (List.nodup_cons.mp (List.nodup_append.mp hb'.nodup).2.1).1
    have hfields : ∀ y ∈ (l₁ ++ l₂).flatten, p.link y = s.p.link y ∧ nextOf p y = nextOf s.p y ∧
        prevOf p y = prevOf s.p y ∧ textOf p y = textOf s.p y := by
      intro y hy
      unfold Flat.link nextOf prevOf textOf
      rw [hother y hy]
      exact ⟨rfl, rfl, rfl, rfl⟩
    have hlmem : hl ≠ 0 → hl ∈ (l₁ ++ l₂).flatten := by
      intro hne
      cases hlast : (l₁.map head).getLast? with
      | none => exact absurd (by rw [hp, hlast]; rfl) hne
      | some y =>
        rw [hp, hlast]
        refine h.mem_heads ?_
        rw [List.map_append]
        exact List.mem_append_left _ (List.mem_of_getLast? hlast)
    -- the next line
    obtain ⟨next, hnexteq⟩ : ∃ next, next = if hl = 0 then s.FSTREC else nextOf p hl := ⟨_, rfl⟩
    have hnext : next = (l₂.map head).headD 0 := by
      rw [← h.next_of_prev hp, hnexteq]
      by_cases hh : hl = 0
      · rw [if_pos hh, if_pos hh]
      · rw [if_neg hh, if_neg hh, (hfields hl (hlmem hh)).2.1]
    have hnmem : next ≠ 0 → next ∈ (l₁ ++ l₂).flatten := by
      intro hne
      refine h.mem_heads ?_
      rw [List.map_append, hnext]
      cases hl₂ : l₂.map head with
      | nil => exact absurd (by rw [hnext, hl₂]; rfl) hne
      | cons y l => exact List.mem_append_right _ List.mem_cons_self
    -- the record is linked
    have hlp : (linked s p new hl bc).p = (linkPrev (linkNext p hl new) next new).set new
        ⟨0, next, hl, textOf (linkPrev (linkNext p hl new) next new) new⟩ := by
      rw [hnexteq]
      rfl
    have hlb : (linked s p new hl bc).p.Books free' (new :: (l₁ ++ l₂).flatten) := by
      rw [hlp]
      refine (books_linkPrev (books_linkNext hb' fun hne => ?_) fun hne => ?_).set List.mem_cons_self
      · exact List.mem_cons_of_mem _ (hlmem hne)
      · exact List.mem_cons_of_mem _ (hnmem hne)
    have hlf : Fits (linked s p new hl bc).p := hlp ▸ hfits.linkNext.linkPrev.set
    have hllink : (linked s p new hl bc).p.link new = 0 := by
      rw [hlp]
      exact congrArg Rec.link set_self
    obtain ⟨c, free'', hbooks, hfits', hc, hkeep, hn, hv, hover, htext, heq⟩ :=
      STORE_spec hlb hlf List.mem_cons_self hllink ht
    generalize t.2.NXTREC = nxt, t.2.PRVREC = prv at heq
    generalize t.2.p = q at hbooks hfits' hc hkeep hn hv hover htext heq
    have hq : ∀ y ∈ (l₁ ++ l₂).flatten, q.link y = s.p.link y ∧ textOf q y = textOf s.p y ∧
        nextOf q y = (if y = hl then new else nextOf s.p y) ∧
          prevOf q y = if y = next then new else prevOf s.p y := by
      intro y hy
      have hyn : y ≠ new := fun heq => hnotin (heq ▸ hy)
      have hy0 := (hb.range y (List.mem_append_right _ hy)).1
      have hrec : q.recs y = (linkPrev (linkNext p hl new) next new).recs y := by
        rw [hkeep y (List.mem_cons_of_mem _ hy) hyn, hlp, set_other hyn]
      obtain ⟨h₁, h₂, h₃, h₄⟩ := hfields y hy
      refine ⟨?_, ?_, ?_, ?_⟩
      · exact (congrArg Rec.link hrec).trans (link_linkPrev.trans (link_linkNext.trans h₁))
      · refine (congrArg (fun z => z.rest.text) hrec).trans ?_
        exact text_linkPrev.trans (text_linkNext.trans h₄)
      · refine (congrArg (fun z => z.rest.next) hrec).trans (next_linkPrev.trans ?_)
        rw [next_linkNext hy0, h₂]
      · refine (congrArg (fun z => z.rest.prev) hrec).trans ((prev_linkPrev hy0).trans ?_)
        rw [prev_linkNext, h₃]
    have hqn : nextOf q new = next := by
      rw [hn, hlp]
      exact congrArg (fun z => z.rest.next) set_self
    have hqv : prevOf q new = hl := by
      rw [hv, hlp]
      exact congrArg (fun z => z.rest.prev) set_self
    have hperm : (c ++ new :: (l₁ ++ l₂).flatten).Perm (l₁ ++ (new :: c) :: l₂).flatten := by
      rw [List.flatten_append, List.flatten_append, List.flatten_cons]
      refine List.perm_middle.trans ?_
      rw [← List.cons_append, ← List.append_assoc, ← List.append_assoc]
      exact List.perm_append_comm.append_right _
    refine ⟨new :: c, ?_, fun d hd => ?_, hover, htext, ?_, ?_, ?_⟩
    · rw [heq]
      refine h.insert hp hnext hfits' (hbooks.perm hperm) hc (fun y hy => ?_) hqn hqv rfl ?_ rfl
      · obtain ⟨h₁, -, h₃, h₄⟩ := hq y hy
        exact ⟨h₁, h₃, h₄⟩
      · rw [hnexteq]
        rfl
    · unfold lineText
      refine congrArg _ (List.flatMap_congr fun y hy => ?_)
      exact (hq y (List.mem_flatten.mpr ⟨d, hd, hy⟩)).2.1
    · rw [heq]
      rfl
    · rw [heq]
      rfl
    · rw [heq]
      rfl

/-! ### Deleting a line -/

/-- A line is taken out from between two others. -/
theorem Text.remove (h : Text s (l₁ ++ c :: l₂)) (hp : hl = (l₁.map head).getLast?.getD 0)
    (hnext : next = (l₂.map head).headD 0) {s' : Ed} (hfits : Fits s'.p)
    (hb : s'.p.Books free (l₁ ++ l₂).flatten)
    (hq : ∀ y ∈ (l₁ ++ l₂).flatten, s'.p.link y = s.p.link y ∧
      nextOf s'.p y = (if y = hl then next else nextOf s.p y) ∧
        prevOf s'.p y = if y = next then hl else prevOf s.p y)
    (hfst : s'.FSTREC = if hl = 0 then next else s.FSTREC)
    (hlst : s'.LSTREC = if next = 0 then hl else s.LSTREC) (hlast : s'.LASTLN = s.LASTLN - 1) :
    Text s' (l₁ ++ l₂) := by
  have hmap : (l₁ ++ c :: l₂).map head = l₁.map head ++ head c :: l₂.map head := List.map_append
  have hmap' : (l₁ ++ l₂).map head = l₁.map head ++ l₂.map head := List.map_append
  have hsub : ∀ d ∈ l₁ ++ l₂, d ∈ l₁ ++ c :: l₂ := fun d hd =>
    List.mem_append.mpr ((List.mem_append.mp hd).imp_right (List.mem_cons_of_mem _))
  have hmem : ∀ y ∈ l₁.map head ++ l₂.map head, y ≠ 0 ∧ y ∈ (l₁ ++ l₂).flatten := by
    intro y hy
    obtain ⟨d, hd, rfl⟩ := List.mem_map.mp (hmap' ▸ hy)
    refine ⟨h.ne_zero (List.mem_map_of_mem (hsub d hd)), ?_⟩
    obtain ⟨hne, -⟩ := h.chains d (hsub d hd)
    refine List.mem_flatten.mpr ⟨d, hd, ?_⟩
    cases d with
    | nil => exact absurd rfl hne
    | cons a d => exact List.mem_cons_self
  refine ⟨hfits, ⟨free, hb⟩, fun d hd => ?_, ?_, ?_, ?_⟩
  · obtain ⟨hne, hl⟩ := h.chains d (hsub d hd)
    exact ⟨hne, hl.congr fun y hy => (hq y (List.mem_flatten.mpr ⟨d, hd, hy⟩)).1⟩
  · rw [hmap', hfst]
    have hold := h.next
    rw [hmap] at hold
    have hhead : (if hl = 0 then next else s.FSTREC) = (l₁.map head ++ l₂.map head).headD 0 := by
      by_cases hz : hl = 0
      · obtain rfl := (h.prev_zero hp).mp hz
        exact (if_pos hz).trans hnext
      · have hne : l₁.map head ≠ [] := fun hn =>
          hz ((h.prev_zero hp).mpr (List.map_eq_nil_iff.mp hn))
        rw [if_neg hz, hold.head, headD_eq hne, headD_eq hne]
    rw [hhead]
    refine hold.remove (fun y hy hyl => ?_) fun y hy => ?_
    · rw [(hq y (hmem y hy).2).2.1, if_neg]
      exact fun hyh => hyl ((getLast?_iff (hmem y hy).1).mpr (hyh.trans hp))
    · obtain ⟨hy0, hmem'⟩ := hmem y (List.mem_append_left _ (List.mem_of_getLast? hy))
      rw [(hq y hmem').2.1, if_pos]
      · exact hnext
      · exact ((getLast?_iff hy0).mp hy).trans hp.symm
  · have hold := h.prev
    rw [hmap, List.reverse_append, List.reverse_cons, List.append_assoc, List.singleton_append] at hold
    rw [hmap', List.reverse_append, hlst]
    have hmemr : ∀ y ∈ (l₂.map head).reverse ++ (l₁.map head).reverse,
        y ≠ 0 ∧ y ∈ (l₁ ++ l₂).flatten := by
      intro y hy
      rw [← List.reverse_append] at hy
      exact hmem y (List.mem_reverse.mp hy)
    have hfirst : (l₂.map head).reverse.getLast? = (l₂.map head).head? := List.getLast?_reverse
    have hlp : hl = (l₁.map head).reverse.headD 0 := by
      rw [hp, List.headD_eq_head?_getD, List.head?_reverse]
    have hhead : (if next = 0 then hl else s.LSTREC) =
        ((l₂.map head).reverse ++ (l₁.map head).reverse).headD 0 := by
      by_cases hz : next = 0
      · have hnil : l₂.map head = [] := by
          cases hl₂ : l₂.map head with
          | nil => rfl
          | cons y l =>
            rw [hnext, hl₂] at hz
            refine absurd hz (hmem y (List.mem_append_right _ ?_)).1
            rw [hl₂]
            exact List.mem_cons_self
        rw [if_pos hz, hnil]
        exact hlp
      · have hne : (l₂.map head).reverse ≠ [] := by
          intro hn
          rw [List.reverse_eq_nil_iff] at hn
          rw [hnext, hn] at hz
          exact hz rfl
        rw [if_neg hz, hold.head, headD_eq hne, headD_eq hne]
    rw [hhead]
    refine hold.remove (fun y hy hyl => ?_) fun y hy => ?_
    · rw [(hq y (hmemr y hy).2).2.2, if_neg]
      exact fun hyn => hyl (hfirst.trans ((head?_iff (hmemr y hy).1).mpr (hyn.trans hnext)))
    · rw [hfirst] at hy
      obtain ⟨hy0, hy'⟩ := hmemr y (List.mem_append_left _ (List.mem_reverse.mpr (List.mem_of_head? hy)))
      rw [(hq y hy').2.2, if_pos]
      · exact hlp
      · exact ((head?_iff hy0).mp hy).trans hnext.symm
  · rw [hlast, h.last, List.length_append, List.length_append, List.length_cons]
    omega

/-- The state of `DELBUF`: the records before and behind the line are linked. -/
theorem DELBUF_eq {prev : ℕ} (hn : nextOf s.p hl = next) (hp : prevOf s.p hl = prev) :
    DELBUF s hl bc = { s with
      p := linkPrev (linkNext (s.p.FREREC hl) prev next) next prev
      FSTREC := if prev = 0 then next else s.FSTREC
      LSTREC := if next = 0 then prev else s.LSTREC
      CURREC := if s.CURLN = bc then if next = 0 then prev else next else s.CURREC
      CURLN := if s.CURLN < bc ∨ s.CURLN = bc ∧ next ≠ 0 then s.CURLN else s.CURLN - 1
      LASTLN := s.LASTLN - 1
      NXTREC := next
      PRVREC := prev } := by
  subst hn hp
  unfold DELBUF linkPrev linkNext nextOf prevOf
  dsimp only
  by_cases hp : (s.p.recs hl).rest.prev = 0
  · rw [if_pos hp, if_pos hp, if_pos hp]
    by_cases hn : (s.p.recs hl).rest.next = 0
    · rw [if_pos hn, if_pos hn, if_pos hn, if_pos hn]
    · rw [if_neg hn, if_neg hn, if_neg hn, if_neg hn]
  · rw [if_neg hp, if_neg hp, if_neg hp]
    by_cases hn : (s.p.recs hl).rest.next = 0
    · rw [if_pos hn, if_pos hn, if_pos hn, if_pos hn]
    · rw [if_neg hn, if_neg hn, if_neg hn, if_neg hn]

/-- `DELBUF` takes out the line at `HL`, and changes no other one. -/
theorem DELBUF_spec (h : Text s (l₁ ++ c :: l₂)) {t} (ht : t = DELBUF s (head c) bc) :
    Text t (l₁ ++ l₂) ∧ (∀ d ∈ l₁ ++ l₂, lineText t.p d = lineText s.p d) ∧
      t.NXTREC = (l₂.map head).headD 0 ∧
        t.CURREC = (if s.CURLN = bc then
          if l₂ = [] then (l₁.map head).getLast?.getD 0 else (l₂.map head).headD 0 else s.CURREC) ∧
          t.CURLN = (if s.CURLN < bc ∨ s.CURLN = bc ∧ l₂ ≠ [] then s.CURLN else s.CURLN - 1) ∧
            t.EDREC = s.EDREC := by
  obtain ⟨free, hb⟩ := h.books
  have hmap : (l₁ ++ c :: l₂).map head = l₁.map head ++ head c :: l₂.map head := List.map_append
  obtain ⟨next, hnext⟩ : ∃ next, next = (l₂.map head).headD 0 := ⟨_, rfl⟩
  obtain ⟨prev, hprev⟩ : ∃ prev, prev = (l₁.map head).getLast?.getD 0 := ⟨_, rfl⟩
  have hn : nextOf s.p (head c) = next := by
    have hold := h.next
    rw [hmap] at hold
    rw [hnext]
    exact hold.suffix.2.2.head
  have hv : prevOf s.p (head c) = prev := by
    have hold := h.prev
    rw [hmap, List.reverse_append, List.reverse_cons, List.append_assoc, List.singleton_append] at hold
    rw [hprev, ← List.head?_reverse, ← List.headD_eq_head?_getD]
    exact hold.suffix.2.2.head
  have hzero : next = 0 ↔ l₂ = [] := by
    rw [hnext]
    cases l₂ with
    | nil => exact iff_of_true rfl rfl
    | cons d l₂ =>
      refine iff_of_false ?_ (List.cons_ne_nil _ _)
      refine h.ne_zero (x := head d) (List.mem_map_of_mem ?_)
      exact List.mem_append_right _ (List.mem_cons_of_mem _ List.mem_cons_self)
  have hne : head c ≠ 0 :=
    h.ne_zero (List.mem_map_of_mem (List.mem_append_right _ List.mem_cons_self))
  have hc := (h.chains c (List.mem_append_right _ List.mem_cons_self)).2
  -- the records of the line are released
  have hperm : (l₁ ++ c :: l₂).flatten.Perm (c ++ (l₁ ++ l₂).flatten) := by
    rw [List.flatten_append, List.flatten_cons, List.flatten_append, ← List.append_assoc,
      ← List.append_assoc]
    exact List.perm_append_comm.append_right _
  have hsize : s.p.NBLKS ≤ 2048 := Nat.le_trans h.fits.size h.fits.most
  have hbp := hb.perm hperm
  have hrel := hbp.release hsize hne hc
  have hchain := hbp.chain hsize hc
  have hdis : ∀ y ∈ (l₁ ++ l₂).flatten, y ∉ c := fun y hy hyc =>
    (List.nodup_append.mp (List.nodup_append.mp hbp.nodup).2.1).2.2 y hyc y hy rfl
  have hmem : ∀ y ∈ l₁.map head ++ l₂.map head, y ∈ (l₁ ++ l₂).flatten := by
    intro y hy
    rw [← List.map_append] at hy
    obtain ⟨d, hd, rfl⟩ := List.mem_map.mp hy
    have hd' := List.mem_append.mpr ((List.mem_append.mp hd).imp_right (List.mem_cons_of_mem c))
    have hne := (h.chains d hd').1
    refine List.mem_flatten.mpr ⟨d, hd, ?_⟩
    cases d with
    | nil => exact absurd rfl hne
    | cons a d => exact List.mem_cons_self
  have hpmem : prev ≠ 0 → prev ∈ (l₁ ++ l₂).flatten := fun hp0 =>
    hmem prev (List.mem_append_left _ (List.mem_of_getLast? ((getLast?_iff hp0).mpr hprev)))
  have hnmem : next ≠ 0 → next ∈ (l₁ ++ l₂).flatten := fun hn0 =>
    hmem next (List.mem_append_right _ (List.mem_of_head? ((head?_iff hn0).mpr hnext)))
  rw [DELBUF_eq hn hv] at ht
  obtain ⟨q, hq⟩ : ∃ q, q = linkPrev (linkNext (s.p.FREREC (head c)) prev next) next prev := ⟨_, rfl⟩
  rw [← hq] at ht
  have hfields : ∀ y ∈ (l₁ ++ l₂).flatten, q.link y = s.p.link y ∧ textOf q y = textOf s.p y ∧
      nextOf q y = (if y = prev then next else nextOf s.p y) ∧
        prevOf q y = if y = next then prev else prevOf s.p y := by
    intro y hy
    have hy0 := (hbp.range y (List.mem_append_right _ (List.mem_append_right _ hy))).1
    have hrec := Flat.FREREC_other (p := s.p) hchain (hdis y hy)
    refine ⟨?_, ?_, ?_, ?_⟩
    · rw [hq]
      exact link_linkPrev.trans (link_linkNext.trans (congrArg Rec.link hrec))
    · rw [hq]
      exact text_linkPrev.trans (text_linkNext.trans (congrArg (fun z => z.rest.text) hrec))
    · rw [hq, next_linkPrev, next_linkNext hy0]
      exact congrArg (fun z => if y = prev then next else z.rest.next) hrec
    · rw [hq, prev_linkPrev hy0, prev_linkNext]
      exact congrArg (fun z => if y = next then prev else z.rest.prev) hrec
  have hqb : q.Books (c ++ free) (l₁ ++ l₂).flatten := by
    rw [hq]
    exact books_linkPrev (books_linkNext hrel hpmem) hnmem
  have hqf : Fits q := by
    rw [hq]
    exact h.fits.FREREC.linkNext.linkPrev
  subst ht
  refine ⟨h.remove hprev hnext hqf hqb (fun y hy => ?_) rfl rfl rfl, fun d hd => ?_, hnext, ?_, ?_, rfl⟩
  · obtain ⟨h₁, -, h₃, h₄⟩ := hfields y hy
    exact ⟨h₁, h₃, h₄⟩
  · unfold lineText
    refine congrArg _ (List.flatMap_congr fun y hy => ?_)
    exact (hfields y (List.mem_flatten.mpr ⟨d, hd, hy⟩)).2.1
  · rw [← hprev, ← hnext]
    exact if_congr Iff.rfl (if_congr hzero rfl rfl) rfl
  · exact if_congr (or_congr_right (and_congr_right fun _ => not_congr hzero)) rfl rfl

end RSX280.Ted
