import RSX280.LinesStore

/-!
# The text of a line (`ted/main.mac`, `ted/docs/vmem.txt`)

`STORE` counts the columns of a line in `EDLEN` and stops at column `MAXLEN`. It looks at the column in front of a
character, of a tab or of a whole run of spaces, so that a tab or a run may end behind `MAXLEN`. The byte for a run
has its length modulo 128.

The line is taken apart into items first, and `Inside` says which ones do no harm: `stored_iff` has it that these
lines come back from `EXPAND`, and that no others fit in the edit buffer but some with a run that is too long.
-/

namespace RSX280.Ted

/-! ### Items -/

/-- What `STORE` takes from a line at once. -/
inductive Item
  | spaces (c : ℕ)
  | tab
  | char (x : UInt8)

namespace Item

/-- The bytes that are stored. -/
def code : Item → List UInt8
  | spaces c => run c
  | tab => [TAB]
  | char x => [x]

/-- The text from column `n` on. Before a tab there are soft spaces up to the tab stop. -/
def text (n : ℕ) : Item → List UInt8
  | spaces c => List.replicate c 0x20
  | tab => List.replicate (7 - n % 8) SSPC ++ [TAB]
  | char x => [x]

/-- The column behind. -/
def stop (n : ℕ) (i : Item) : ℕ := n + (i.text n).length

/-- The count of spaces has seven bits. -/
def Short : Item → Prop
  | spaces c => c ≤ 127
  | _ => True

/-- The items of a line. -/
def Ok : Item → Prop
  | spaces c => c ≠ 0
  | tab => True
  | char x => x < 0x80 ∧ x ≠ TAB

end Item

/-- A run of spaces, if there is one. -/
def spaces (c : ℕ) : List Item := if c = 0 then [] else [.spaces c]

/-- The items of a line, up to its end, behind `c` spaces. -/
def items : ℕ → List UInt8 → List Item
  | c, [] => spaces c
  | c, x :: l =>
    if c ≠ 0 ∧ x = 0x20 then items (c + 1) l
    else
      let a := x &&& 0x7F
      spaces c ++
        if x = SSPC ∨ a = 0x7F ∨ a = 0x0C then items 0 l
        else if a = 0x20 then items 1 l
        else if 0x20 < a then .char a :: items 0 l
        else if a = 0 ∨ a = CR then items 0 l
        else if a = TAB then .tab :: items 0 l
        else if a = LF ∨ a = 0x0B then []
        else .char 0x3F :: items 0 l

/-- The text of the items from column `n` on. -/
def text : ℕ → List Item → List UInt8
  | _, [] => []
  | n, i :: is => i.text n ++ text (i.stop n) is

/-- Each tab and each run of spaces that begins before column `MAXLEN` ends there at the latest, and such a run has
127 spaces at most. -/
def Inside : ℕ → List Item → Prop
  | _, [] => True
  | n, i :: is => n < MAXLEN → i.stop n ≤ MAXLEN ∧ i.Short ∧ Inside (i.stop n) is

/-- A run of spaces that begins before column `MAXLEN` is longer. -/
def Long : ℕ → List Item → Prop
  | _, [] => False
  | n, i :: is => n < MAXLEN ∧ (¬i.Short ∨ Long (i.stop n) is)

/-! ### Lines -/

/-- A printable character, a space or a tab. -/
def Plain (x : UInt8) : Prop := x = TAB ∨ 0x20 ≤ x ∧ x < 0x7F

/-- The line from column `n` on, with the soft spaces. -/
def shown : ℕ → List UInt8 → List UInt8
  | _, [] => []
  | n, x :: l =>
    if x = TAB then List.replicate (7 - n % 8) SSPC ++ TAB :: shown (n + (7 - n % 8) + 1) l
    else x :: shown (n + 1) l

/-- What `EXPAND` makes of the bytes that `STORE` makes of the line, without the CR and LF. -/
def stored (l : List UInt8) : List UInt8 := decode 0 (encode 0 0 l)

/-- A line of printable characters, spaces and tabs comes back, and no line is longer than the edit buffer. -/
structure Kept (l buf : List UInt8) : Prop where
  same : (∀ x ∈ l, Plain x) → (shown 0 l).length ≤ MAXLEN → buf = shown 0 l ++ [CR, LF]
  fits : buf.length ≤ MAXLEN + 2

section

variable {l e : List UInt8} {is : List Item} {i : Item} {x : UInt8} {c k n : ℕ}

/-! ### Bytes -/

theorem or_seven (h : n < 256) : n ||| 7 = n + (7 - n % 8) := by
  have all : ∀ n < 256, n ||| 7 = n + (7 - n % 8) := by decide +kernel
  exact all n h

theorem run_toNat : (UInt8.ofNat (c % 256) ||| 0x80).toNat = 128 + c % 128 := by
  have all : ∀ k < 256, (UInt8.ofNat k ||| 0x80).toNat = 128 + k % 128 := by decide +kernel
  rw [all (c % 256) (Nat.mod_lt c (by decide))]
  omega

/-- The spaces that `EXPAND` makes of a run. -/
def width (c : ℕ) : ℕ := if c % 128 = 0 then 256 else c % 128

theorem decode_run (hc : c ≠ 0) :
    decode k (run c ++ e) = List.replicate (width c) 0x20 ++ decode ((k + width c) % 256) e := by
  have toNat : (UInt8.ofNat (c % 256) ||| 0x80).toNat = 128 + c % 128 := run_toNat
  rw [run, if_neg hc, List.singleton_append]
  generalize UInt8.ofNat (c % 256) ||| 0x80 = x at toNat
  have high : 0x80 ≤ x := by
    rw [UInt8.le_iff_toNat_le, toNat]
    exact Nat.le_add_right 128 _
  have zero : x = 0x80 ↔ c % 128 = 0 := by
    rw [← UInt8.toNat_inj, toNat]
    change 128 + c % 128 = 128 ↔ _
    omega
  have count : (if x = 0x80 then 256 else x.toNat - 128) = width c := by
    rw [toNat, width]
    exact if_congr zero rfl (Nat.add_sub_cancel_left ..)
  rw [decode, if_pos high]
  dsimp only
  rw [count]

theorem width_of_short (hc : c ≠ 0) (h : c ≤ 127) : width c = c := by
  rw [width, Nat.mod_eq_of_lt (Nat.lt_succ_of_le h), if_neg hc]

/-- An item that comes back. -/
theorem decode_code (hi : i.Ok) (hs : i.Short) (hk : k < 256) (hn : k % 8 = n % 8) :
    decode k (i.code ++ e) = i.text n ++ decode ((k + (i.text n).length) % 256) e := by
  cases i with
  | spaces c =>
    have same : width c = c := width_of_short hi hs
    change decode k (run c ++ e) = List.replicate c 0x20 ++ _
    rw [decode_run hi, same, Item.text, List.length_replicate]
  | tab =>
    have soft : (k ||| 7) - k = 7 - n % 8 := by
      rw [or_seven hk, Nat.add_sub_cancel_left, hn]
    change decode k (TAB :: e) = (List.replicate (7 - n % 8) SSPC ++ [TAB]) ++ _
    rw [decode, if_neg (by decide), if_pos rfl]
    dsimp only
    rw [soft, Item.text, List.append_assoc, List.length_append, List.length_replicate, List.length_singleton,
      List.singleton_append, Nat.add_assoc]
  | char x =>
    change decode k (x :: e) = x :: decode ((k + 1) % 256) e
    rw [decode, if_neg (UInt8.not_le.mpr hi.1), if_neg hi.2]

/-! ### What `STORE` does with the items -/

/-- `EDLEN` behind an item. -/
def Item.next (n : ℕ) : Item → ℕ
  | .spaces c => (n + c) % 256
  | .tab => ((n ||| 7) + 1) % 256
  | .char _ => (n + 1) % 256

/-- The bytes that are stored for the items. -/
def bytes : ℕ → List Item → List UInt8
  | _, [] => []
  | n, i :: is => if MAXLEN ≤ n then [] else i.code ++ bytes (i.next n) is

theorem next_eq (hn : n < 256) : i.next n = i.stop n % 256 := by
  cases i with
  | spaces c => rw [Item.next, Item.stop, Item.text, List.length_replicate]
  | tab =>
    rw [Item.next, Item.stop, Item.text, or_seven hn, List.length_append, List.length_replicate, List.length_singleton,
      Nat.add_assoc]
  | char x => rfl

theorem bytes_full (h : MAXLEN ≤ n) : bytes n is = [] := by
  cases is with
  | nil => rfl
  | cons i is => rw [bytes, if_pos h]

theorem bytes_spaces (hc : c ≠ 0 → n < MAXLEN) (hn : n < 256) :
    bytes n (spaces c ++ is) = run c ++ bytes ((n + c) % 256) is := by
  by_cases zero : c = 0
  · rw [zero, Nat.add_zero, Nat.mod_eq_of_lt hn]
    rfl
  · rw [spaces, if_neg zero, List.singleton_append, bytes, if_neg (Nat.not_le_of_lt (hc zero))]
    rfl

/-- `STORE` takes the line item by item. -/
theorem encode_eq (hc : c ≠ 0 → n < MAXLEN) (hn : n < 256) : encode n c l = bytes n (items c l) := by
  induction l generalizing n c with
  | nil =>
    have line : bytes n (spaces c ++ []) = run c ++ [] := bytes_spaces hc hn
    rw [encode, items, ← List.append_nil (spaces c), line, List.append_nil]
  | cons x l ih =>
    rw [encode, items]
    split
    · next more => exact ih (fun _ => hc more.1) hn
    · dsimp only
      rw [bytes_spaces hc hn]
      have small : (n + c) % 256 < 256 := Nat.mod_lt _ (by decide)
      generalize (n + c) % 256 = m at small
      have next : ∀ k, k % 256 < 256 := fun k => Nat.mod_lt k (by decide)
      have rest : ∀ k < 256, encode k 0 l = bytes k (items 0 l) := fun k hk => ih (fun no => absurd rfl no) hk
      refine congrArg (run c ++ ·) ?_
      by_cases full : MAXLEN ≤ m
      · rw [if_pos full, bytes_full full]
      · have one : encode m 1 l = bytes m (items 1 l) := ih (fun _ => Nat.lt_of_not_le full) small
        rw [if_neg full]
        split_ifs
        · exact rest m small
        · exact one
        · rw [bytes, if_neg full, rest _ (next _)]
          rfl
        · exact rest m small
        · rw [bytes, if_neg full, rest _ (next _)]
          rfl
        · rfl
        · rw [bytes, if_neg full, rest _ (next _)]
          rfl

theorem spaces_ok : ∀ i ∈ spaces c, i.Ok := by
  rw [spaces]
  split
  · exact List.forall_mem_nil _
  · next pos => exact List.forall_mem_singleton.mpr pos

theorem items_ok : ∀ i ∈ items c l, i.Ok := by
  induction l generalizing c with
  | nil => exact spaces_ok
  | cons x l ih =>
    rw [items]
    split
    · exact ih
    · dsimp only
      have low : x &&& 0x7F < 0x80 := by
        rw [UInt8.lt_iff_toNat_lt, UInt8.toNat_and]
        exact Nat.lt_succ_of_le Nat.and_le_right
      generalize x &&& 0x7F = a at low
      refine List.forall_mem_append.mpr ⟨spaces_ok, ?_⟩
      split_ifs with h₁ h₂ h₃ h₄ h₅
      · exact ih
      · exact ih
      · refine List.forall_mem_cons.mpr ⟨⟨low, ?_⟩, ih⟩
        rintro rfl
        exact absurd h₃ (by decide)
      · exact ih
      · exact List.forall_mem_cons.mpr ⟨trivial, ih⟩
      · exact List.forall_mem_nil _
      · exact List.forall_mem_cons.mpr ⟨⟨by decide, by decide⟩, ih⟩

/-! ### What comes back -/

theorem stop_le (h : n + (text n (i :: is)).length ≤ MAXLEN) :
    i.stop n ≤ MAXLEN ∧ i.stop n + (text (i.stop n) is).length ≤ MAXLEN := by
  rw [text, List.length_append, ← Nat.add_assoc] at h
  exact ⟨(Nat.le_add_right ..).trans h, h⟩

/-- The items behind column `MAXLEN` are none. -/
theorem text_full (h : n + (text n is).length ≤ MAXLEN) (full : MAXLEN ≤ n) : text n is = [] :=
  List.eq_nil_of_length_eq_zero (by omega)

/-- Items that are inside come back, also if the line begins some tab stops before. -/
theorem decode_bytes (ok : ∀ i ∈ is, i.Ok) (h : Inside n is) (hn : n + (text n is).length ≤ MAXLEN) (hk : k < 256)
    (same : k % 8 = n % 8) : decode k (bytes n is) = text n is := by
  induction is generalizing n k with
  | nil => rfl
  | cons i is ih =>
    by_cases full : MAXLEN ≤ n
    · rw [bytes_full full, text_full hn full]
      rfl
    · obtain ⟨-, short, rest⟩ := h (Nat.lt_of_not_le full)
      obtain ⟨first, oks⟩ := List.forall_mem_cons.mp ok
      obtain ⟨stop, hn⟩ := stop_le hn
      have n_lt : n < 256 := (Nat.lt_of_not_le full).trans (by decide)
      have next : i.next n = i.stop n := (next_eq n_lt).trans (Nat.mod_eq_of_lt (Nat.lt_of_le_of_lt stop (by decide)))
      have stop_eq : i.stop n = n + (i.text n).length := rfl
      rw [bytes, if_neg full, next, decode_code first short hk same, text]
      exact congrArg (i.text n ++ ·) (ih oks rest hn (Nat.mod_lt _ (by decide)) (by omega))

/-- There is no room for a run that is too long. -/
theorem inside_of_narrow (h : (text n is).length ≤ 127) (hn : n + (text n is).length ≤ MAXLEN) : Inside n is := by
  induction is generalizing n with
  | nil => trivial
  | cons i is ih =>
    intro _
    obtain ⟨stop, hn⟩ := stop_le hn
    rw [text, List.length_append] at h
    refine ⟨stop, ?_, ih (by omega) hn⟩
    cases i with
    | spaces c =>
      rw [Item.text, List.length_replicate] at h
      exact (Nat.le_add_right ..).trans h
    | tab => trivial
    | char x => trivial

/-- Items with a run that is too long come back with another length. -/
theorem length_decode_ne (ok : ∀ i ∈ is, i.Ok) (h : ¬Inside n is) (hn : n + (text n is).length ≤ MAXLEN) :
    (decode n (bytes n is)).length ≠ (text n is).length := by
  induction is generalizing n with
  | nil => exact absurd trivial h
  | cons i is ih =>
    obtain ⟨small, bad⟩ := Classical.not_imp.mp h
    obtain ⟨first, oks⟩ := List.forall_mem_cons.mp ok
    obtain ⟨stop, rest⟩ := stop_le hn
    have n_lt : n < 256 := small.trans (by decide)
    have next : i.next n = i.stop n := (next_eq n_lt).trans (Nat.mod_eq_of_lt (Nat.lt_of_le_of_lt stop (by decide)))
    rw [bytes, if_neg (Nat.not_le_of_lt small), next, text, List.length_append]
    by_cases short : i.Short
    · have inner : ¬Inside (i.stop n) is := fun inside => bad ⟨stop, short, inside⟩
      have stop_mod : (n + (i.text n).length) % 256 = i.stop n := Nat.mod_eq_of_lt (Nat.lt_of_le_of_lt stop (by decide))
      rw [decode_code first short n_lt rfl, stop_mod, List.length_append]
      exact fun eq => ih oks inner rest (Nat.add_left_cancel eq)
    · cases i with
      | spaces c =>
        have long : 127 < c := Nat.lt_of_not_le short
        have stop_eq : Item.stop n (.spaces c) = n + c := congrArg (n + ·) (List.length_replicate ..)
        have narrow : (text (n + c) is).length ≤ 127 := by
          rw [stop_eq] at rest
          have max_eq : MAXLEN = 162 := rfl
          omega
        have max_eq : MAXLEN = 162 := rfl
        have width_eq : width c = if c % 128 = 0 then 256 else c % 128 := rfl
        have aligned : (n + width c) % 256 % 8 = (n + c) % 8 := by
          split at width_eq <;> omega
        rw [stop_eq] at rest ⊢
        change (decode n (run c ++ _)).length ≠ _
        rw [decode_run first, List.length_append, decode_bytes oks (inside_of_narrow narrow rest) rest (Nat.mod_lt _ (by decide)) aligned,
          Item.text, List.length_replicate, List.length_replicate]
        split at width_eq <;> omega
      | tab => exact absurd trivial short
      | char x => exact absurd trivial short

theorem length_decode_le (ok : ∀ i ∈ is, i.Ok) (h : Inside n is) (hn : n ≤ MAXLEN) :
    n + (decode n (bytes n is)).length ≤ MAXLEN := by
  induction is generalizing n with
  | nil => exact hn
  | cons i is ih =>
    by_cases full : MAXLEN ≤ n
    · rw [bytes_full full]
      exact hn
    · obtain ⟨stop, short, rest⟩ := h (Nat.lt_of_not_le full)
      obtain ⟨first, oks⟩ := List.forall_mem_cons.mp ok
      have n_lt : n < 256 := (Nat.lt_of_not_le full).trans (by decide)
      have stop_lt : i.stop n < 256 := Nat.lt_of_le_of_lt stop (by decide)
      have stop_mod : (n + (i.text n).length) % 256 = i.stop n := Nat.mod_eq_of_lt stop_lt
      rw [bytes, if_neg full, next_eq n_lt, Nat.mod_eq_of_lt stop_lt, decode_code first short n_lt rfl, stop_mod, List.length_append,
        ← Nat.add_assoc]
      exact ih oks rest stop

/-- Where no run is too long, items that are not inside do not fit. -/
theorem inside_or_long (ok : ∀ i ∈ is, i.Ok) (h : n + (decode n (bytes n is)).length ≤ MAXLEN) :
    Inside n is ∨ Long n is := by
  induction is generalizing n with
  | nil => exact Or.inl trivial
  | cons i is ih =>
    by_cases full : MAXLEN ≤ n
    · exact Or.inl fun no => absurd full (Nat.not_le_of_lt no)
    · have small : n < MAXLEN := Nat.lt_of_not_le full
      obtain ⟨first, oks⟩ := List.forall_mem_cons.mp ok
      by_cases short : i.Short
      · have n_lt : n < 256 := small.trans (by decide)
        rw [bytes, if_neg full, next_eq n_lt, decode_code first short n_lt rfl, List.length_append, ← Nat.add_assoc] at h
        have stop : i.stop n ≤ MAXLEN := (Nat.le_add_right ..).trans h
        have stop_lt : i.stop n < 256 := Nat.lt_of_le_of_lt stop (by decide)
        have stop_mod : (n + (i.text n).length) % 256 = i.stop n := Nat.mod_eq_of_lt stop_lt
        rw [Nat.mod_eq_of_lt stop_lt, stop_mod] at h
        exact (ih oks h).imp (fun inside _ => ⟨stop, short, inside⟩) fun long => ⟨small, Or.inr long⟩
      · exact Or.inr ⟨small, Or.inl short⟩

/-! ### Lines -/

theorem text_spaces : text n (spaces c ++ is) = List.replicate c 0x20 ++ text (n + c) is := by
  by_cases zero : c = 0
  · rw [zero]
    rfl
  · have stop : Item.stop n (.spaces c) = n + c := congrArg (n + ·) (List.length_replicate ..)
    rw [spaces, if_neg zero, List.singleton_append, text, stop]
    rfl

/-- A character that is not a space or a tab is stored as it is. -/
theorem Plain.cases (h : Plain x) : x = TAB ∨ x = 0x20 ∨ 0x20 < x ∧ x < 0x7F ∧ x &&& 0x7F = x := by
  rcases h with tab | ⟨low, high⟩
  · exact Or.inl tab
  · refine Or.inr ((UInt8.le_iff_lt_or_eq.mp low).symm.imp Eq.symm fun lt => ⟨lt, high, ?_⟩)
    have small : x.toNat < 127 := UInt8.lt_iff_toNat_lt.mp high
    rw [← UInt8.toNat_inj, UInt8.toNat_and]
    exact (Nat.and_two_pow_sub_one_eq_mod x.toNat 7).trans (Nat.mod_eq_of_lt (small.trans (by decide)))

/-- The items of a line have its text. -/
theorem text_items (hl : ∀ x ∈ l, Plain x) : text n (items c l) = List.replicate c 0x20 ++ shown (n + c) l := by
  induction l generalizing n c with
  | nil =>
    have line : text n (spaces c ++ []) = List.replicate c 0x20 ++ [] := text_spaces
    rw [items, ← List.append_nil (spaces c), line]
    rfl
  | cons x l ih =>
    obtain ⟨plain, rest⟩ := List.forall_mem_cons.mp hl
    rw [items]
    split
    · next more =>
      obtain ⟨-, rfl⟩ := more
      rw [ih rest, shown, if_neg (by decide), List.replicate_succ', List.append_assoc]
      rfl
    · next other =>
      dsimp only
      rw [text_spaces]
      refine congrArg (List.replicate c 0x20 ++ ·) ?_
      rcases plain.cases with rfl | rfl | ⟨low, high, mask⟩
      · have stop : Item.stop (n + c) .tab = n + c + (7 - (n + c) % 8) + 1 := by
          rw [Item.stop, Item.text, List.length_append, List.length_replicate]
          rfl
        rw [if_neg (by decide), if_neg (by decide), if_neg (by decide), if_neg (by decide), if_pos (by decide), text, stop, ih rest,
          shown, if_pos rfl, Item.text, List.append_assoc]
        rfl
      · rw [if_neg (by decide), if_pos (by decide), ih rest, shown, if_neg (by decide)]
        rfl
      · have ne : x ≠ SSPC ∧ x ≠ 0x7F ∧ x ≠ 0x0C ∧ x ≠ 0x20 ∧ x ≠ TAB := by
          refine ⟨?_, ?_, ?_, ?_, ?_⟩ <;> (rintro rfl; revert low high; decide)
        obtain ⟨soft, del, page, space, tab⟩ := ne
        have ignored : ¬(x = SSPC ∨ x = 0x7F ∨ x = 0x0C) := by
          rintro (no | no | no)
          · exact soft no
          · exact del no
          · exact page no
        rw [mask, if_neg ignored, if_neg space, if_pos low, text, ih rest, shown, if_neg tab]
        rfl

/-- A line that is inside is kept, and the others are not, but some with a run of spaces that is too long. -/
theorem kept_iff {buf : List UInt8} (hb : buf = stored l ++ [CR, LF]) : (Inside 0 (items 0 l) → Kept l buf) ∧
    (Kept l buf → Inside 0 (items 0 l) ∨
      Long 0 (items 0 l) ∧ ¬((∀ x ∈ l, Plain x) ∧ (shown 0 l).length ≤ MAXLEN)) := by
  have code : encode 0 0 l = bytes 0 (items 0 l) := encode_eq (fun no => absurd rfl no) (by decide)
  have same : (∀ x ∈ l, Plain x) → text 0 (items 0 l) = shown 0 l := fun plain => text_items plain
  have stored_eq : stored l = decode 0 (bytes 0 (items 0 l)) := congrArg (decode 0) code
  have length_eq : buf.length = (stored l).length + 2 := by
    rw [hb]
    exact List.length_append
  constructor
  · intro inside
    refine ⟨fun plain fits => ?_, ?_⟩
    · rw [hb, stored_eq, ← same plain]
      refine congrArg (· ++ [CR, LF]) (decode_bytes items_ok inside ?_ (by decide) rfl)
      rwa [same plain, Nat.zero_add]
    · rw [length_eq, stored_eq, ← Nat.zero_add (List.length _)]
      exact Nat.add_le_add_right (length_decode_le items_ok inside (Nat.zero_le _)) 2
  · intro kept
    have fits : 0 + (decode 0 (bytes 0 (items 0 l))).length ≤ MAXLEN := by
      have fits := kept.fits
      rw [length_eq] at fits
      rw [Nat.zero_add, ← stored_eq]
      exact Nat.le_of_add_le_add_right fits
    by_cases inside : Inside 0 (items 0 l)
    · exact Or.inl inside
    · refine Or.inr ⟨(inside_or_long items_ok fits).resolve_left inside, fun narrow => ?_⟩
      obtain ⟨plain, narrow⟩ := narrow
      have width : 0 + (text 0 (items 0 l)).length ≤ MAXLEN := by
        rwa [same plain, Nat.zero_add]
      have back : stored l = shown 0 l := List.append_cancel_right (hb.symm.trans (kept.same plain narrow))
      have ne := length_decode_ne items_ok inside width
      rw [← stored_eq, back, same plain] at ne
      exact ne rfl

end

/-- A line is stored into the record of another one, with the records that its bytes need, and the other lines are as
they were. It is expanded to what it was exactly if it is inside, but for some lines with a run of spaces that is too
long. -/
theorem stored_iff (s : Ed) (l₁ l₂ : List (List ℕ)) (c : List ℕ) (l : List UInt8) (h : Text s (l₁ ++ c :: l₂)) :
    (∃ c', head c' = head c ∧ Text (STORE s (head c) l).2 (l₁ ++ c' :: l₂) ∧
      ((STORE s (head c) l).1 = false → c'.length = 1 + conts 10 (encode 0 0 l).length)) ∧
    (∀ d ∈ l₁ ++ l₂, (EXPAND (STORE s (head c) l).2 (head d)).1 = (EXPAND s (head d)).1) ∧
    ((STORE s (head c) l).1 = true → Full (STORE s (head c) l).2.p) ∧
    ((STORE s (head c) l).1 = false →
      (Inside 0 (items 0 l) → Kept l (EXPAND (STORE s (head c) l).2 (head c)).1) ∧
      (Kept l (EXPAND (STORE s (head c) l).2 (head c)).1 → Inside 0 (items 0 l) ∨
        Long 0 (items 0 l) ∧ ¬((∀ x ∈ l, Plain x) ∧ (shown 0 l).length ≤ MAXLEN))) := by
  obtain ⟨c', hhead, htext, hother, hfull, hline⟩ := STORE_line (u := STORE s (head c) l) h rfl
  refine ⟨⟨c', hhead, htext, fun ok => (hline ok).2⟩, fun d hd => ?_, hfull, fun ok => kept_iff ?_⟩
  · have mem : ∀ c, d ∈ l₁ ++ c :: l₂ := fun c =>
      List.mem_append.mpr ((List.mem_append.mp hd).imp_right (List.mem_cons_of_mem c))
    have same : chars (STORE s (head c) l).2.p (head d) = chars s.p (head d) := by
      rw [htext.chars (mem c'), h.chars (mem c), hother d hd]
    exact congrArg (fun e => decode 0 e ++ [CR, LF]) same
  · have line : chars (STORE s (head c) l).2.p (head c) = encode 0 0 l := by
      have at_line := htext.chars (List.mem_append_right _ List.mem_cons_self)
      rw [hhead] at at_line
      rw [at_line, (hline ok).1]
    exact congrArg (fun e => decode 0 e ++ [CR, LF]) line

/-- An editor with one line, in record 1. -/
def oneLine : Ed where
  p := ⟨fun r => ⟨if 2 ≤ r ∧ r < 31 then r + 1 else 0, ⟨0, 0, []⟩⟩, 2, 30, 1, 2048⟩
  junk _ := ⟨0, 0, []⟩
  FSTREC := 1
  CURREC := 1
  CURLN := 1
  LSTREC := 1
  LASTLN := 1
  EDREC := 1
  NXTREC := 0
  PRVREC := 0

theorem oneLine_text : Text oneLine ([] ++ [1] :: []) where
  fits := ⟨by decide, by decide⟩
  books := by
    refine ⟨List.range' 2 30, ⟨Numbered.linked_range' (by decide) (by decide) (by decide), by decide, by decide, by decide⟩⟩
  chains c hc := by
    obtain rfl := List.mem_singleton.mp hc
    exact ⟨by decide, rfl, by decide, rfl⟩
  next := ⟨rfl, by decide, rfl⟩
  prev := ⟨rfl, by decide, rfl⟩
  last := rfl

/-- A tab goes to column 8. -/
theorem stored_iff_tab : (EXPAND (STORE oneLine 1 [0x61, TAB, 0x62]).2 1).1 =
    0x61 :: List.replicate 6 SSPC ++ [TAB, 0x62, CR, LF] := by
  obtain ⟨-, -, -, kept⟩ := stored_iff oneLine [] [] [1] [0x61, TAB, 0x62] oneLine_text
  refine ((kept (by decide)).1 ?_).same ?_ (by decide)
  · change Inside 0 [.char 0x61, .tab, .char 0x62]
    exact fun _ => ⟨by decide, trivial, fun _ => ⟨by decide, trivial, fun _ => ⟨by decide, trivial, trivial⟩⟩⟩
  · refine List.forall_mem_cons.mpr ⟨?_, List.forall_mem_cons.mpr ⟨Or.inl rfl, List.forall_mem_singleton.mpr ?_⟩⟩
    · exact Or.inr (by decide)
    · exact Or.inr (by decide)

/-- 128 spaces become 256. -/
theorem spaces_double : Text oneLine ([] ++ [1] :: []) ∧ (STORE oneLine 1 (List.replicate 128 0x20)).1 = false ∧
    (shown 0 (List.replicate 128 0x20)).length ≤ MAXLEN ∧
    (EXPAND (STORE oneLine 1 (List.replicate 128 0x20)).2 1).1 = List.replicate 256 0x20 ++ [CR, LF] := by
  exact ⟨oneLine_text, by decide, by decide +kernel, by decide +kernel⟩

end RSX280.Ted
