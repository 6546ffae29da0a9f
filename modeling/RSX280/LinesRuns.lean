import RSX280.LinesOps

/-!
# The commands of the text editor edit a list

The current line is kept with its record by every insertion and deletion, so that a line is found from
any of the three known ones. Each command changes the list of lines at the places it names.
-/

namespace RSX280.Ted

open Numbered

variable {s t : Ed} {ls l₁ l₂ : List (List ℕ)} {c : List ℕ} {hl bc n r : ℕ} {de : List UInt8}

/-! ### The current line -/

/-- There is no current line, or it is one of the text. -/
def Cur (s : Ed) (ls : List (List ℕ)) : Prop :=
  s.CURLN = 0 ∨ 0 < s.CURLN ∧ (ls.map head)[s.CURLN - 1]? = some s.CURREC

/-- The record of a line, or zero for line 0. -/
def recOf (ls : List (List ℕ)) (n : ℕ) : ℕ := ((ls.take n).map head).getLast?.getD 0

theorem recOf_eq (hn : 0 < n) (hle : n ≤ ls.length) : (ls.map head)[n - 1]? = some (recOf ls n) := by
  have hlen : ((ls.take n).map head).length = n := by
    rw [List.length_map, List.length_take, Nat.min_eq_left hle]
  have hlt : n - 1 < ((ls.take n).map head).length := by omega
  unfold recOf
  rw [List.getLast?_eq_getElem?, hlen, List.getElem?_eq_getElem hlt, Option.getD_some,
    ← List.getElem?_eq_getElem hlt, List.map_take, List.getElem?_take_of_lt (by omega)]

theorem Cur.le (h : Cur s ls) : s.CURLN ≤ ls.length := by
  rcases h with hz | ⟨hpos, hr⟩
  · omega
  · have := (List.getElem?_eq_some_iff.mp hr).1
    rw [List.length_map] at this
    omega

/-- A line is put behind the current one or before it. -/
theorem Cur.insert (h : Cur s (l₁ ++ l₂)) (hrec : t.CURREC = s.CURREC)
    (hln : t.CURLN = if s.CURLN ≤ bc then s.CURLN else s.CURLN + 1)
    (hbc : s.CURLN ≤ bc ↔ s.CURLN ≤ l₁.length) : Cur t (l₁ ++ c :: l₂) := by
  have hlen : (l₁.map head).length = l₁.length := List.length_map _
  unfold Cur at h ⊢
  rw [List.map_append] at h ⊢
  rw [List.map_cons, hrec, hln]
  by_cases hle : s.CURLN ≤ l₁.length
  · rw [if_pos (hbc.mpr hle)]
    refine h.imp_right fun ⟨hpos, hr⟩ => ⟨hpos, ?_⟩
    rw [List.getElem?_append_left (by omega)] at hr ⊢
    exact hr
  · rw [if_neg (fun hn => hle (hbc.mp hn))]
    obtain ⟨hpos, hr⟩ := h.resolve_left (by omega)
    refine Or.inr ⟨Nat.succ_pos _, ?_⟩
    rw [List.getElem?_append_right (by omega)] at hr ⊢
    rw [hlen] at hr ⊢
    rw [show s.CURLN + 1 - 1 - l₁.length = s.CURLN - 1 - l₁.length + 1 by omega]
    exact hr

/-- A line is taken out. If it is the current one, the next one is it, or else the one before. -/
theorem Cur.remove (h : Cur s (l₁ ++ c :: l₂))
    (hrec : t.CURREC = (if s.CURLN = bc then
      if l₂ = [] then (l₁.map head).getLast?.getD 0 else (l₂.map head).headD 0 else s.CURREC))
    (hln : t.CURLN = if s.CURLN < bc ∨ s.CURLN = bc ∧ l₂ ≠ [] then s.CURLN else s.CURLN - 1)
    (hlt : s.CURLN < bc ↔ s.CURLN < l₁.length + 1) (heq : s.CURLN = bc ↔ s.CURLN = l₁.length + 1) :
    Cur t (l₁ ++ l₂) := by
  have hlen : (l₁.map head).length = l₁.length := List.length_map _
  unfold Cur at h ⊢
  rw [List.map_append] at h ⊢
  rw [List.map_cons] at h
  rcases Nat.lt_trichotomy s.CURLN (l₁.length + 1) with hc | hc | hc
  · rw [if_neg (fun hn => absurd (heq.mp hn) (by omega))] at hrec
    rw [if_pos (Or.inl (hlt.mpr hc))] at hln
    rw [hrec, hln]
    refine h.imp_right fun ⟨hpos, hr⟩ => ⟨hpos, ?_⟩
    rw [List.getElem?_append_left (by omega)] at hr ⊢
    exact hr
  · have hbc := heq.mpr hc
    rw [if_pos hbc] at hrec
    cases l₂ with
    | nil =>
      rw [if_pos rfl] at hrec
      have hno : ¬(s.CURLN < bc ∨ s.CURLN = bc ∧ ([] : List (List ℕ)) ≠ []) := by
        rintro (hn | ⟨-, hn⟩)
        · exact absurd (hlt.mp hn) (by omega)
        · exact hn rfl
      rw [if_neg hno] at hln
      rw [hrec, hln, hc, Nat.add_sub_cancel, List.map_nil, List.append_nil]
      cases hl : (l₁.map head).getLast? with
      | none =>
        refine Or.inl ?_
        rw [← hlen, List.getLast?_eq_none_iff.mp hl]
        rfl
      | some y =>
        refine Or.inr ⟨?_, ?_⟩
        · rw [← hlen]
          exact List.length_pos_of_mem (List.mem_of_getLast? hl)
        · rw [List.getLast?_eq_getElem?, hlen] at hl
          exact hl
    | cons d l₂ =>
      rw [if_neg (List.cons_ne_nil _ _)] at hrec
      rw [if_pos (Or.inr ⟨hbc, List.cons_ne_nil _ _⟩)] at hln
      rw [hrec, hln, hc]
      refine Or.inr ⟨Nat.succ_pos _, ?_⟩
      rw [List.getElem?_append_right (by omega), hlen, Nat.add_sub_cancel, Nat.sub_self]
      rfl
  · rw [if_neg (fun hn => absurd (heq.mp hn) (by omega))] at hrec
    have hno : ¬(s.CURLN < bc ∨ s.CURLN = bc ∧ l₂ ≠ []) := by
      rintro (hn | ⟨hn, -⟩)
      · exact absurd (hlt.mp hn) (by omega)
      · exact absurd (heq.mp hn) (by omega)
    rw [if_neg hno] at hln
    rw [hrec, hln]
    obtain ⟨hpos, hr⟩ := h.resolve_left (by omega)
    refine Or.inr ⟨by omega, ?_⟩
    rw [List.getElem?_append_right (by omega), hlen] at hr ⊢
    rw [show s.CURLN - 1 - l₁.length = s.CURLN - 1 - 1 - l₁.length + 1 by omega] at hr
    exact hr

/-! ### Finding a line -/

/-- Links of records of the file are followed. -/
theorem walk_spec {p : Flat Body} {link : Body → ℕ} {l : List ℕ} {i : ℕ}
    (h : Linked (fun r => link (p.recs r).rest) n l) (hl : ∀ x ∈ l, x / 32 < p.NBLKS)
    (hi : l[i]? = some r) : walk p link i n = some r := by
  induction i generalizing n l with
  | zero =>
    cases l with
    | nil => cases hi
    | cons b l =>
      obtain rfl : b = r := Option.some.inj hi
      exact congrArg some h.1
  | succ i ih =>
    cases l with
    | nil => cases hi
    | cons b l =>
      obtain ⟨rfl, hn, hl'⟩ := h
      have hb := hl n List.mem_cons_self
      rw [walk, if_neg (by omega)]
      exact ih hl' (fun x hx => hl x (List.mem_cons_of_mem _ hx)) hi

theorem Text.range (h : Text s ls) {x : ℕ} (hx : x ∈ ls.map head) : x / 32 < s.p.NBLKS := by
  obtain ⟨free, hb⟩ := h.books
  have := (hb.range x (List.mem_append_right _ (h.mem_heads hx))).2
  omega

/-- A line is found from any other one. -/
theorem fb4_spec (h : Text s ls) (hbc : 0 < bc) (hhl : (ls.map head)[bc - 1]? = some hl) (hn : 0 < n)
    (hr : (ls.map head)[n - 1]? = some r) : fb4 s.p hl bc n = some (r, n) := by
  unfold fb4
  by_cases hle : bc ≤ n
  · rw [if_pos hle]
    have hdrop := h.next.drop hhl
    have hmem : ∀ x ∈ (ls.map head).drop (bc - 1), x / 32 < s.p.NBLKS := fun x hx =>
      h.range (List.mem_of_mem_drop hx)
    have hi : ((ls.map head).drop (bc - 1))[n - bc]? = some r := by
      rw [List.getElem?_drop, show bc - 1 + (n - bc) = n - 1 by omega]
      exact hr
    rw [walk_spec hdrop hmem hi]
    rfl
  · rw [if_neg hle]
    have hlen := (List.getElem?_eq_some_iff.mp hhl).1
    have hrev : (ls.map head).reverse[(ls.map head).length - bc]? = some hl := by
      rw [List.getElem?_reverse (by omega), ← hhl]
      congr 1
      omega
    have hmem : ∀ x ∈ (ls.map head).reverse.drop ((ls.map head).length - bc), x / 32 < s.p.NBLKS :=
      fun x hx => h.range (List.mem_reverse.mp (List.mem_of_mem_drop hx))
    have hi : ((ls.map head).reverse.drop ((ls.map head).length - bc))[bc - n]? = some r := by
      rw [List.getElem?_drop, List.getElem?_reverse (by omega), ← hr]
      congr 1
      omega
    rw [walk_spec (h.prev.drop hrev) hmem hi]
    rfl

/-- A line of the text is found, if one of its lines is the current one. -/
theorem FNDBUF_spec (h : Text s ls) (hc : Cur s ls) (hz : ls ≠ [] → s.CURLN ≠ 0) (hn : n ≤ ls.length) :
    FNDBUF s n = some (recOf ls n, n) := by
  unfold FNDBUF
  by_cases hn0 : n = 0
  · rw [if_pos hn0, hn0]
    rfl
  · have hpos : 0 < ls.length := by omega
    obtain ⟨hcpos, hcur⟩ := hc.resolve_left (hz (List.ne_nil_of_length_pos hpos))
    have hr := recOf_eq (Nat.pos_of_ne_zero hn0) hn
    have hfst : (ls.map head)[1 - 1]? = some s.FSTREC := by
      rw [h.next.head]
      cases ls with
      | nil => exact absurd hpos (Nat.lt_irrefl 0)
      | cons c ls => rfl
    have hlst : (ls.map head)[s.LASTLN - 1]? = some s.LSTREC := by
      rw [h.prev.head, h.last, List.headD_eq_head?_getD, List.head?_reverse]
      have hlen : (ls.map head).length = ls.length := List.length_map _
      rw [List.getLast?_eq_getElem?, hlen, List.getElem?_eq_getElem (by omega)]
      rfl
    have hbc := Nat.pos_of_ne_zero hn0
    rw [if_neg hn0, if_neg (by rw [h.last]; omega)]
    split
    · split
      · exact fb4_spec h hcpos hcur hbc hr
      · exact fb4_spec h Nat.one_pos hfst hbc hr
    · split
      · exact fb4_spec h hcpos hcur hbc hr
      · exact fb4_spec h (h.last ▸ hpos) hlst hbc hr

theorem gettxp_spec (h : Text s ls) (hc : Cur s ls) :
    Text (gettxp s) ls ∧ Cur (gettxp s) ls ∧ (ls ≠ [] → (gettxp s).CURLN ≠ 0) ∧ (gettxp s).p = s.p := by
  unfold gettxp
  by_cases hz : s.CURLN = 0
  · rw [if_pos hz]
    have hfst := h.next.head
    cases ls with
    | nil =>
      exact ⟨⟨h.fits, h.books, h.chains, h.next, h.prev, h.last⟩, Or.inl (if_pos hfst),
        fun hne => absurd rfl hne, rfl⟩
    | cons c ls =>
      have hf : s.FSTREC ≠ 0 := by
        rw [hfst]
        exact h.ne_zero List.mem_cons_self
      rw [if_neg hf]
      exact ⟨⟨h.fits, h.books, h.chains, h.next, h.prev, h.last⟩,
        Or.inr ⟨Nat.one_pos, congrArg some hfst.symm⟩, fun _ => Nat.one_ne_zero, rfl⟩
  · rw [if_neg hz]
    exact ⟨h, hc, fun _ => hz, rfl⟩

theorem GETTXP_spec (h : Text s ls) (hc : Cur s ls) (hn : n ≤ ls.length) :
    GETTXP s n = some (recOf ls n, n, gettxp s) := by
  obtain ⟨ht, hct, hz, -⟩ := gettxp_spec h hc
  unfold GETTXP
  rw [FNDBUF_spec ht hct hz hn]
  rfl

theorem GTTXP0_spec (h : Text s ls) (hc : Cur s ls) (hpos : 0 < n) (hn : n ≤ ls.length) :
    GTTXP0 s n = some (recOf ls n, n, gettxp s) := by
  have hne : recOf ls n ≠ 0 := by
    refine h.ne_zero ?_
    exact List.mem_of_getElem? (recOf_eq hpos hn)
  unfold GTTXP0
  rw [GETTXP_spec h hc hn]
  exact congrArg some (if_neg fun hz => hne hz.1)

theorem SETTXP_spec (h : Text s ls) (hn : n ≤ ls.length) :
    Text (SETTXP s (recOf ls n) n) ls ∧ Cur (SETTXP s (recOf ls n) n) ls := by
  refine ⟨⟨h.fits, h.books, h.chains, h.next, h.prev, h.last⟩, ?_⟩
  rcases Nat.eq_zero_or_pos n with hz | hpos
  · exact Or.inl hz
  · exact Or.inr ⟨hpos, recOf_eq hpos hn⟩

/-! ### Texts -/

/-- The texts of some lines. -/
def texts (s : Ed) (ls : List (List ℕ)) : List (List UInt8) := ls.map (lineText s.p)

/-- What becomes of a text when the line is expanded and stored again. -/
def copy (l : List UInt8) : List UInt8 := encode 0 0 (decode 0 l ++ [CR, LF])

theorem texts_append : texts s (l₁ ++ l₂) = texts s l₁ ++ texts s l₂ := List.map_append

theorem texts_split (h : texts t (l₁ ++ l₂) = texts s (l₁ ++ l₂)) :
    texts t l₁ = texts s l₁ ∧ texts t l₂ = texts s l₂ := by
  rw [texts_append, texts_append] at h
  exact List.append_inj h ((List.length_map _).trans (List.length_map _).symm)

theorem texts_congr (h : ∀ d ∈ ls, lineText t.p d = lineText s.p d) : texts t ls = texts s ls :=
  List.map_congr_left h

/-- The state is one of a text, with a current line. -/
structure Valid (s : Ed) (ls : List (List ℕ)) : Prop where
  text : Text s ls
  cur : Cur s ls

theorem Valid.insert (h : Valid s (l₁ ++ l₂)) (hp : hl = (l₁.map head).getLast?.getD 0)
    (hbc : s.CURLN ≤ bc ↔ s.CURLN ≤ l₁.length) {u} (hu : u = INSBUF s hl de bc) :
    u = (true, s) ∧ Full s.p ∨ ∃ c, Valid u.2 (l₁ ++ c :: l₂) ∧ texts u.2 l₁ = texts s l₁ ∧
      texts u.2 l₂ = texts s l₂ ∧ (u.1 = true → Full u.2.p) ∧ (u.1 = false → lineText u.2.p c = encode 0 0 de) ∧
        u.2.CURLN = (if s.CURLN ≤ bc then s.CURLN else s.CURLN + 1) ∧ u.2.EDREC = head c := by
  refine (INSBUF_spec h.text hp hu).imp_right ?_
  rintro ⟨c, htext, hkeep, hover, hnew, hrec, hln, hed⟩
  exact ⟨c, ⟨htext, h.cur.insert hrec hln hbc⟩,
    texts_congr fun d hd => hkeep d (List.mem_append_left _ hd),
    texts_congr fun d hd => hkeep d (List.mem_append_right _ hd), hover, hnew, hln, hed⟩

theorem Valid.remove (h : Valid s (l₁ ++ c :: l₂)) (hlt : s.CURLN < bc ↔ s.CURLN < l₁.length + 1)
    (heq : s.CURLN = bc ↔ s.CURLN = l₁.length + 1) (ht : t = DELBUF s (head c) bc) :
    Valid t (l₁ ++ l₂) ∧ texts t (l₁ ++ l₂) = texts s (l₁ ++ l₂) ∧
      t.NXTREC = (l₂.map head).headD 0 ∧
        (s.CURLN < bc → t.CURLN = s.CURLN) ∧ (bc < s.CURLN → t.CURLN = s.CURLN - 1) := by
  obtain ⟨htext, hkeep, hnxt, hrec, hln, -⟩ := DELBUF_spec h.text ht
  refine ⟨⟨htext, h.cur.remove hrec hln hlt heq⟩, texts_congr hkeep, hnxt, fun hb => ?_, fun hb => ?_⟩
  · rw [hln, if_pos (Or.inl hb)]
  · rw [hln, if_neg]
    rintro (hb' | ⟨hb', -⟩)
    · omega
    · omega

/-! ### Inserting the lines of a file -/

theorem getLast?_head {Q : List (List ℕ)} :
    head c = ((Q ++ [c]).map head).getLast?.getD 0 := by
  rw [List.map_append, List.map_singleton, List.getLast?_concat]
  rfl

theorem rloop_spec {de : List (List UInt8)} (h : Valid s (l₁ ++ l₂))
    (hed : s.EDREC = (l₁.map head).getLast?.getD 0) (hbc : bc = l₁.length) {u} (hu : u = rloop s bc de) :
    ∃ ls, Valid u.2 ls ∧ (u.1 = .done ∨ u.1 = .overflow ∧ Full u.2.p) ∧ (u.1 = .done →
      texts u.2 ls = texts s l₁ ++ de.map (encode 0 0) ++ texts s l₂) := by
  induction de generalizing s l₁ bc with
  | nil =>
    subst hu
    refine ⟨l₁ ++ l₂, h, Or.inl rfl, fun _ => ?_⟩
    rw [List.map_nil, List.append_nil]
    exact List.map_append
  | cons a de ih =>
    obtain ⟨w, hw⟩ : ∃ w, w = INSBUF s s.EDREC a bc := ⟨_, rfl⟩
    have hstep : rloop s bc (a :: de) = if w.1 then (.overflow, w.2) else rloop w.2 (bc + 1) de := by
      rw [hw]
      rfl
    rw [hstep] at hu
    rcases h.insert hed (by rw [hbc]) hw with ⟨hw', hfull⟩ | ⟨c, hv, h₁, h₂, hover, hnew, -, hed'⟩
    · rw [hw'] at hu
      subst hu
      exact ⟨l₁ ++ l₂, h, Or.inr ⟨rfl, hfull⟩, fun hd => Ans.noConfusion hd⟩
    · cases hcy : w.1 with
      | true =>
        rw [hcy] at hu
        subst hu
        exact ⟨_, hv, Or.inr ⟨rfl, hover hcy⟩, fun hd => Ans.noConfusion hd⟩
      | false =>
        rw [hcy] at hu
        have hsplit : l₁ ++ c :: l₂ = (l₁ ++ [c]) ++ l₂ := by rw [List.append_assoc]; rfl
        rw [hsplit] at hv
        obtain ⟨ls, hv', hans, htexts⟩ := ih hv
          (hed'.trans getLast?_head)
          (by rw [hbc, List.length_append]; rfl) hu
        refine ⟨ls, hv', hans, fun hd => ?_⟩
        rw [htexts hd, h₂]
        have hlast : texts w.2 (l₁ ++ [c]) = texts s l₁ ++ [encode 0 0 a] := by
          rw [← h₁, ← hnew hcy]
          exact List.map_append
        rw [hlast, List.map_cons, List.append_assoc (texts s l₁)]
        rfl

/-! ### Deleting lines -/

/-- The lines of a range are deleted, the first one each time. -/
theorem cmdd2_spec {X Y : List (List ℕ)} (h : Valid s (l₁ ++ X ++ Y)) (hX : X ≠ [])
    (hhl : hl = (X.map head).headD 0) (hbc : bc = l₁.length + 1) (ht : t = cmdd2 X.length s hl bc) :
    Valid t (l₁ ++ Y) ∧ texts t (l₁ ++ Y) = texts s (l₁ ++ Y) := by
  induction X generalizing s hl with
  | nil => exact absurd rfl hX
  | cons c X ih =>
    obtain ⟨w, hw⟩ : ∃ w, w = DELBUF s (head c) bc := ⟨_, rfl⟩
    have hstep : cmdd2 (c :: X).length s hl bc =
        if w.NXTREC = 0 then w else cmdd2 X.length w w.NXTREC bc := by
      rw [hw, hhl]
      rfl
    rw [hstep] at ht
    have h' : Valid s (l₁ ++ c :: (X ++ Y)) := by
      rw [List.append_assoc] at h
      exact h
    obtain ⟨hv, htexts, hnxt, -, -⟩ := h'.remove (by rw [hbc]) (by rw [hbc]) hw
    have hkeep : texts w (l₁ ++ Y) = texts s (l₁ ++ Y) := by
      refine texts_congr fun d hd => ?_
      refine List.map_inj_left.mp htexts d ?_
      exact List.mem_append.mpr ((List.mem_append.mp hd).imp_right (List.mem_append_right _))
    cases X with
    | nil =>
      -- the loop ends with the count, or at the end of the text
      have hend : t = w := by
        rw [ht]
        split
        · rfl
        · rfl
      subst hend
      exact ⟨hv, hkeep⟩
    | cons d X =>
      have hne : w.NXTREC ≠ 0 := by
        rw [hnxt]
        refine hv.text.ne_zero (x := head d) (List.mem_map_of_mem ?_)
        exact List.mem_append_right _ List.mem_cons_self
      rw [if_neg hne] at ht
      rw [← List.append_assoc] at hv
      obtain ⟨hv', htexts'⟩ := ih hv (List.cons_ne_nil _ _) hnxt ht
      exact ⟨hv', htexts'.trans hkeep⟩

/-! ### Copying and moving lines -/

/-- One line is copied or moved: from between `X` and `Y` to between `U` and `V`. -/
theorem cmdm4_step {opmode : Bool} {count cline dstrec dstln dstln' : ℕ} {X Y U V : List (List ℕ)}
    (h : Valid s (X ++ c :: Y)) (hUV : (if opmode then X ++ Y else X ++ c :: Y) = U ++ V)
    (hd : dstrec = (U.map head).getLast?.getD 0) (hln : s.CURLN = dstln)
    (hlt : opmode = true → (dstln < cline ↔ dstln < X.length + 1))
    (heq : opmode = true → (dstln = cline ↔ dstln = X.length + 1) ∧ dstln ≠ cline)
    (hdst : dstln' = if opmode ∧ cline < dstln then dstln - 1 else dstln) (hU : dstln' ≤ U.length) {u}
    (hu : u = cmdm4 opmode (count + 1) s (head c) cline dstrec dstln) :
    (u.1 = .overflow ∧ Full u.2.p ∧ ∃ ls, Valid u.2 ls) ∨ ∃ t new,
      u = cmdm4 opmode count t (nextOf s.p (head c)) (cline + 1) (head new) dstln' ∧
        Valid t (U ++ new :: V) ∧ t.CURLN = dstln' ∧ texts t (U ++ V) = texts s (U ++ V) ∧
          lineText t.p new = copy (lineText s.p c) := by
  have hmem : c ∈ X ++ c :: Y := List.mem_append_right _ List.mem_cons_self
  have hne : head c ≠ 0 := h.text.ne_zero (List.mem_map_of_mem hmem)
  obtain ⟨e, he⟩ : ∃ e, e = (EXPAND s (head c)).2 := ⟨_, rfl⟩
  obtain ⟨s', hs'⟩ : ∃ s', s' = if opmode then DELBUF e (head c) cline else e := ⟨_, rfl⟩
  obtain ⟨w, hw⟩ : ∃ w, w = INSBUF s' dstrec (EXPAND s (head c)).1 dstln' := ⟨_, rfl⟩
  have hstep : cmdm4 opmode (count + 1) s (head c) cline dstrec dstln =
      if w.1 then (.overflow, w.2)
      else cmdm4 opmode count w.2 (nextOf s.p (head c)) (cline + 1) w.2.EDREC dstln' := by
    rw [cmdm4, if_neg hne, hw, hs', he, hdst]
    rfl
  rw [hstep] at hu
  -- the line is expanded, and deleted if it is moved
  have hve : Valid e (X ++ c :: Y) := by
    rw [he]
    exact ⟨⟨h.text.fits, h.text.books, h.text.chains, h.text.next, h.text.prev, h.text.last⟩, h.cur⟩
  have hels : ∀ ls, texts e ls = texts s ls := by
    rw [he]
    exact fun _ => rfl
  have hecur : e.CURLN = dstln := by
    rw [he]
    exact hln
  have hv : Valid s' (U ++ V) ∧ texts s' (U ++ V) = texts s (U ++ V) ∧ s'.CURLN = dstln' := by
    cases opmode with
    | false =>
      obtain rfl : s' = e := hs'
      rw [← hUV]
      exact ⟨hve, hels _, hecur.trans (hdst.trans (if_neg (fun h => Bool.noConfusion h.1))).symm⟩
    | true =>
      have hlt := hlt rfl
      obtain ⟨heq, hnc⟩ := heq rfl
      rw [← hecur] at hlt heq
      obtain ⟨hv, htexts, -, hb, ha⟩ := hve.remove hlt heq hs'
      rw [← show X ++ Y = U ++ V from hUV]
      refine ⟨hv, htexts.trans (hels _), ?_⟩
      rw [hdst]
      by_cases hc : cline < dstln
      · rw [if_pos ⟨rfl, hc⟩, ← hecur]
        exact ha (hecur ▸ hc)
      · rw [if_neg fun h => hc h.2, ← hecur]
        exact hb (hecur ▸ (by omega))
  obtain ⟨hv, htexts, hcur⟩ := hv
  have hins : s'.CURLN ≤ dstln' ↔ s'.CURLN ≤ U.length := by
    rw [hcur]
    exact iff_of_true (Nat.le_refl _) hU
  rcases hv.insert hd hins hw with ⟨hw', hfull⟩ | ⟨new, hvw, h₁, h₂, hover, hnew, hlnw, hed⟩
  · rw [hw'] at hu
    subst hu
    exact Or.inl ⟨rfl, hfull, _, hv⟩
  · cases hcy : w.1 with
    | true =>
      rw [hcy] at hu
      subst hu
      exact Or.inl ⟨rfl, hover hcy, _, hvw⟩
    | false =>
      rw [hcy, hed] at hu
      refine Or.inr ⟨w.2, new, hu, hvw, ?_, ?_, ?_⟩
      · rw [hlnw, hcur, if_pos (Nat.le_refl _)]
      · rw [← htexts]
        have happ : ∀ t, texts t (U ++ V) = texts t U ++ texts t V := fun _ => List.map_append
        rw [happ, happ, h₁, h₂]
      · rw [hnew hcy, ← h.text.chars hmem]
        rfl

/-- The next line is the one behind it in the list. -/
theorem Text.nextOf_head {X Y R L : List (List ℕ)} (h : Text s (X ++ c :: Y)) (hY : Y = R ++ L) :
    ∀ d, R.head? = some d → nextOf s.p (head c) = head d := by
  intro d hd
  have hnext := h.next
  rw [List.map_append, List.map_cons] at hnext
  rw [hnext.suffix.2.2.head, hY]
  cases R with
  | nil => cases hd
  | cons d' R =>
    obtain rfl : d' = d := Option.some.inj hd
    rfl

/-- Lines are copied or moved towards the end of the text. The destination must stay behind the line
that `CLINE` says, which is counted up when the line is deleted, too. -/
theorem cmdm4_forward {opmode : Bool} {crec cline dstrec dstln : ℕ} {P R Q L : List (List ℕ)}
    (h : Valid s (P ++ R ++ Q ++ L)) (hQ : Q ≠ []) (hcrec : ∀ c, R.head? = some c → crec = head c)
    (hd : dstrec = (Q.map head).getLast?.getD 0) (hln : s.CURLN = dstln)
    (hpos : P.length + R.length < dstln) (hle : dstln ≤ P.length + R.length + Q.length)
    (hmd : opmode = true → R ≠ [] → cline + 2 * (R.length - 1) < dstln) {u}
    (hu : u = cmdm4 opmode R.length s crec cline dstrec dstln) :
    ∃ ls, Valid u.2 ls ∧ (u.1 = .done ∨ u.1 = .overflow ∧ Full u.2.p) ∧ (u.1 = .done →
      texts u.2 ls = texts s P ++ (if opmode then [] else texts s R) ++ texts s Q ++
        (texts s R).map copy ++ texts s L) := by
  induction R generalizing s crec cline dstrec dstln P Q u with
  | nil =>
    subst hu
    refine ⟨P ++ [] ++ Q ++ L, h, Or.inl rfl, fun _ => ?_⟩
    rw [texts_append, texts_append, texts_append, show texts s [] = [] from rfl, ite_self, List.map_nil,
      List.append_nil (_ ++ texts s Q)]
    rfl
  | cons c R ih =>
    obtain rfl := hcrec c rfl
    rw [List.length_cons] at hpos hle hmd hu
    obtain ⟨P', hP'⟩ : ∃ P', P' = if opmode then P else P ++ [c] := ⟨_, rfl⟩
    have hsplit : P ++ c :: R ++ Q ++ L = P ++ c :: (R ++ Q ++ L) := by
      simp only [List.append_assoc, List.cons_append]
    have hUV : (if opmode then P ++ (R ++ Q ++ L) else P ++ c :: (R ++ Q ++ L)) = (P' ++ R ++ Q) ++ L := by
      rw [hP']
      cases opmode with
      | false =>
        simp only [Bool.false_eq_true, if_false, List.append_assoc, List.cons_append, List.nil_append]
      | true => simp only [if_true, List.append_assoc]
    have hPlen : P'.length = if opmode then P.length else P.length + 1 := by
      rw [hP']
      cases opmode with
      | false => exact List.length_append
      | true => rfl
    rw [hsplit] at h
    have hdst' : (if opmode ∧ cline < dstln then dstln - 1 else dstln) =
        if opmode then dstln - 1 else dstln := by
      cases opmode with
      | false => rfl
      | true =>
        have hmd := hmd rfl (List.cons_ne_nil _ _)
        rw [if_pos ⟨rfl, by omega⟩]
        rfl
    have hdQ : dstrec = ((P' ++ R ++ Q).map head).getLast?.getD 0 := by
      rw [List.map_append, List.getLast?_append_of_ne_nil _ (fun hn => hQ (List.map_eq_nil_iff.mp hn))]
      exact hd
    obtain ⟨dstln', hdstln⟩ : ∃ d, d = if opmode then dstln - 1 else dstln := ⟨_, rfl⟩
    have hcond : P'.length + R.length < dstln' ∧ dstln' ≤ P'.length + R.length + Q.length := by
      rw [hPlen, hdstln]
      cases opmode with
      | false =>
        simp only [Bool.false_eq_true, if_false]
        omega
      | true =>
        simp only [if_true]
        omega
    have hbehind : opmode = true → cline < dstln := fun ho => by
      have hmd := hmd ho (List.cons_ne_nil _ _)
      omega
    have hU : dstln' ≤ (P' ++ R ++ Q).length := by
      rw [List.length_append, List.length_append]
      exact hcond.2
    rcases cmdm4_step h hUV hdQ hln
        (fun ho => have hb := hbehind ho; iff_of_false (by omega) (by omega))
          (fun ho => have hb := hbehind ho; ⟨iff_of_false (by omega) (by omega), by omega⟩)
            (hdstln.trans hdst'.symm) hU hu with
      ⟨hcy, hfull, ls, hv⟩ | ⟨t, new, hut, hv, hcur, htexts, hnew⟩
    · exact ⟨ls, hv, Or.inr ⟨hcy, hfull⟩, fun hdone => Ans.noConfusion (hcy.symm.trans hdone)⟩
    · have hsplit' : P' ++ R ++ Q ++ new :: L = P' ++ R ++ (Q ++ [new]) ++ L := by
        simp only [List.append_assoc, List.singleton_append]
      rw [hsplit'] at hv
      have hle' : dstln' ≤ P'.length + R.length + (Q ++ [new]).length := by
        rw [List.length_append]
        have := hcond.2
        omega
      have hmd' : opmode = true → R ≠ [] → cline + 1 + 2 * (R.length - 1) < dstln' := by
        intro ho hR
        have hmd := hmd ho (List.cons_ne_nil _ _)
        have hRpos := List.length_pos_iff.mpr hR
        rw [hdstln, if_pos ho]
        omega
      obtain ⟨ls, hv', hans, hdone⟩ := ih hv (List.append_ne_nil_of_right_ne_nil _ (List.cons_ne_nil _ _))
        (h.text.nextOf_head (by rw [List.append_assoc])) getLast?_head hcur hcond.1 hle' hmd' hut
      refine ⟨ls, hv', hans, fun hd => ?_⟩
      obtain ⟨h₁, hL⟩ := texts_split htexts
      obtain ⟨h₂, hQt⟩ := texts_split h₁
      obtain ⟨hPt, hRt⟩ := texts_split h₂
      have hnewt : texts t [new] = [copy (lineText s.p c)] := congrArg (· :: []) hnew
      rw [hdone hd, texts_append, hPt, hRt, hQt, hL, hnewt, hP']
      cases opmode with
      | false =>
        simp only [Bool.false_eq_true, if_false, texts, List.map_append, List.map_cons, List.map_nil,
          List.append_assoc, List.cons_append, List.nil_append]
      | true =>
        simp only [if_true, texts, List.map_cons, List.append_assoc, List.nil_append, List.cons_append]

/-- Lines are copied or moved towards the beginning of the text. Each line that is put there takes the
place of one that is deleted, so that `CLINE` is right. -/
theorem cmdm4_backward {opmode : Bool} {crec cline dstrec dstln : ℕ} {Q S R L : List (List ℕ)}
    (h : Valid s (Q ++ S ++ R ++ L)) (hcrec : ∀ c, R.head? = some c → crec = head c)
    (hd : dstrec = (Q.map head).getLast?.getD 0) (hln : s.CURLN = dstln) (hle : dstln ≤ Q.length)
    (hlt : dstln < cline) (hmd : opmode = true → cline = Q.length + S.length + 1) {u}
    (hu : u = cmdm4 opmode R.length s crec cline dstrec dstln) :
    ∃ ls, Valid u.2 ls ∧ (u.1 = .done ∨ u.1 = .overflow ∧ Full u.2.p) ∧ (u.1 = .done →
      texts u.2 ls = texts s Q ++ (texts s R).map copy ++ texts s S ++
        (if opmode then [] else texts s R) ++ texts s L) := by
  induction R generalizing s crec cline dstrec Q S u with
  | nil =>
    subst hu
    refine ⟨Q ++ S ++ [] ++ L, h, Or.inl rfl, fun _ => ?_⟩
    rw [texts_append, texts_append, texts_append, show texts s [] = [] from rfl, ite_self, List.map_nil,
      List.append_nil (texts s Q)]
    rfl
  | cons c R ih =>
    obtain rfl := hcrec c rfl
    obtain ⟨S', hS'⟩ : ∃ S', S' = if opmode then S else S ++ [c] := ⟨_, rfl⟩
    have hsplit : Q ++ S ++ c :: R ++ L = (Q ++ S) ++ c :: (R ++ L) := by
      simp only [List.append_assoc, List.cons_append]
    have hUV : (if opmode then (Q ++ S) ++ (R ++ L) else (Q ++ S) ++ c :: (R ++ L)) =
        Q ++ (S' ++ R ++ L) := by
      rw [hS']
      cases opmode with
      | false =>
        simp only [Bool.false_eq_true, if_false, List.append_assoc, List.cons_append, List.nil_append]
      | true => simp only [if_true, List.append_assoc]
    have hSlen : opmode = true → S'.length = S.length := fun ho => by rw [hS', if_pos ho]
    rw [hsplit] at h
    have hdst : dstln = if opmode ∧ cline < dstln then dstln - 1 else dstln :=
      (if_neg fun hn => by omega).symm
    have hline : opmode = true → cline = (Q ++ S).length + 1 := fun ho => by
      rw [hmd ho, List.length_append]
    rcases cmdm4_step h hUV hd hln (fun ho => by rw [hline ho])
        (fun ho => ⟨by rw [hline ho], by omega⟩) hdst hle hu with
      ⟨hcy, hfull, ls, hv⟩ | ⟨t, new, hut, hv, hcur, htexts, hnew⟩
    · exact ⟨ls, hv, Or.inr ⟨hcy, hfull⟩, fun hdone => Ans.noConfusion (hcy.symm.trans hdone)⟩
    · have hsplit' : Q ++ new :: (S' ++ R ++ L) = (Q ++ [new]) ++ S' ++ R ++ L := by
        simp
      rw [hsplit'] at hv
      have hQlen : (Q ++ [new]).length = Q.length + 1 := List.length_append
      obtain ⟨ls, hv', hans, hdone⟩ := ih hv (h.text.nextOf_head rfl) getLast?_head hcur (by omega)
        (by omega) (fun ho => by rw [hQlen, hmd ho, hSlen ho]; omega) hut
      refine ⟨ls, hv', hans, fun hd => ?_⟩
      obtain ⟨hQt, h₁⟩ := texts_split htexts
      obtain ⟨h₂, hL⟩ := texts_split h₁
      obtain ⟨hSt, hRt⟩ := texts_split h₂
      have hnewt : texts t [new] = [copy (lineText s.p c)] := congrArg (· :: []) hnew
      rw [hdone hd, texts_append, hQt, hRt, hSt, hL, hnewt, hS']
      cases opmode with
      | false =>
        simp only [Bool.false_eq_true, if_false, texts, List.map_append, List.map_cons, List.map_nil,
          List.append_assoc, List.cons_append, List.nil_append]
      | true =>
        simp only [if_true, texts, List.map_cons, List.append_assoc, List.nil_append, List.cons_append]

end RSX280.Ted
