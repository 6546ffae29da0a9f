import RSX280.LinesRuns

/-!
# Runs of the text editor

Whatever commands were given, the lines are a list that is linked in both directions, the current line is
one of them, and a command changes the list as it says.
-/

namespace RSX280.Ted

open Numbered

variable {s t : Ed} {ls : List (List ℕ)} {n n₁ n₂ n₃ : ℕ}

/-! ### Commands -/

theorem Valid.gettxp (h : Valid s ls) : Valid (gettxp s) ls ∧ (gettxp s).p = s.p :=
  have hg := gettxp_spec h.text h.cur
  ⟨⟨hg.1, hg.2.1⟩, hg.2.2.2⟩

theorem Valid.SETTXP (h : Valid s ls) (hn : n ≤ ls.length) : Valid (SETTXP s (recOf ls n) n) ls :=
  have hs := SETTXP_spec h.text hn
  ⟨hs.1, hs.2⟩

theorem texts_of_p (hp : t.p = s.p) : texts t ls = texts s ls := by
  unfold texts
  rw [hp]

theorem take_drop_split {α : Type} {l : List α} {i j : ℕ} (h : i ≤ j) :
    l.take i ++ (l.take j).drop i = l.take j := by
  have := List.take_append_drop i (l.take j)
  rw [List.take_take, Nat.min_eq_left h] at this
  exact this

theorem CMDR_spec {de : List (List UInt8)} (h : Valid s ls) (hn : n ≤ ls.length) :
    ∃ u, CMDR s n de = some u ∧ ∃ ls', Valid u.2 ls' ∧ (u.1 = .done ∨ u.1 = .overflow ∧ Full u.2.p) ∧
      (u.1 = .done → texts u.2 ls' =
        (texts s ls).take n ++ de.map (encode 0 0) ++ (texts s ls).drop n) := by
  obtain ⟨hg, hp⟩ := h.gettxp
  obtain ⟨t, ht⟩ : ∃ t, t = { SETTXP (gettxp s) (recOf ls n) n with EDREC := recOf ls n } := ⟨_, rfl⟩
  obtain ⟨u, hu⟩ : ∃ u, u = rloop t n de := ⟨_, rfl⟩
  refine ⟨u, ?_, ?_⟩
  · unfold CMDR
    rw [GETTXP_spec h.text h.cur hn, hu, ht]
    rfl
  · have hv : Valid t (ls.take n ++ ls.drop n) := by
      have hs := hg.SETTXP hn
      rw [List.take_append_drop, ht]
      exact ⟨⟨hs.text.fits, hs.text.books, hs.text.chains, hs.text.next, hs.text.prev, hs.text.last⟩,
        hs.cur⟩
    have htp : t.p = s.p := by
      rw [ht]
      exact hp
    have hed : t.EDREC = ((ls.take n).map head).getLast?.getD 0 := by
      rw [ht]
      rfl
    have hlen : n = (ls.take n).length := by rw [List.length_take, Nat.min_eq_left hn]
    obtain ⟨ls', hv', hans, hdone⟩ := rloop_spec hv hed hlen hu
    refine ⟨ls', hv', hans, fun hd => ?_⟩
    rw [hdone hd, texts_of_p htp, texts_of_p htp]
    unfold texts
    rw [List.map_take, List.map_drop]

/-- The first line of a range. -/
theorem head_range (hpos : 0 < n₁) (hle : n₁ ≤ n₂) (hn : n₂ ≤ ls.length) :
    ∀ c, ((ls.take n₂).drop (n₁ - 1)).head? = some c → recOf ls n₁ = head c := by
  intro c hc
  rw [List.head?_drop, List.getElem?_take_of_lt (by omega)] at hc
  have hr := recOf_eq hpos (Nat.le_trans hle hn)
  rw [List.getElem?_map, hc] at hr
  exact (Option.some.inj hr).symm

theorem CMDD_spec (h : Valid s ls) (hpos : 0 < n₁) (hle : n₁ ≤ n₂) (hn : n₂ ≤ ls.length) :
    ∃ u, CMDD s n₁ n₂ = some (.done, u) ∧ ∃ ls', Valid u ls' ∧
      texts u ls' = (texts s ls).take (n₁ - 1) ++ (texts s ls).drop n₂ := by
  obtain ⟨hg, hp⟩ := h.gettxp
  have hv := hg.SETTXP (n := n₁) (by omega)
  obtain ⟨t, ht⟩ : ∃ t, t = SETTXP (gettxp s) (recOf ls n₁) n₁ := ⟨_, rfl⟩
  rw [← ht] at hv
  obtain ⟨hv', hp'⟩ := hv.gettxp
  have hne : recOf ls n₁ ≠ 0 :=
    h.text.ne_zero (List.mem_of_getElem? (recOf_eq hpos (Nat.le_trans hle hn)))
  have hcmd : CMDD s n₁ n₂ =
      some (.done, cmdd2 (n₂ - n₁ + 1) (gettxp t) (recOf ls n₁) n₁) := by
    unfold CMDD
    rw [GTTXP0_spec h.text h.cur hpos (by omega)]
    dsimp only
    rw [if_neg hne, ← ht, GETTXP_spec hv.text hv.cur hn]
    exact congrArg some (if_neg (Nat.not_lt.mpr hle))
  have htp : (gettxp t).p = s.p := by
    rw [hp', ht]
    exact hp
  -- the range is what stands between the lines that stay
  obtain ⟨X, hX⟩ : ∃ X, X = (ls.take n₂).drop (n₁ - 1) := ⟨_, rfl⟩
  have hXlen : X.length = n₂ - n₁ + 1 := by
    rw [hX, List.length_drop, List.length_take]
    omega
  have hsplit : ls.take (n₁ - 1) ++ X ++ ls.drop n₂ = ls := by
    rw [hX, take_drop_split (by omega), List.take_append_drop]
  have hXne : X ≠ [] := fun hnil => by
    rw [hnil] at hXlen
    exact Nat.succ_ne_zero _ hXlen.symm
  have hhl : recOf ls n₁ = (X.map head).headD 0 := by
    have hfirst := head_range hpos hle hn
    rw [← hX] at hfirst
    cases X with
    | nil => exact absurd rfl hXne
    | cons c X => exact hfirst c rfl
  rw [← hsplit] at hv'
  have hlen : n₁ = (ls.take (n₁ - 1)).length + 1 := by
    rw [List.length_take]
    omega
  rw [← hXlen] at hcmd
  obtain ⟨hvu, htexts⟩ := cmdd2_spec hv' hXne hhl hlen rfl
  refine ⟨_, hcmd, _, hvu, ?_⟩
  rw [htexts, texts_of_p htp]
  unfold texts
  rw [List.map_append, List.map_take, List.map_drop]

/-- The texts when some lines have been copied (or moved, if `opmode`) behind a line. -/
def transfer (opmode : Bool) (n₁ n₂ n₃ : ℕ) (ts : List (List UInt8)) : List (List UInt8) :=
  let range := (ts.take n₂).drop (n₁ - 1)
  if ¬opmode then ts.take n₃ ++ range.map copy ++ ts.drop n₃
  else if n₃ < n₁ then ts.take n₃ ++ range.map copy ++ (ts.take (n₁ - 1)).drop n₃ ++ ts.drop n₂
  else ts.take (n₁ - 1) ++ (ts.take n₃).drop n₂ ++ range.map copy ++ ts.drop n₃

theorem cmdm1_spec {opmode : Bool} (h : Valid s ls) (hpos : 0 < n₁) (hle : n₁ ≤ n₂)
    (hn : n₂ ≤ ls.length) (hpos' : 0 < n₃) (hn' : n₃ ≤ ls.length) (hout : n₃ < n₁ ∨ n₂ < n₃)
    (hmd : opmode = true → n₂ < n₃ → 2 * n₂ < n₁ + n₃) :
    ∃ u, cmdm1 opmode s n₁ n₂ n₃ = some u ∧ ∃ ls', Valid u.2 ls' ∧
      (u.1 = .done ∨ u.1 = .overflow ∧ Full u.2.p) ∧
        (u.1 = .done → texts u.2 ls' = transfer opmode n₁ n₂ n₃ (texts s ls)) := by
  obtain ⟨hg, hp⟩ := h.gettxp
  -- the first line
  obtain ⟨t₁, ht₁⟩ : ∃ t, t = SETTXP (gettxp s) (recOf ls n₁) n₁ := ⟨_, rfl⟩
  have hv₁ : Valid t₁ ls := ht₁ ▸ hg.SETTXP (Nat.le_trans hle hn)
  have hp₁ : t₁.p = s.p := by
    rw [ht₁]
    exact hp
  obtain ⟨hg₁, hpg₁⟩ := hv₁.gettxp
  -- the current line is the old one again
  obtain ⟨t₂, ht₂⟩ : ∃ t, t = SETTXP (gettxp t₁) s.CURREC s.CURLN := ⟨_, rfl⟩
  have hv₂ : Valid t₂ ls := by
    rw [ht₂]
    exact ⟨⟨hg₁.text.fits, hg₁.text.books, hg₁.text.chains, hg₁.text.next, hg₁.text.prev,
      hg₁.text.last⟩, h.cur⟩
  have hp₂ : t₂.p = s.p := by
    rw [ht₂]
    exact hpg₁.trans hp₁
  obtain ⟨hg₂, hpg₂⟩ := hv₂.gettxp
  -- the destination
  obtain ⟨t₃, ht₃⟩ : ∃ t, t = SETTXP (gettxp t₂) (recOf ls n₃) n₃ := ⟨_, rfl⟩
  have hv₃ : Valid t₃ ls := ht₃ ▸ hg₂.SETTXP hn'
  have hp₃ : t₃.p = s.p := by
    rw [ht₃]
    exact hpg₂.trans hp₂
  have hcur : t₃.CURLN = n₃ := by
    rw [ht₃]
    rfl
  have hcmd : cmdm1 opmode s n₁ n₂ n₃ =
      some (cmdm4 opmode (n₂ - n₁ + 1) t₃ (recOf ls n₁) n₁ (recOf ls n₃) n₃) := by
    unfold cmdm1
    rw [GTTXP0_spec h.text h.cur hpos (Nat.le_trans hle hn)]
    dsimp only
    rw [← ht₁, GTTXP0_spec hv₁.text hv₁.cur (Nat.lt_of_lt_of_le hpos hle) hn]
    dsimp only
    rw [if_neg (Nat.not_lt.mpr hle), ← ht₂, GTTXP0_spec hv₂.text hv₂.cur hpos' hn']
    dsimp only
    rw [if_pos hout, ← ht₃]
  have htx : ∀ ls, texts t₃ ls = texts s ls := fun _ => texts_of_p hp₃
  obtain ⟨R, hR⟩ : ∃ R, R = (ls.take n₂).drop (n₁ - 1) := ⟨_, rfl⟩
  have hRlen : R.length = n₂ - n₁ + 1 := by
    rw [hR, List.length_drop, List.length_take]
    omega
  have hcrec : ∀ c, R.head? = some c → recOf ls n₁ = head c := hR ▸ head_range hpos hle hn
  rw [← hRlen] at hcmd
  refine ⟨_, hcmd, ?_⟩
  rcases hout with hlt | hlt
  · -- towards the beginning
    obtain ⟨S, hS⟩ : ∃ S, S = (ls.take (n₁ - 1)).drop n₃ := ⟨_, rfl⟩
    have hsplit : ls.take n₃ ++ S ++ R ++ ls.drop n₂ = ls := by
      rw [hS, hR, take_drop_split (by omega), take_drop_split (by omega), List.take_append_drop]
    have hQlen : (ls.take n₃).length = n₃ := by rw [List.length_take, Nat.min_eq_left hn']
    have hSlen : S.length = n₁ - 1 - n₃ := by
      rw [hS, List.length_drop, List.length_take]
      omega
    have hdst : recOf ls n₃ = ((ls.take n₃).map head).getLast?.getD 0 := rfl
    rw [← hsplit] at hv₃
    obtain ⟨ls', hv', hans, hdone⟩ := cmdm4_backward hv₃ hcrec hdst hcur (Nat.le_of_eq hQlen.symm) hlt
      (fun _ => by rw [hQlen, hSlen]; omega) rfl
    refine ⟨ls', hv', hans, fun hd => ?_⟩
    rw [hdone hd, htx, htx, htx, htx]
    unfold transfer
    have hrest : texts s S ++ texts s R ++ texts s (ls.drop n₂) = (texts s ls).drop n₃ := by
      have hd : S ++ R ++ ls.drop n₂ = ls.drop n₃ := by
        have := congrArg (List.drop n₃) hsplit
        rw [List.append_assoc, List.append_assoc, List.drop_left' hQlen, ← List.append_assoc] at this
        exact this
      rw [← texts_append, ← texts_append, hd]
      exact List.map_drop
    cases opmode with
    | false =>
      rw [if_neg Bool.false_ne_true, if_pos Bool.false_ne_true, ← hrest, hR]
      simp only [texts, List.map_take, List.map_drop, List.append_assoc]
    | true =>
      rw [if_pos rfl, if_neg (not_not.mpr rfl), if_pos hlt, hR, hS]
      simp only [texts, List.map_take, List.map_drop, List.append_nil]
  · -- towards the end
    obtain ⟨Q, hQ⟩ : ∃ Q, Q = (ls.take n₃).drop n₂ := ⟨_, rfl⟩
    have hsplit₃ : ls.take (n₁ - 1) ++ R ++ Q = ls.take n₃ := by
      rw [hQ, hR, take_drop_split (by omega), take_drop_split (by omega)]
    have hsplit : ls.take (n₁ - 1) ++ R ++ Q ++ ls.drop n₃ = ls := by
      rw [hsplit₃, List.take_append_drop]
    have hPlen : (ls.take (n₁ - 1)).length = n₁ - 1 := by
      rw [List.length_take]
      omega
    have hQlen : Q.length = n₃ - n₂ := by
      rw [hQ, List.length_drop, List.length_take, Nat.min_eq_left hn']
    have hQne : Q ≠ [] := fun hnil => by
      rw [hnil] at hQlen
      exact absurd hQlen.symm (by simp only [List.length_nil]; omega)
    have hdst : recOf ls n₃ = (Q.map head).getLast?.getD 0 := by
      unfold recOf
      rw [← hsplit₃, List.map_append,
        List.getLast?_append_of_ne_nil _ fun hn => hQne (List.map_eq_nil_iff.mp hn)]
    have hline : opmode = true → R ≠ [] → n₁ + 2 * (R.length - 1) < n₃ := fun ho _ => by
      have := hmd ho hlt
      omega
    rw [← hsplit] at hv₃
    obtain ⟨ls', hv', hans, hdone⟩ := cmdm4_forward hv₃ hQne hcrec hdst hcur
      (by rw [hPlen, hRlen]; omega) (by rw [hPlen, hRlen, hQlen]; omega) hline rfl
    refine ⟨ls', hv', hans, fun hd => ?_⟩
    rw [hdone hd, htx, htx, htx, htx]
    unfold transfer
    have hfirst : texts s (ls.take (n₁ - 1)) ++ texts s R ++ texts s Q = (texts s ls).take n₃ := by
      rw [← texts_append, ← texts_append, hsplit₃]
      exact List.map_take
    cases opmode with
    | false =>
      rw [if_neg Bool.false_ne_true, if_pos Bool.false_ne_true, hfirst, hR]
      simp only [texts, List.map_take, List.map_drop]
    | true =>
      rw [if_pos rfl, if_neg (not_not.mpr rfl), if_neg (by omega), hR, hQ]
      simp only [texts, List.map_take, List.map_drop, List.append_nil]

/-! ### Runs -/

/-- The records of the lines, from the first one on. -/
def Ed.heads (s : Ed) : List ℕ := follow (nextOf s.p) 65536 s.FSTREC

/-- The texts of the lines. -/
def Ed.lines (s : Ed) : List (List UInt8) := s.heads.map (chars s.p)

/-- A call is made with a line and its record, and a command with lines of the text. A range may be moved
to a line behind it when that is far enough. -/
def Act.Ready (s : Ed) : Act → Prop
  | .INSBUF hl _ bc => bc = 0 ∧ hl = 0 ∨ 0 < bc ∧ s.heads[bc - 1]? = some hl
  | .DELBUF hl bc => 0 < bc ∧ s.heads[bc - 1]? = some hl
  | .R n _ => n ≤ s.LASTLN
  | .D n₁ n₂ => 0 < n₁ ∧ n₁ ≤ n₂ ∧ n₂ ≤ s.LASTLN
  | .M n₁ n₂ n₃ => (0 < n₁ ∧ n₁ ≤ n₂ ∧ n₂ ≤ s.LASTLN) ∧ 0 < n₃ ∧ n₃ ≤ s.LASTLN ∧ (n₃ < n₁ ∨ n₂ < n₃)
  | .MD n₁ n₂ n₃ => ((0 < n₁ ∧ n₁ ≤ n₂ ∧ n₂ ≤ s.LASTLN) ∧ 0 < n₃ ∧ n₃ ≤ s.LASTLN ∧
      (n₃ < n₁ ∨ n₂ < n₃)) ∧ (n₂ < n₃ → 2 * n₂ < n₁ + n₃)

/-- What a call or a command does to the texts of the lines. -/
def Act.edit (ts : List (List UInt8)) : Act → List (List UInt8)
  | .INSBUF _ de bc => ts.take bc ++ encode 0 0 de :: ts.drop bc
  | .DELBUF _ bc => ts.take (bc - 1) ++ ts.drop bc
  | .R n de => ts.take n ++ de.map (encode 0 0) ++ ts.drop n
  | .D n₁ n₂ => ts.take (n₁ - 1) ++ ts.drop n₂
  | .M n₁ n₂ n₃ => transfer false n₁ n₂ n₃ ts
  | .MD n₁ n₂ n₃ => transfer true n₁ n₂ n₃ ts

/-- A text that is edited, from the empty one on. -/
inductive Session (p : Flat Body) (junk : ℕ → Body) : Ed → Prop
  | empty : Session p junk (Ed.empty p junk)
  | step {s t : Ed} {act : Act} {ans : Ans} (h : Session p junk s) (hready : act.Ready s)
    (hstep : s.step act = some (ans, t)) : Session p junk t

theorem Text.length_le (h : Text s ls) : ls.length ≤ 65536 := by
  obtain ⟨free, hb⟩ := h.books
  have hall := hb.all
  have hsize := h.fits.size
  have hmost := h.fits.most
  have hle : ls.length ≤ ls.flatten.length := by
    have hne : ∀ c ∈ ls, c ≠ [] := fun c hc => (h.chains c hc).1
    clear h hb hall hsize hmost
    induction ls with
    | nil => exact Nat.zero_le _
    | cons c ls ih =>
      obtain ⟨hc, hne⟩ := List.forall_mem_cons.mp hne
      have := List.length_pos_iff.mpr hc
      have := ih hne
      rw [List.flatten_cons, List.length_append, List.length_cons]
      omega
  rw [List.length_append] at hall
  omega

theorem Text.heads (h : Text s ls) : s.heads = ls.map head :=
  h.next.follow (by rw [List.length_map]; exact h.length_le)

theorem Text.lines (h : Text s ls) : s.lines = texts s ls := by
  unfold Ed.lines texts
  rw [h.heads, List.map_map]
  exact List.map_congr_left fun c hc => h.chars hc

theorem recOf_of_heads (h : Text s ls) {hl bc : ℕ} (hpos : 0 < bc) (hr : s.heads[bc - 1]? = some hl) :
    bc ≤ ls.length ∧ hl = recOf ls bc := by
  rw [h.heads] at hr
  have hlt := (List.getElem?_eq_some_iff.mp hr).1
  rw [List.length_map] at hlt
  have hle : bc ≤ ls.length := by omega
  rw [recOf_eq hpos hle] at hr
  exact ⟨hle, (Option.some.inj hr).symm⟩

/-- `INSBUF` puts the line behind that of the record. -/
theorem Valid.step_INSBUF {hl bc : ℕ} {de : List UInt8} (h : Valid s ls) (hbc : bc ≤ ls.length)
    (hhl : hl = recOf ls bc) : ∃ u, s.step (.INSBUF hl de bc) = some u ∧ ∃ ls', Valid u.2 ls' ∧
      (u.1 = .done ∨ u.1 = .overflow ∧ Full u.2.p) ∧
        (u.1 = .done → texts u.2 ls' = Act.edit (texts s ls) (.INSBUF hl de bc)) := by
  obtain ⟨w, hw⟩ : ∃ w, w = INSBUF s hl de bc := ⟨_, rfl⟩
  refine ⟨(if w.1 then .overflow else .done, w.2), by rw [hw]; rfl, ?_⟩
  have hlen : (ls.take bc).length = bc := by rw [List.length_take, Nat.min_eq_left hbc]
  have hv : Valid s (ls.take bc ++ ls.drop bc) := by
    rw [List.take_append_drop]
    exact h
  rcases hv.insert hhl (by rw [hlen]) hw with ⟨hw', hfull⟩ | ⟨c, hv', h₁, h₂, hover, hnew, -, -⟩
  · rw [hw']
    exact ⟨ls, h, Or.inr ⟨rfl, hfull⟩, fun hd => Ans.noConfusion hd⟩
  · refine ⟨_, hv', ?_, fun hd => ?_⟩
    · cases hcy : w.1 with
      | true => exact Or.inr ⟨rfl, hover hcy⟩
      | false => exact Or.inl rfl
    · have hcy : w.1 = false := by
        cases hcy : w.1 with
        | true =>
          rw [hcy] at hd
          exact Ans.noConfusion hd
        | false => rfl
      have hc : texts w.2 (c :: ls.drop bc) = encode 0 0 de :: texts w.2 (ls.drop bc) :=
        congrArg (· :: texts w.2 (ls.drop bc)) (hnew hcy)
      rw [texts_append, hc, h₁, h₂]
      unfold Act.edit texts
      rw [List.map_take, List.map_drop]

theorem Valid.step_DELBUF {hl bc : ℕ} (h : Valid s ls) (hpos : 0 < bc) (hbc : bc ≤ ls.length)
    (hhl : hl = recOf ls bc) : ∃ t, s.step (.DELBUF hl bc) = some (.done, t) ∧ ∃ ls', Valid t ls' ∧
      texts t ls' = Act.edit (texts s ls) (.DELBUF hl bc) := by
  refine ⟨DELBUF s hl bc, rfl, ?_⟩
  have hlt : bc - 1 < ls.length := by omega
  obtain ⟨c, hc⟩ : ∃ c, ls[bc - 1]? = some c := ⟨_, List.getElem?_eq_getElem hlt⟩
  have hsplit : ls = ls.take (bc - 1) ++ c :: ls.drop bc := by
    have hdrop := List.drop_eq_getElem?_toList_append (l := ls) (i := bc - 1)
    rw [hc, Nat.sub_add_cancel hpos] at hdrop
    exact (List.take_append_drop (bc - 1) ls).symm.trans (congrArg (ls.take (bc - 1) ++ ·) hdrop)
  have hhead : hl = head c := by
    have hr := recOf_eq hpos hbc
    rw [List.getElem?_map, hc, ← hhl] at hr
    exact (Option.some.inj hr).symm
  have hlen : (ls.take (bc - 1)).length + 1 = bc := by
    rw [List.length_take]
    omega
  rw [hsplit] at h
  obtain ⟨hv, htexts, -⟩ := h.remove (by rw [hlen]) (by rw [hlen]) (congrArg (DELBUF s · bc) hhead)
  refine ⟨_, hv, ?_⟩
  rw [htexts, texts_append]
  unfold Act.edit texts
  rw [List.map_take, List.map_drop]

theorem Act.spec {act : Act} (h : Valid s ls) (hready : act.Ready s) :
    ∃ u, s.step act = some u ∧ ∃ ls', Valid u.2 ls' ∧
      (u.1 = .done ∨ u.1 = .overflow ∧ Full u.2.p) ∧
        (u.1 = .done → texts u.2 ls' = act.edit (texts s ls)) := by
  have hlast := h.text.last
  cases act with
  | INSBUF hl de bc =>
    rcases hready with ⟨rfl, rfl⟩ | ⟨hpos, hr⟩
    · exact h.step_INSBUF (Nat.zero_le _) rfl
    · obtain ⟨hle, hhl⟩ := recOf_of_heads h.text hpos hr
      exact h.step_INSBUF hle hhl
  | DELBUF hl bc =>
    obtain ⟨hpos, hr⟩ := hready
    obtain ⟨hle, hhl⟩ := recOf_of_heads h.text hpos hr
    obtain ⟨t, hstep, ls', hv, htexts⟩ := h.step_DELBUF hpos hle hhl
    exact ⟨_, hstep, ls', hv, Or.inl rfl, fun _ => htexts⟩
  | R n de => exact CMDR_spec h (hlast ▸ hready)
  | D n₁ n₂ =>
    obtain ⟨hpos, hle, hn⟩ := hready
    obtain ⟨t, hstep, ls', hv, htexts⟩ := CMDD_spec h hpos hle (hlast ▸ hn)
    exact ⟨_, hstep, ls', hv, Or.inl rfl, fun _ => htexts⟩
  | M n₁ n₂ n₃ =>
    obtain ⟨⟨hpos, hle, hn⟩, hpos', hn', hout⟩ := hready
    exact cmdm1_spec h hpos hle (hlast ▸ hn) hpos' (hlast ▸ hn') hout fun ho => Bool.noConfusion ho
  | MD n₁ n₂ n₃ =>
    obtain ⟨⟨⟨hpos, hle, hn⟩, hpos', hn', hout⟩, hfar⟩ := hready
    exact cmdm1_spec h hpos hle (hlast ▸ hn) hpos' (hlast ▸ hn') hout fun _ => hfar

variable {p : Flat Body} {junk : ℕ → Body}

theorem Valid.empty (hf : Fits p) (hz : p.FSTFRE = 0) (hn : p.NBLKS = 0) : Valid (Ed.empty p junk) [] := by
  refine ⟨⟨hf, ⟨[], hz, List.nodup_nil, List.forall_mem_nil _, ?_⟩, List.forall_mem_nil _, rfl, rfl, rfl⟩,
    Or.inl rfl⟩
  change 0 = 32 * p.NBLKS - 1
  rw [hn]

theorem Session.valid (h : Session p junk s) (hf : Fits p) (hz : p.FSTFRE = 0) (hn : p.NBLKS = 0) :
    ∃ ls, Valid s ls := by
  induction h with
  | empty => exact ⟨[], Valid.empty hf hz hn⟩
  | step h hready hstep ih =>
    obtain ⟨ls, hv⟩ := ih
    obtain ⟨u, hu, ls', hv', -⟩ := Act.spec hv hready
    obtain rfl := Option.some.inj (hu.symm.trans hstep)
    exact ⟨ls', hv'⟩

/-- An empty work file of four blocks. -/
def blank : Flat Body := ⟨fun _ => ⟨0, 0, 0, []⟩, 0, 0, 0, 4⟩

/-- The editor when a file with four lines has been read, and then `acts`. -/
def after (acts : List Act) : Option Ed :=
  (Act.R 0 [[0x41], [0x42], [0x43], [0x44]] :: acts).foldlM (fun s act => (s.step act).map Prod.snd)
    (Ed.empty blank fun _ => ⟨0, 0, []⟩)

end RSX280.Ted
