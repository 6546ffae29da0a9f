import RSX280.LinesOps

/-!
# Storing a line (`ted/main.mac`)

`STORE` of a line into the record of another one takes the records of that line first, then new ones, and
frees those that are left over.
-/

namespace RSX280.Ted

open Numbered

variable {s : Ed} {l₁ l₂ : List (List ℕ)} {c c' c₁ c₂ new : List ℕ} {r last : ℕ} {p q : Flat Body} {de : List UInt8}

/-- The records of a line are changed. -/
theorem Text.replace (h : Text s (l₁ ++ c :: l₂)) {t : Ed} (hf : Fits t.p) {free : List ℕ}
    (hb : t.p.Books free (l₁ ++ c' :: l₂).flatten) (hc : c' ≠ [] ∧ Linked t.p.link (head c') c')
    (hhead : head c' = head c) (hkeep : ∀ y ∈ (l₁ ++ l₂).flatten, t.p.recs y = s.p.recs y)
    (hnext : nextOf t.p (head c) = nextOf s.p (head c)) (hprev : prevOf t.p (head c) = prevOf s.p (head c))
    (hfst : t.FSTREC = s.FSTREC) (hlst : t.LSTREC = s.LSTREC) (hln : t.LASTLN = s.LASTLN) :
    Text t (l₁ ++ c' :: l₂) := by
  have hmap : (l₁ ++ c' :: l₂).map head = (l₁ ++ c :: l₂).map head := by
    rw [List.map_append, List.map_append, List.map_cons, List.map_cons, hhead]
  have hother : ∀ d ∈ l₁ ++ l₂, d ∈ l₁ ++ c :: l₂ := fun d hd =>
    List.mem_append.mpr ((List.mem_append.mp hd).imp_right (List.mem_cons_of_mem c))
  have hmem : ∀ y ∈ (l₁ ++ c :: l₂).map head, y = head c ∨ y ∈ (l₁ ++ l₂).flatten := by
    intro y hy
    obtain ⟨d, hd, rfl⟩ := List.mem_map.mp hy
    have hd' : d = c ∨ d ∈ l₁ ++ l₂ := by
      rw [List.mem_append]
      rcases List.mem_append.mp hd with hd | hd
      · exact Or.inr (Or.inl hd)
      · exact (List.mem_cons.mp hd).imp_right Or.inr
    refine hd'.imp (congrArg head) fun hd' => List.mem_flatten.mpr ⟨d, hd', ?_⟩
    cases hd : d with
    | nil => exact absurd hd (h.chains d (hother d hd')).1
    | cons a d => exact List.mem_cons_self
  refine ⟨hf, ⟨free, hb⟩, fun d hd => ?_, ?_, ?_, ?_⟩
  · have hd' : d = c' ∨ d ∈ l₁ ++ l₂ := by
      rw [List.mem_append]
      rcases List.mem_append.mp hd with hd | hd
      · exact Or.inr (Or.inl hd)
      · exact (List.mem_cons.mp hd).imp_right Or.inr
    rcases hd' with rfl | hd'
    · exact hc
    · have hchain := h.chains d (hother d hd')
      exact ⟨hchain.1, hchain.2.congr fun y hy => congrArg Rec.link (hkeep y (List.mem_flatten.mpr ⟨d, hd', hy⟩))⟩
  · rw [hmap, hfst]
    refine h.next.congr fun y hy => ?_
    rcases hmem y hy with rfl | hy
    · exact hnext
    · exact congrArg (fun z => z.rest.next) (hkeep y hy)
  · rw [hmap, hlst]
    refine h.prev.congr fun y hy => ?_
    rcases hmem y (List.mem_reverse.mp hy) with rfl | hy
    · exact hprev
    · exact congrArg (fun z => z.rest.prev) (hkeep y hy)
  · rw [hln, h.last, List.length_append, List.length_append, List.length_cons, List.length_cons]

/-- `sto12` frees the records behind the last one. -/
theorem sto12_spec {free M : List ℕ} (hb : q.Books free (c₂ ++ (r :: c₁ ++ M))) (hf : Fits q)
    (hlink : Linked q.link r (r :: c₁ ++ c₂)) (hlast : (r :: c₁).getLast? = some last) :
    (∃ free', (sto12 q last).Books free' (r :: c₁ ++ M)) ∧ Fits (sto12 q last) ∧
      Linked (sto12 q last).link r (r :: c₁) ∧ (∀ y ∈ M, (sto12 q last).recs y = q.recs y) ∧
        ∀ y ∈ r :: c₁, ((sto12 q last).recs y).rest = (q.recs y).rest := by
  have hcont : (q.recs last).link = c₂.headD 0 := hlink.link_last hlast
  have hmem : last ∈ r :: c₁ := List.mem_of_getLast? hlast
  have hall := (List.nodup_append.mp hb.nodup).2.1
  have hdis : ∀ y ∈ c₂, ∀ z ∈ r :: c₁ ++ M, y ≠ z := (List.nodup_append.mp hall).2.2
  have hnd := (List.nodup_append.mp (List.nodup_append.mp hall).2.1).2.2
  unfold sto12
  dsimp only
  rw [hcont]
  cases c₂ with
  | nil =>
    rw [List.append_nil] at hlink
    exact ⟨⟨free, hb⟩, hf, hlink, fun _ _ => rfl, fun _ _ => rfl⟩
  | cons x c₂ =>
    have hx : x ≠ 0 := hlink.suffix.2.1
    rw [List.headD_cons, if_neg hx]
    have hset : (setLink q last 0).Books free (x :: c₂ ++ (r :: c₁ ++ M)) :=
      hb.set (List.mem_append_right _ (List.mem_append_left _ hmem))
    have hne : ∀ y ∈ x :: c₂, y ≠ last := fun y hy => hdis y hy last (List.mem_append_left _ hmem)
    have hrest : Linked (setLink q last 0).link x (x :: c₂) :=
      Linked.congr hlink.suffix fun y hy => Flat.link_set_of_ne (hne y hy)
    have hsize : (setLink q last 0).NBLKS ≤ 2048 := Nat.le_trans hf.size hf.most
    have hchain := hset.chain hsize hrest
    have hother : ∀ y ∈ r :: c₁ ++ M, ((setLink q last 0).FREREC x).recs y = (setLink q last 0).recs y := fun y hy =>
      Flat.FREREC_other hchain fun hyc => hdis y hyc y hy rfl
    refine ⟨⟨_, hset.release hsize hx hrest⟩, hf.set.FREREC, ?_, fun y hy => ?_, fun y hy => ?_⟩
    · refine hlink.cut (fun y hy hyl => ?_) (fun y hy => ?_) (List.cons_ne_nil r c₁) ?_
      · have hyl : y ≠ last := fun heq => hyl (heq ▸ hlast)
        exact (congrArg Rec.link (hother y (List.mem_append_left _ hy))).trans (Flat.link_set_of_ne hyl)
      · obtain rfl : last = y := Option.some.inj (hlast.symm.trans hy)
        refine (congrArg Rec.link (hother last (List.mem_append_left _ hmem))).trans ?_
        exact congrArg Rec.link set_self
      · exact (List.nodup_append.mp (List.nodup_append.mp hall).2.1).1
    · exact (hother y (List.mem_append_right _ hy)).trans (set_other fun heq => hnd last hmem y hy heq.symm)
    · rw [hother y (List.mem_append_left _ hy)]
      exact field_set Rec.rest rfl

/-- A line is stored in the place of another one. Its records are those that the bytes need. -/
theorem STORE_line (h : Text s (l₁ ++ c :: l₂)) {u} (hu : u = STORE s (head c) de) :
    ∃ c', head c' = head c ∧ Text u.2 (l₁ ++ c' :: l₂) ∧ (∀ d ∈ l₁ ++ l₂, lineText u.2.p d = lineText s.p d) ∧
      (u.1 = true → Full u.2.p) ∧ (u.1 = false → lineText u.2.p c' = encode 0 0 de ∧
        c'.length = 1 + conts 10 (encode 0 0 de).length) := by
  obtain ⟨hnil, hchain⟩ := h.chains c (List.mem_append_right _ List.mem_cons_self)
  obtain ⟨r, c₀, rfl⟩ := List.exists_cons_of_ne_nil hnil
  obtain ⟨free, hb⟩ := h.books
  have hne : ∀ x ∈ encode 0 0 de, x ≠ CR := encode_ne_CR
  have hflat : (l₁ ++ (r :: c₀) :: l₂).flatten.Perm (r :: c₀ ++ (l₁ ++ l₂).flatten) := by
    rw [List.flatten_append, List.flatten_cons, List.flatten_append, ← List.append_assoc, ← List.append_assoc]
    exact List.perm_append_comm.append_right _
  have hmem : ∀ y ∈ r :: c₀, y ∈ (l₁ ++ (r :: c₀) :: l₂).flatten := fun y hy =>
    hflat.mem_iff.mpr (List.mem_append_left _ hy)
  have hr := hmem r List.mem_cons_self
  obtain ⟨c₁, c₂, new, free', rfl, hsto⟩ := sto8_chain (k := c₀)
    (u := sto8 s.junk (setText s.p r []) r 10 (encode 0 0 de ++ [CR]))
    (hb.set hr) h.fits.set hr (fun y hy => hmem y (List.mem_cons_of_mem _ hy)) (hchain.congr fun _ _ => link_setText)
      text_setText hne rfl
  unfold STORE at hu
  rw [show head (r :: (c₁ ++ c₂)) = r from rfl] at hu ⊢
  generalize sto8 s.junk (setText s.p r []) r 10 (encode 0 0 de ++ [CR]) = w at hsto hu
  obtain ⟨cy, q, last⟩ := w
  dsimp only at hu
  -- the records of all lines, those left over first
  have hperm : (new ++ (l₁ ++ (r :: (c₁ ++ c₂)) :: l₂).flatten).Perm (c₂ ++ (r :: (c₁ ++ new) ++ (l₁ ++ l₂).flatten)) := by
    refine (hflat.append_left new).trans (List.perm_iff_count.mpr fun y => ?_)
    simp only [List.count_append, List.count_cons, List.cons_append]
    omega
  have hkeep₁ : ∀ y ∈ (l₁ ++ l₂).flatten, q.recs y = s.p.recs y := by
    intro y hy
    have hdis := (List.nodup_append.mp (List.nodup_append.mp (hb.perm hflat).nodup).2.1).2.2
    have hyr : y ≠ r := fun heq => hdis r List.mem_cons_self y hy heq.symm
    have hyc : y ∉ c₁ := fun hc => hdis y (List.mem_cons_of_mem _ (List.mem_append_left _ hc)) y hy rfl
    exact (hsto.keep y (hflat.mem_iff.mpr (List.mem_append_right _ hy)) hyr hyc).trans (set_other hyr)
  obtain ⟨⟨free'', hbooks⟩, hfits, hlinked, hkeep₂, hrest⟩ :=
    sto12_spec (hsto.books.perm hperm) hsto.fits hsto.linked hsto.last
  -- with no space there is nothing left over
  have hq : (if cy then q else sto12 q last) = sto12 q last := by
    cases hcy : cy with
    | false => rfl
    | true =>
      have hlink : (q.recs last).link = 0 := by
        rw [show (q.recs last).link = c₂.headD 0 from hsto.linked.link_last hsto.last, (hsto.full hcy).1]
        rfl
      exact (if_pos hlink).symm
  rw [hq] at hu
  subst hu
  have hperm' : (r :: (c₁ ++ new) ++ (l₁ ++ l₂).flatten).Perm (l₁ ++ (r :: (c₁ ++ new)) :: l₂).flatten := by
    rw [List.flatten_append, List.flatten_append, List.flatten_cons, ← List.append_assoc, ← List.append_assoc]
    exact List.perm_append_comm.append_right _
  have hbody : ((sto12 q last).recs r).rest = (q.recs r).rest := hrest r List.mem_cons_self
  have hline : ∀ d : List ℕ, (∀ y ∈ d, ((sto12 q last).recs y).rest = (q.recs y).rest) →
      d.flatMap (textOf (sto12 q last)) = d.flatMap (textOf q) := fun d hd =>
    List.flatMap_congr fun y hy => congrArg Body.text (hd y hy)
  refine ⟨r :: (c₁ ++ new), rfl, ?_, fun d hd => ?_, fun hcy => ?_, fun hcy => ⟨?_, ?_⟩⟩
  · refine h.replace hfits (hbooks.perm hperm') ⟨List.cons_ne_nil _ _, hlinked⟩ rfl
      (fun y hy => (hkeep₂ y hy).trans (hkeep₁ y hy)) ?_ ?_ rfl rfl rfl
    · exact (congrArg Body.next hbody).trans (hsto.next.trans next_setText)
    · exact (congrArg Body.prev hbody).trans (hsto.prev.trans prev_setText)
  · unfold lineText
    refine congrArg _ (List.flatMap_congr fun y hy => ?_)
    have hy := List.mem_flatten.mpr ⟨d, hd, hy⟩
    exact congrArg (fun z => z.rest.text) ((hkeep₂ y hy).trans (hkeep₁ y hy))
  · have hfull := (hsto.full hcy).2
    rw [← hq, if_pos hcy]
    exact hfull
  · have hall : ∀ x ∈ encode 0 0 de, decide (x ≠ CR) = true := fun x hx => decide_eq_true (hne x hx)
    unfold lineText
    rw [hline _ hrest]
    rcases hsto.text hcy with ht | ht
    · rw [ht, List.nil_append, List.takeWhile_eq_self_iff]
      exact hall
    · rw [ht, List.nil_append, List.takeWhile_append_of_pos hall]
      exact List.append_nil _
  · rw [List.length_cons, hsto.count hcy, Nat.add_comm]

end RSX280.Ted
