import Mathlib.Algebra.Order.BigOperators.Group.List
import Mathlib.Algebra.Order.Group.Nat
import SqlLayout.Proofs.Rereading

/-! A layout against the tokens that are read from it again. What both count in the text leaves no
room for a token that was not written, and puts each token where it was written.
-/

set_option autoImplicit false

namespace SqlLayout

open Scan

/-- What may have become of a token in a layout: function names may be raised, line comments may
lose the blanks at their end, and strings their line ends. -/
def Token.Match (o : Options) : Token → Token → Prop
  | .identifier t, u => u = .identifier t ∨ o.isFunction t = true ∧ u = .identifier (Text.upper t)
  | .lineComment t, u => u = .lineComment t ∨ u = .lineComment (Text.trimEnd t)
  | .string t, u => u = .string t ∨ u = .string (t.filter fun c => c != '\n' && c != '\r')
  | t, u => u = t

/-- What is counted in a token, wherever it is written. -/
def Token.weight (o : Options) (p : Char → Bool) (t : Token) : Nat :=
  (t.render o false none).countP p

section Weights

variable {o : Options} {p : Char → Bool} {t u : Token} {s : Text}

theorem isBlank_of_stripped (c : Char) (h : (c != '\n' && c != '\r') = false) :
    Text.isBlank c = true := by
  have : c = '\n' ∨ c = '\r' := by
    by_contra hn
    simp_all
  rcases this with rfl | rfl <;> rfl

theorem Fair.count_trimEnd (hp : Fair p) (t : Text) : (Text.trimEnd t).countP p = t.countP p := by
  have hsplit : Text.trimEnd t ++ t.rtakeWhile Text.isBlank = t := by
    rw [Text.trimEnd, Text.dropEndWhile, List.rtakeWhile, ← List.reverse_append,
      List.takeWhile_append_dropWhile, List.reverse_reverse]
  have hcount := congrArg (List.countP p) hsplit
  rw [List.countP_append, hp.count_blank fun c => List.mem_rtakeWhile_imp] at hcount
  exact hcount

theorem count_render (hp : Fair p) (t : Token) (flat : Bool) (prev : Option Token) :
    (t.render o flat prev).countP p = t.weight o p := by
  cases t with
  | keyword k =>
    have hlower : (k.text.map Char.toLower).countP p = k.text.countP p :=
      hp.count_folded (Text.folded_folded _)
    simp only [Token.weight, Token.render]
    split <;> split <;> simp [hlower]
  | string t =>
    simp only [Token.weight, Token.render]
    split
    · simp [hp.count_filter isBlank_of_stripped]
    · rfl
  | _ => rfl

/-- A token counts what it is read from, if no name is raised that is not in the text. -/
theorem count_source (hp : Fair p) (hm : t.Match o u) (hs : u.Source s) (hg : t.isGap = false)
    (hname : ∀ x, t = .identifier x → u = .identifier x → o.isFunction x = true →
      (Text.upper x).countP p = x.countP p) :
    s.countP p ≤ t.weight o p ∧ (p '*' = false → p '/' = false → s.countP p = t.weight o p) := by
  suffices h : s.countP p = t.weight o p ∨ ∃ x, t = .blockComment x ∧ s = ['/', '*'] ++ x by
    rcases h with h | ⟨x, rfl, rfl⟩
    · exact ⟨h.le, fun _ _ => h⟩
    · simp only [Token.weight, Token.render, List.countP_append]
      refine ⟨by omega, fun hstar hslash => ?_⟩
      simp [hstar, hslash]
  cases t with
  | keyword k =>
    obtain rfl : u = .keyword k := hm
    have hlower : (k.text.map Char.toLower).countP p = k.text.countP p :=
      hp.count_folded (Text.folded_folded _)
    rw [hs p hp]
    simp only [Token.weight, Token.render]
    split
    · exact .inl hlower.symm
    · exact .inl rfl
  | identifier x =>
    left
    simp only [Token.weight, Token.render]
    rcases hm with rfl | ⟨hf, rfl⟩
    · cases hs
      split
      · rename_i hf
        exact (hname _ rfl rfl hf).symm
      · rfl
    · cases hs
      rw [if_pos hf]
  | string x =>
    left
    rcases hm with rfl | rfl
    · cases hs
      rfl
    · cases hs
      exact hp.count_filter isBlank_of_stripped
  | lineComment x =>
    left
    simp only [Token.weight, Token.render, List.countP_append, hp.count_trimEnd]
    rcases hm with rfl | rfl
    · obtain rfl : s = ['-', '-'] ++ x := hs
      rw [List.countP_append]
    · obtain rfl : s = ['-', '-'] ++ Text.trimEnd x := hs
      rw [List.countP_append, hp.count_trimEnd]
  | blockComment x =>
    obtain rfl : u = .blockComment x := hm
    rcases hs with rfl | rfl
    · exact .inl rfl
    · exact .inr ⟨x, rfl, rfl⟩
  | gap x => simp [Token.isGap] at hg
  | _ =>
    cases hm
    cases hs
    exact .inl rfl

end Weights

section Sums

theorem forall₂_comp {α β γ : Type} {r : α → β → Prop} {q : β → γ → Prop} {as : List α}
    {bs : List β} {cs : List γ} (h : List.Forall₂ r as bs) (h' : List.Forall₂ q bs cs) :
    List.Forall₂ (fun a c => ∃ b, r a b ∧ q b c) as cs := by
  induction h generalizing cs with
  | nil => cases h'; exact .nil
  | cons hr _ ih =>
    cases h' with
    | cons hq h' => exact .cons ⟨_, hr, hq⟩ (ih h')

variable {α β : Type} {r : α → β → Prop} {v : α → Nat} {w : β → Nat}

theorem eq_of_sum {as : List α} {bs : List β} (h : List.Forall₂ r as bs)
    (hle : ∀ a b, r a b → v a ≤ w b) (hsum : (bs.map w).sum ≤ (as.map v).sum) :
    List.Forall₂ (fun a b => r a b ∧ v a = w b) as bs := by
  induction h with
  | nil => exact .nil
  | @cons a b as bs hab h ih =>
    have hhead := hle _ _ hab
    have htail := (List.forall₂_map_left_iff.2 (List.forall₂_map_right_iff.2 (h.imp hle))).sum_le_sum
    simp only [List.map_cons, List.sum_cons] at hsum
    exact .cons ⟨hab, by omega⟩ (ih (by omega))

theorem sum_eq_sum {as : List α} {bs : List β} (h : List.Forall₂ r as bs)
    (heq : ∀ a b, r a b → v a = w b) : (as.map v).sum = (bs.map w).sum := by
  induction h with
  | nil => rfl
  | cons hab _ ih => simp [heq _ _ hab, ih]

theorem sublist_sum [DecidableEq α] {as bs : List α} (h : as.Sublist bs) (a : α) :
    (as.map v).sum + bs.count a * v a ≤ (bs.map v).sum + as.count a * v a := by
  induction h with
  | slnil => simp
  | @cons as bs b _ ih =>
    simp only [List.map_cons, List.sum_cons, List.count_cons]
    split
    · rename_i hb
      obtain rfl : b = a := by simpa using hb
      rw [Nat.add_mul]
      omega
    · rw [Nat.add_zero]
      omega
  | @cons_cons as bs b _ ih =>
    simp only [List.map_cons, List.sum_cons, List.count_cons]
    split
    · rw [Nat.add_mul, Nat.add_mul]
      omega
    · rw [Nat.add_zero, Nat.add_zero]
      omega

end Sums

theorem Kept.eq_of_weight {ts us : List Token} (h : Kept ts us) {w : Token → Nat}
    (hend : 0 < w (.keyword .END)) (hw : (ts.map w).sum ≤ (us.map w).sum) : us = ts := by
  rcases h.whole with he | hlt
  · exact he
  · have hsum := sublist_sum (v := w) h.sublist (.keyword .END)
    have hmul := Nat.mul_lt_mul_of_pos_right hlt hend
    omega

def isInk (c : Char) : Bool := !Text.isBlank c

theorem fair_isInk : Fair isInk where
  blank h := by simp [isInk, h]
  lower c := by rw [isInk, isInk, Text.isBlank_toLower]

def isForeign (c : Char) : Bool := !Text.isAscii c && !Text.isBlank c

theorem fair_isForeign : Fair isForeign where
  blank h := by simp [isForeign, h]
  lower c := by
    have h := Text.toNat_toLower c
    have hascii : Text.isAscii c.toLower = Text.isAscii c := by
      rw [Bool.eq_iff_iff]
      simp only [Text.isAscii, decide_eq_true_eq]
      split at h <;> omega
    rw [isForeign, isForeign, hascii, Text.isBlank_toLower]

theorem fair_isAlpha : Fair Char.isAlpha where
  blank {c} h := by
    rw [← Bool.not_eq_true, isAlpha_iff]
    simp only [Text.isBlank, Bool.or_eq_true, Bool.and_eq_true, decide_eq_true_eq, beq_iff_eq] at h
    omega
  lower c := by
    have h := Text.toNat_toLower c
    rw [Bool.eq_iff_iff, isAlpha_iff, isAlpha_iff]
    split at h <;> omega

theorem Text.Solid.align {g g' r r' x x' : Text} (hr : Solid r) (hr' : Solid r')
    (hg : ∀ c ∈ g, isBlank c = true) (hg' : ∀ c ∈ g', isBlank c = true)
    (hink : r.countP isInk = r'.countP isInk)
    (h : g ++ r ++ x = g' ++ r' ++ x') : r = r' ∧ x = x' := by
  have hext : ∀ {r a : Text}, Solid (r ++ a) →
      r.countP isInk = (r ++ a).countP isInk → a = [] := by
    intro r a hs hcount
    by_contra hne
    obtain ⟨b, c, hbc⟩ : ∃ b c, a = b ++ [c] := by
      rcases List.eq_nil_or_concat a with rfl | ⟨b, c, hbc⟩
      · exact absurd rfl hne
      · exact ⟨b, c, by simpa using hbc⟩
    subst hbc
    have hc : isBlank c = false := by
      have := hs.2
      rw [← List.append_assoc, List.getLast?_concat] at this
      simpa using this
    simp [List.countP_append, isInk, hc] at hcount
  have hdrop : r ++ x = r' ++ x' := by
    have := congrArg (List.dropWhile isBlank) h
    rwa [List.append_assoc, List.append_assoc, List.dropWhile_append_of_pos hg, List.dropWhile_append_of_pos hg',
      hr.dropWhile, hr'.dropWhile] at this
  rcases List.append_eq_append_iff.1 hdrop with ⟨a, rfl, hx⟩ | ⟨a, rfl, hx⟩
  · obtain rfl := hext hr' hink
    simpa using hx
  · obtain rfl := hext hr hink.symm
    simpa using hx.symm

/-- Two readings of a text agree, if their cells have as much to see. -/
theorem Line.align {prev prev' : Option Token} {a b : List Cell} {x : Text}
    (h : Line .loose prev a x) (h' : Line .loose prev' b x)
    (hab : List.Forall₂ (fun c d : Cell => c.2.countP isInk = d.2.countP isInk) a b) :
    a.map Prod.snd = b.map Prod.snd := by
  induction h generalizing prev' b with
  | done => cases hab; rfl
  | @cell prev g x c cs hg hc h ih =>
    cases hab with
    | @cons _ d _ ds hcd hrest =>
      generalize hx : g ++ c.2 ++ x = y at h'
      cases h' with
      | @cell _ g' x' _ _ hg' hd h' =>
        obtain ⟨he, rfl⟩ := hc.align hd hg.1 hg'.1 hcd hx
        rw [List.map_cons, List.map_cons, he, ih h' hrest]

theorem isBlankText_iff (t : Text) : Text.isBlankText t = true ↔ t.countP isInk = 0 := by
  simp [Text.isBlankText, isInk, List.countP_eq_zero]

theorem isBlankText_congr {s t : Text} (h : s.countP isInk = t.countP isInk) :
    Text.isBlankText s = Text.isBlankText t := by
  rw [Bool.eq_iff_iff, isBlankText_iff, isBlankText_iff, h]

theorem trim_of_align {a b : List Cell} {x : Text} (h : Line .loose none (inked a) x)
    (h' : Line .loose none (inked b) x)
    (hab : List.Forall₂ (fun c d : Cell => c.2.countP isInk = d.2.countP isInk) a b) :
    List.Forall₂ (fun c d : Cell => Text.trim c.2 = Text.trim d.2) a b := by
  have hinked : List.Forall₂ (fun c d : Cell => c.2.countP isInk = d.2.countP isInk)
      (inked a) (inked b) := by
    clear h h'
    induction hab with
    | nil => exact .nil
    | @cons c d a b hcd _ ih =>
      have hblank := isBlankText_congr hcd
      cases hb : Text.isBlankText c.2 with
      | true => simpa [inked, hb, ← hblank] using ih
      | false =>
        have := List.Forall₂.cons (R := fun c d : Cell => c.2.countP isInk = d.2.countP isInk)
          (a := (c.1, Text.trim c.2)) (b := (d.1, Text.trim d.2))
          (by simp [fair_isInk.count_trim, hcd]) ih
        simpa [inked, hb, ← hblank] using this
  have htexts := h.align h' hinked
  clear h h' hinked
  induction hab with
  | nil => exact .nil
  | @cons c d a b hcd _ ih =>
    have hblank := isBlankText_congr hcd
    cases hb : Text.isBlankText c.2 with
    | true =>
      refine .cons ?_ (ih (by simpa [inked, hb, ← hblank] using htexts))
      rw [Text.trim_of_blank hb, Text.trim_of_blank (hblank ▸ hb)]
    | false =>
      have : Text.trim c.2 = Text.trim d.2 ∧ (inked a).map Prod.snd = (inked b).map Prod.snd := by
        simpa [inked, hb, ← hblank] using htexts
      exact .cons this.1 (ih this.2)

def Options.Ascii (o : Options) : Prop := ∀ t ∈ o.functions, ∀ c ∈ t, Text.isAscii c = true

theorem Options.Ascii.upper {o : Options} (h : o.Ascii) {t : Text} (ht : o.isFunction t = true) :
    ∀ c ∈ Text.upper t, Text.isAscii c = true := by
  refine h _ ?_
  simpa using (by simpa [Options.isFunction] using ht : _ ∧ _).2

def ReadFrom (o : Options) (t : Token) (c : Cell) : Prop :=
  t.Match o c.1 ∧ c.1.isGap = false ∧ c.1.Source c.2

namespace ReadFrom

variable {o : Options} {t : Token} {c : Cell} {p : Char → Bool}

theorem not_gap (h : ReadFrom o t c) : t.isGap = false := by
  cases t with
  | gap x =>
    have hc : c.1 = .gap x := h.1
    have := h.2.1
    simp [hc, Token.isGap] at this
  | _ => rfl

theorem foreign_le (h : ReadFrom o t c) (ho : o.Ascii) :
    t.weight o isForeign ≤ c.2.countP isForeign := by
  by_cases hname : ∃ x, t = .identifier x ∧ o.isFunction x = true
  · obtain ⟨x, rfl, hf⟩ := hname
    have hzero : (Token.identifier x).weight o isForeign = 0 := by
      rw [Token.weight, Token.render, if_pos hf]
      exact List.countP_eq_zero.2 fun d hd => by simp [isForeign, ho.upper hf d hd]
    omega
  · have hsource := (count_source fair_isForeign h.1 h.2.2 h.not_gap fun x hx _ hf =>
      absurd ⟨x, hx, hf⟩ hname).2 rfl rfl
    exact hsource.ge

theorem count_upper (h : ReadFrom o t c) (ho : o.Ascii)
    (hforeign : t.weight o isForeign = c.2.countP isForeign) (hp : Fair p) :
    ∀ x, t = .identifier x → c.1 = .identifier x → o.isFunction x = true →
      (Text.upper x).countP p = x.countP p := by
  rintro x rfl hc hf
  have hsource := h.2.2
  rw [hc] at hsource
  have hx : c.2 = x := hsource
  rw [hx, Token.weight, Token.render, if_pos hf] at hforeign
  have hzero : (Text.upper x).countP isForeign = 0 :=
    List.countP_eq_zero.2 fun d hd => by simp [isForeign, ho.upper hf d hd]
  have hascii := Text.ascii_of_upper (ho.upper hf) fun d hd => by
    have := List.countP_eq_zero.1 (hforeign.symm.trans hzero) d hd
    cases ha : Text.isAscii d <;> simp_all [isForeign]
  rw [Text.upper_ascii hascii]
  exact hp.count_folded (Text.folded_toUpper x)

end ReadFrom

theorem Kept.weight_le {ts us : List Token} (h : Kept ts us) (w : Token → Nat) :
    (us.map w).sum ≤ (ts.map w).sum := by
  have hsum := sublist_sum (v := w) h.sublist .comma
  have hmul := Nat.mul_le_mul_right (w .comma) (h.sublist.count_le .comma)
  omega

theorem count_rendered {o : Options} {p : Char → Bool} (hp : Fair p) {ms : List (Bool × Token)}
    {cs : List Cell} (h : List.Forall₂ (Rendered o) ms cs) :
    countCells p cs = ((ms.map Prod.snd).map (Token.weight o p)).sum := by
  induction h with
  | nil => rfl
  | cons hm _ ih =>
    obtain ⟨-, prev, hr⟩ := hm
    simp only [countCells, List.map_cons, List.sum_cons] at ih ⊢
    rw [hr, count_render hp, ih]

theorem line_layout {o : Options} {limit room : Nat} {ts : List Token} {items : List Item}
    (h : arrange limit room .statement ts = .ok items) :
    Kept ts (Item.allTokens items) ∧ ∃ cs,
      List.Forall₂ (Rendered o) (Item.allMarked false items) cs ∧
        Line .loose none (inked cs) (writeAll o false items .blank).text := by
  have hadmits : Rule.loose.Admits o (Item.allMarked false items) :=
    ⟨.inl rfl, fun _ _ _ => Rule.loose_takes _⟩
  obtain ⟨cs, hcs, hrows⟩ := rows_writeAll h hadmits
  exact ⟨(sane_arrange h).kept, cs, hcs, hrows.text rfl rfl⟩

/-- A layout that matches its tokens when it is read again wrote all of them, and each is read from
where it was written. -/
theorem whole_of_match {o : Options} (ho : o.Ascii) {limit room : Nat} {ts : List Token}
    {items : List Item} {out : Text} (hitems : arrange limit room .statement ts = .ok items)
    (hout : out = (writeAll o false items .blank).text)
    (hmatch : List.Forall₂ (Token.Match o) ts (solid (tokenize out))) :
    Item.allTokens items = ts ∧ List.Forall₂ (fun (m : Bool × Token) (u : Token) =>
      ∃ prev s, u.Source s ∧ Text.trim (m.2.render o m.1 prev) = Text.trim s)
        (Item.allMarked false items) (solid (tokenize out)) := by
  obtain ⟨hkept, cs, hcs, hline⟩ := line_layout (o := o) hitems
  rw [← hout] at hline
  obtain ⟨ds, hds, hline'⟩ := line_tokenize out
  have hread : List.Forall₂ (ReadFrom o) ts ds :=
    (forall₂_comp hmatch hds).imp fun t c h => by
      obtain ⟨u, hm, rfl, hg, hs⟩ := h
      exact ⟨hm, hg, hs⟩
  -- the text counts what was written, and also what is read from it
  have hcount : ∀ {p : Char → Bool}, Fair p →
      ((Item.allTokens items).map (Token.weight o p)).sum = countCells p ds := by
    intro p hp
    rw [← Item.map_allMarked false, ← count_rendered hp hcs, ← countCells_inked hp cs,
      ← countCells_inked hp ds, ← hline.count hp, hline'.count hp]
  have hforeign := eq_of_sum hread (v := Token.weight o isForeign)
    (w := fun d => d.2.countP isForeign) (fun t c h => h.foreign_le ho) (by
      have hle := hkept.weight_le (Token.weight o isForeign)
      rw [hcount fair_isForeign] at hle
      exact hle)
  have hletters := sum_eq_sum hforeign (v := Token.weight o Char.isAlpha)
    (w := fun d => d.2.countP Char.isAlpha) fun t c h => by
      obtain ⟨h, hf⟩ := h
      exact ((count_source fair_isAlpha h.1 h.2.2 h.not_gap (h.count_upper ho hf fair_isAlpha)).2
        rfl rfl).symm
  have hwhole : Item.allTokens items = ts := by
    refine hkept.eq_of_weight (w := Token.weight o Char.isAlpha) ?_ ?_
    · simp only [Token.weight, Token.render]
      split <;> decide
    · rw [hletters, hcount fair_isAlpha]
      rfl
  refine ⟨hwhole, ?_⟩
  have hink := eq_of_sum hforeign.flip (v := fun d => d.2.countP isInk)
    (w := Token.weight o isInk) (fun c t h => by
      obtain ⟨h, hf⟩ := h
      exact (count_source fair_isInk h.1 h.2.2 h.not_gap (h.count_upper ho hf fair_isInk)).1) (by
      rw [← hwhole, hcount fair_isInk]
      rfl)
  rw [← hwhole, ← Item.map_allMarked false, List.forall₂_map_right_iff] at hink
  have hsame : List.Forall₂ (fun c d : Cell => c.2.countP isInk = d.2.countP isInk) cs ds :=
    (forall₂_comp hcs.flip hink.flip).imp fun c d h => by
      obtain ⟨m, ⟨_, _, hr⟩, _, he⟩ := h
      rw [hr, count_render fair_isInk, he]
  have htrim := forall₂_comp hcs (forall₂_comp (trim_of_align hline hline' hsame) hds.flip)
  refine htrim.imp fun m u h => ?_
  obtain ⟨c, ⟨_, prev, hr⟩, d, ht, _, _, hs⟩ := h
  exact ⟨prev, d.2, hs, by rw [← hr, ht]⟩

end SqlLayout
