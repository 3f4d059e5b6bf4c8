import SqlLayout.Proofs.Drafting

/-! What the writing keeps. A property of pages that holds after every single step holds after whole
passages, and one of texts that is kept by trimming and joining holds of all lines of a page.
-/

set_option autoImplicit false

namespace SqlLayout

/-- A property of spaces and single marks that is kept by joining and trimming texts. -/
structure Text.Lasting (T : Text → Prop) : Prop where
  nil : T []
  space : T [' ']
  mark : ∀ {c : Char}, Text.isBlank c = false → T [c]
  append : ∀ {s t : Text}, T s → T t → T (s ++ t)
  dropEnd : ∀ {t : Text}, T t → T (Text.dropEndWhile (· == ' ') t)
  trim : ∀ {t : Text}, T t → T (Text.trim t)
  trimEnd : ∀ {t : Text}, T t → T (Text.trimEnd t)

theorem Text.lasting_true : Lasting fun _ => True := by
  constructor <;> intros <;> trivial

namespace Text.Lasting

variable {T : Text → Prop}

theorem spaces (h : Lasting T) (n : Nat) : T (Text.spaces n) := by
  induction n with
  | zero => exact h.nil
  | succ n ih => exact h.append h.space ih

theorem collapse (h : Lasting T) {ls : List Text} (hl : ∀ t ∈ ls, T t) : T (collapse ls) := by
  have hjoin : ∀ us : List Text, (∀ t ∈ us, T t) → T (Text.join [' '] us) := by
    intro us hus
    induction us with
    | nil => exact h.nil
    | cons t us ih =>
      have ht := hus t (by simp)
      have hrest := ih fun u hu => hus u (by simp [hu])
      cases us with
      | nil => simpa [Text.join] using ht
      | cons u us =>
        rw [Text.join, List.intercalate_cons_cons]
        exact h.append (h.append ht h.space) hrest
  refine hjoin _ fun t ht => ?_
  obtain ⟨u, hu, rfl⟩ := List.mem_map.1 (List.mem_filter.1 ht).1
  exact h.trim (hl u hu)

theorem align (h : Lasting T) {ds : List Definition} (hd : ∀ d ∈ ds, T d.name ∧ T d.rest)
    (indent : Nat) : ∀ t ∈ Definition.align ds indent, T t := by
  have hcommas : ∀ ts : List Text, (∀ t ∈ ts, T t) → ∀ t ∈ Definition.withCommas ts, T t := by
    intro ts hts
    induction ts with
    | nil => simp [Definition.withCommas]
    | cons t ts ih =>
      have ht := hts t (by simp)
      cases ts with
      | nil => simpa [Definition.withCommas] using ht
      | cons u ts =>
        exact List.forall_mem_cons.2 ⟨h.append ht (h.mark rfl), ih fun v hv => hts v (by simp [hv])⟩
  refine hcommas _ fun t ht => ?_
  obtain ⟨d, hmem, rfl⟩ := List.mem_map.1 ht
  obtain ⟨hname, hrest⟩ := hd d hmem
  refine h.append (h.append (h.spaces indent) hname) ?_
  split
  · exact h.nil
  · exact h.append (h.spaces _) hrest

end Text.Lasting

namespace Page

variable {T : Text → Prop} {P : Page → Prop} {p : Page}

def Each (T : Text → Prop) (p : Page) : Prop := (∀ t ∈ p.above, T t) ∧ T p.current.reverse

/-- The property is kept by every step that writes a text in `T`. -/
structure Keeps (T : Text → Prop) (P : Page → Prop) : Prop where
  push : ∀ {p : Page} {t : Text}, T t → P p → P (p.push t)
  newline : ∀ {p : Page}, P p → P p.newline
  startLine : ∀ {p : Page} (n : Nat), P p → P (p.startLine n)

theorem indent_eq_push (p : Page) (n : Nat) : p.indent n = p.push (Text.spaces n) := by
  have hink := Text.ink_spaces n
  simp_all [indent, push, Text.spaces]

theorem Keeps.indent (hP : Keeps T P) (hT : Text.Lasting T) (h : P p) (n : Nat) :
    P (p.indent n) := by
  rw [indent_eq_push]
  exact hP.push (hT.spaces n) h

theorem Keeps.pushBelow (hP : Keeps T P) (hT : Text.Lasting T) {ls : List Text}
    (hl : ∀ t ∈ ls, T t) (n : Nat) (h : P p) : P (p.pushBelow n ls) := by
  induction ls generalizing p with
  | nil => exact h
  | cons t ls ih =>
    exact ih (fun u hu => hl u (by simp [hu]))
      (hP.push (hl t (by simp)) (hP.indent hT (hP.newline h) n))

theorem Keeps.pushLines (hP : Keeps T P) (hT : Text.Lasting T) {ls : List Text}
    (hl : ∀ t ∈ ls, T t) (n : Nat) (h : P p) : P (p.pushLines n ls) := by
  cases ls with
  | nil => exact h
  | cons t ls =>
    exact hP.pushBelow hT (fun u hu => hl u (by simp [hu])) n (hP.push (hl t (by simp)) h)

theorem keeps_each (hT : Text.Lasting T) : Keeps T (Each T) := by
  have hnewline : ∀ {p : Page}, p.Each T → p.newline.Each T := fun h => by
    refine ⟨List.forall_mem_cons.2 ⟨?_, h.1⟩, hT.nil⟩
    simpa [Text.dropEndWhile] using hT.dropEnd h.2
  have hpush : ∀ {p : Page} {t : Text}, T t → p.Each T → (p.push t).Each T := fun ht h =>
    ⟨h.1, by simpa [push] using hT.append h.2 ht⟩
  refine ⟨hpush, hnewline, fun n h => ?_⟩
  unfold startLine
  rw [indent_eq_push]
  refine hpush (hT.spaces n) ?_
  split
  · rename_i hs
    rw [clearLine, if_pos hs]
    exact ⟨h.1, hT.nil⟩
  · exact hnewline h

theorem Each.trimmedLines (h : p.Each T) (hT : Text.Lasting T) : ∀ t ∈ p.trimmedLines, T t := by
  have hlines : ∀ t ∈ p.current.reverse :: p.above, T t := List.forall_mem_cons.2 ⟨h.2, h.1⟩
  have hsub := (dropBlank_suffix (p.current.reverse :: p.above)).subset
  intro t ht
  unfold Page.trimmedLines at ht
  split at ht
  · simp at ht
  · rename_i u rest he
    rw [he] at hsub
    rcases (by simpa [or_comm] using ht : t = Text.trimEnd u ∨ t ∈ rest) with rfl | hmem
    · exact hT.trimEnd (hlines u (hsub (by simp)))
    · exact hlines t (hsub (by simp [hmem]))

end Page

namespace Draft

variable {T : Text → Prop} {P : Page → Prop} {o : Options} {flat : Bool} {d inner : Draft}

theorem each_blank (hT : Text.Lasting T) : Draft.blank.page.Each T :=
  ⟨by simp [Draft.blank, Page.blank], hT.nil⟩

theorem each_lines (hT : Text.Lasting T) (h : d.page.Each T) : ∀ t ∈ d.lines, T t := by
  have hlines := h.trimmedLines hT
  unfold Draft.lines
  split
  · intro t ht
    rcases List.mem_append.1 ht with ht | ht
    · exact hlines t ht
    · obtain rfl : t = [] := by simpa using ht
      exact hT.nil
  · exact hlines

theorem keeps_spaceBefore (hP : Page.Keeps T P) (hT : Text.Lasting T) (t : Token) (h : P d.page) :
    P (d.spaceBefore t) := by
  unfold Draft.spaceBefore
  split
  · exact hP.push hT.space h
  · exact h

theorem keeps_word (hP : Page.Keeps T P) (hT : Text.Lasting T) {t : Token}
    (ht : T (t.render o flat d.last)) (h : P d.page) : P (d.word o flat t).page :=
  hP.push ht (keeps_spaceBefore hP hT t h)

theorem keeps_remark (hP : Page.Keeps T P) (hT : Text.Lasting T) {t : Text}
    (ht : T ((Token.lineComment t).render o flat d.last)) (n : Nat) (h : P d.page) :
    P (d.remark o flat t n).page := by
  refine hP.indent hT (hP.newline (hP.push ht ?_)) n
  split
  · exact h
  · exact hP.indent hT (hP.newline h) n

theorem keeps_start (hP : Page.Keeps T P) (hT : Text.Lasting T) (inner : Draft) (h : P d.page) :
    P (inner.first.elim d.page fun t => d.spaceBefore t) := by
  cases inner.first with
  | none => exact h
  | some t => exact keeps_spaceBefore hP hT t h

theorem keeps_setIn (hP : Page.Keeps T P) (hT : Text.Lasting T) (hi : inner.page.Each T)
    (h : P d.page) : P (d.setIn inner).page :=
  hP.pushLines hT (each_lines hT hi) _ (keeps_start hP hT inner h)

theorem keeps_setOnLine (hP : Page.Keeps T P) (hT : Text.Lasting T) (hi : inner.page.Each T)
    (h : P d.page) : P (d.setOnLine inner).page :=
  hP.push (hT.collapse (each_lines hT hi)) (keeps_start hP hT inner h)

end Draft

section

variable {T : Text → Prop} {o : Options}

open Item Draft

mutual

theorem keeps_write (hT : Text.Lasting T) : ∀ (i : Item) (flat : Bool) {P : Page → Prop}
    {d : Draft}, Page.Keeps T P → (∀ m ∈ i.marked flat, ∀ prev, T (m.2.render o m.1 prev)) →
    P d.page → P (i.write o flat d).page
  | .word t, flat, P, d, hP, hm, h => keeps_word hP hT (hm (flat, t) (by simp [marked]) _) h
  | .remark t n, flat, P, d, hP, hm, h =>
    keeps_remark hP hT (hm (flat, .lineComment t) (by simp [marked]) _) n h
  | .newline, _, _, _, hP, _, h => hP.newline h
  | .startLine n, _, _, _, hP, _, h => hP.startLine n h
  | .inset f body, flat, P, d, hP, hm, h =>
    keeps_setIn hP hT (keeps_writeAll hT body (flat || f) (Page.keeps_each hT) hm (each_blank hT)) h
  | .query body, flat, P, d, hP, hm, h => by
    have hbody := keeps_writeAll hT body flat (Page.keeps_each hT) hm (each_blank hT)
    unfold Item.write
    simp only
    split
    · exact keeps_setOnLine hP hT hbody h
    · exact keeps_setIn hP hT hbody h
  | .elements [], _, _, _, _, _, h => h
  | .elements (part :: rest), flat, P, d, hP, hm, h => by
    simp only [marked, partMarked_cons] at hm
    exact keeps_writeElements hT rest flat _ hP (fun m hm' => hm m (by simp [hm']))
      (keeps_writeAll hT part flat hP (fun m hm' => hm m (by simp [hm'])) h)
  | .definitions parts, flat, P, d, hP, hm, h => by
    have hlines := hT.align (keeps_readDefinitions hT parts flat fun part hpart m hm' =>
      hm m (by simp [marked, allMarked_subset flat hpart hm'])) 2
    have hopen : P ((d.startLine 0).word o flat .openParen).page :=
      keeps_word hP hT (hT.mark rfl) (hP.startLine 0 h)
    exact keeps_word hP hT (hT.mark rfl) (hP.startLine 0 (hP.pushBelow hT hlines 0 hopen))

theorem keeps_writeAll (hT : Text.Lasting T) : ∀ (items : List Item) (flat : Bool)
    {P : Page → Prop} {d : Draft}, Page.Keeps T P →
    (∀ m ∈ allMarked flat items, ∀ prev, T (m.2.render o m.1 prev)) →
    P d.page → P (writeAll o flat items d).page
  | [], _, _, _, _, _, h => h
  | i :: rest, flat, P, d, hP, hm, h => by
    simp only [allMarked] at hm
    exact keeps_writeAll hT rest flat hP (fun m hm' => hm m (by simp [hm']))
      (keeps_write hT i flat hP (fun m hm' => hm m (by simp [hm'])) h)

theorem keeps_writeElements (hT : Text.Lasting T) : ∀ (parts : List (List Item)) (flat : Bool)
    (wrap : Option Nat) {P : Page → Prop} {d : Draft}, Page.Keeps T P →
    (∀ m ∈ parts.flatMap fun q => (flat, .comma) :: allMarked flat q, ∀ prev,
      T (m.2.render o m.1 prev)) →
    P d.page → P (writeElements o flat wrap parts d).page
  | [], _, _, _, _, _, _, h => h
  | part :: rest, flat, wrap, P, d, hP, hm, h => by
    simp only [List.flatMap_cons] at hm
    have hcomma : P (d.word o flat .comma).page := keeps_word hP hT (hT.mark rfl) h
    have hstart : P (wrap.elim (d.word o flat .comma) fun n =>
        (d.word o flat .comma).startLine n).page := by
      cases wrap with
      | none => exact hcomma
      | some n => exact hP.startLine n hcomma
    exact keeps_writeElements hT rest flat wrap hP (fun m hm' => hm m (by simp [hm']))
      (keeps_writeAll hT part flat hP (fun m hm' => hm m (by simp [hm'])) hstart)

theorem keeps_readDefinitions (hT : Text.Lasting T) : ∀ (parts : List (List Item)) (flat : Bool),
    (∀ part ∈ parts, ∀ m ∈ allMarked flat part, ∀ prev, T (m.2.render o m.1 prev)) →
    ∀ d ∈ readDefinitions o flat parts, T d.name ∧ T d.rest
  | [], _, _ => by simp [readDefinitions]
  | [] :: rest, flat, hm => by
    have hrest := keeps_readDefinitions hT rest flat fun q hq => hm q (by simp [hq])
    exact List.forall_mem_cons.2 ⟨⟨hT.nil, hT.nil⟩, hrest⟩
  | (name :: more) :: rest, flat, hm => by
    have hrest := keeps_readDefinitions hT rest flat fun q hq => hm q (by simp [hq])
    have hpart := hm (name :: more) (by simp)
    simp only [allMarked] at hpart
    have hname := keeps_write hT name flat (Page.keeps_each hT)
      (fun m hm' => hpart m (by simp [hm'])) (each_blank hT)
    have hmore := keeps_writeAll hT more flat (Page.keeps_each hT)
      (fun m hm' => hpart m (by simp [hm'])) (each_blank hT)
    exact List.forall_mem_cons.2
      ⟨⟨hT.collapse (each_lines hT hname), hT.collapse (each_lines hT hmore)⟩, hrest⟩

end

end

end SqlLayout
