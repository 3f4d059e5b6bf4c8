import SqlLayout.Proofs.LayoutComparison
import SqlLayout.Proofs.PageInk

/-! The length up to which a query goes on one line. A higher limit makes spaces of line ends and
changes nothing else: what is written behind a query does not depend on how the query is laid out.
-/

set_option autoImplicit false

namespace SqlLayout

def Gap.Eases (g h : Gap) : Prop := g = h ∨ g.isAcross = true ∧ h = .within [' ']

theorem Gap.Eases.text {g h : Gap} (hg : g.Eases h) : g.text = h.text := by
  rcases hg with rfl | ⟨hacross, rfl⟩
  · rfl
  · cases g with
    | within t => simp [Gap.isAcross] at hacross
    | across n m => rfl

theorem Gap.Eases.breaks_le {g h : Gap} (hg : g.Eases h) : h.breaks ≤ g.breaks := by
  rcases hg with rfl | ⟨-, rfl⟩
  · exact le_rfl
  · exact Nat.zero_le _

theorem Gap.eases_within (g : Gap) : g.Eases (.within g.text) := by
  cases g with
  | within t => exact .inl rfl
  | across n m => exact .inr ⟨rfl, rfl⟩

namespace Ribbon

def EasesCells (cs ds : List (Gap × Char)) : Prop :=
  List.Forall₂ (fun x y => x.1.Eases y.1 ∧ x.2 = y.2) cs ds

section Cells

variable {cs ds : List (Gap × Char)}

theorem EasesCells.chars_eq (h : EasesCells cs ds) : cs.map Prod.snd = ds.map Prod.snd := by
  induction h with
  | nil => rfl
  | cons hxy _ ih => rw [List.map_cons, List.map_cons, hxy.2, ih]

theorem EasesCells.spell_eq (h : EasesCells cs ds) : spell cs = spell ds := by
  induction h with
  | nil => rfl
  | cons hxy _ ih => rw [spell_cons, spell_cons, hxy.1.text, hxy.2, ih]

theorem EasesCells.squeeze_eq (h : EasesCells cs ds) : squeeze cs = squeeze ds := by
  cases h with
  | nil => rfl
  | cons hxy h => rw [squeeze, squeeze, hxy.2, spell_eq h]

theorem EasesCells.breaks_le (h : EasesCells cs ds) :
    (ds.map fun x => x.1.breaks).sum ≤ (cs.map fun x => x.1.breaks).sum := by
  induction h with
  | nil => exact le_rfl
  | cons hxy _ ih => simpa using Nat.add_le_add hxy.1.breaks_le ih

end Cells

/-- The same characters, with gaps that are eased between them and the same gaps around them. -/
structure Eases (r s : Ribbon) : Prop where
  cells : EasesCells r.cells s.cells
  first : r.cells.head? = s.cells.head?
  tail : r.tail = s.tail

variable {r s u v : Ribbon}

theorem Eases.refl (r : Ribbon) : r.Eases r :=
  ⟨List.forall₂_same.2 fun _ _ => ⟨.inl rfl, rfl⟩, rfl, rfl⟩

theorem Eases.append (h : r.Eases s) (h' : u.Eases v) : (r ++ u).Eases (s ++ v) := by
  obtain ⟨cs, g⟩ := u
  obtain ⟨ds, k⟩ := v
  obtain ⟨hcells, hfirst, htail⟩ := h'
  obtain rfl : g = k := htail
  cases hcells with
  | nil => exact ⟨h.cells, h.first, by rw [append_gap, append_gap, h.tail]⟩
  | @cons x y cs ds hxy hrest =>
    obtain ⟨g', c⟩ := x
    obtain ⟨k', d⟩ := y
    -- the gap where the two meet is made of two gaps that are the same in both
    obtain ⟨rfl, rfl⟩ : g' = k' ∧ c = d := by simpa using hfirst
    rw [append_cells, append_cells, h.tail]
    refine ⟨List.rel_append h.cells (.cons ⟨.inl rfl, rfl⟩ hrest), ?_, rfl⟩
    simp [List.head?_append, h.first]

theorem eases_squeeze (hr : r.Made Gap.Blank) {c : Char} {cs : List (Gap × Char)}
    (hfirst : r.cells = (.within [], c) :: cs) :
    Eases ⟨r.cells, .within []⟩ (ofText (squeeze r.cells)) := by
  have hspell : squeeze r.cells = spell r.cells := by rw [hfirst]; rfl
  rw [hspell, ofText_spell hr.cells]
  refine ⟨?_, by simp [hfirst, Gap.text], rfl⟩
  refine List.forall₂_map_right_iff.2 (List.forall₂_same.2 fun x _ => ⟨?_, rfl⟩)
  exact Gap.eases_within x.1

end Ribbon

structure Page.Eases (p q : Page) : Prop where
  ribbon : p.ribbon.Eases q.ribbon
  counted : p.Counted ∧ q.Counted

namespace Page.Eases

open Ribbon

variable {p q : Page} {ls ms : List Text}

theorem ink_eq (h : p.Eases q) : p.ink = q.ink := by
  have hlength : p.ribbon.cells.length = q.ribbon.cells.length := h.ribbon.cells.length_eq
  rw [h.counted.1, h.counted.2, hlength]

theorem atLineStart_eq (h : p.Eases q) : p.atLineStart = q.atLineStart := by
  have hempty : p.ribbon.cells.isEmpty = q.ribbon.cells.isEmpty := by
    rw [Bool.eq_iff_iff, List.isEmpty_iff_length_eq_zero, List.isEmpty_iff_length_eq_zero,
      h.ribbon.cells.length_eq]
  rw [Page.atLineStart_eq, Page.atLineStart_eq, h.ribbon.tail, hempty]

theorem push (h : p.Eases q) (t : Text) : (p.push t).Eases (q.push t) where
  ribbon := by
    rw [ribbon_push, ribbon_push]
    exact h.ribbon.append (.refl _)
  counted := ⟨h.counted.1.push t, h.counted.2.push t⟩

theorem newline (h : p.Eases q) : p.newline.Eases q.newline where
  ribbon := by
    rw [ribbon_newline, ribbon_newline]
    exact h.ribbon.append (.refl _)
  counted := ⟨h.counted.1.newline, h.counted.2.newline⟩

theorem newline_indent (h : p.Eases q) (n m : Nat) :
    (p.newline.indent n).Eases (q.newline.indent m) where
  ribbon := by
    rw [ribbon_newline_indent, ribbon_newline_indent]
    exact h.ribbon.append (.refl _)
  counted := ⟨h.counted.1.newline.indent n, h.counted.2.newline.indent m⟩

theorem startLine (h : p.Eases q) (n : Nat) : (p.startLine n).Eases (q.startLine n) where
  ribbon := by
    unfold Page.startLine
    rw [h.atLineStart_eq]
    split
    · rename_i hq
      have hp : p.atLineStart = true := by rw [h.atLineStart_eq, hq]
      rw [ribbon_indent, ribbon_indent, ribbon_clearLine p hp, ribbon_clearLine q hq]
      refine Eases.append ⟨h.ribbon.cells, h.ribbon.first, ?_⟩ (.refl _)
      rw [h.ribbon.tail]
    · exact (h.newline_indent n n).ribbon
  counted := ⟨h.counted.1.startLine n, h.counted.2.startLine n⟩

theorem pushBelow (h : p.Eases q) (n : Nat) (ls : List Text) :
    (p.pushBelow n ls).Eases (q.pushBelow n ls) := by
  induction ls generalizing p q with
  | nil => exact h
  | cons t ls ih => exact ih ((h.newline_indent n n).push t)

theorem pushLines (h : p.Eases q) (n m : Nat) (hl : (ofLines ls).Eases (ofLines ms)) :
    (p.pushLines n ls).Eases (q.pushLines m ms) where
  ribbon := by
    rw [ribbon_pushLines, ribbon_pushLines]
    exact h.ribbon.append hl
  counted := ⟨h.counted.1.pushLines n ls, h.counted.2.pushLines m ms⟩

end Page.Eases

structure Draft.Eases (d e : Draft) : Prop where
  page : d.page.Eases e.page
  first : d.first = e.first
  last : d.last = e.last
  remarked : d.remarked = e.remarked
  /-- A draft without line comments does not end with one. -/
  ends : d.remarked = false → d.last.any Token.isRemark = false

namespace Draft.Eases

open Ribbon Page

variable {o : Options} {flat : Bool} {d e i j : Draft} {m n : Nat}

theorem blank : Draft.blank.Eases .blank :=
  ⟨⟨.refl _, rfl, rfl⟩, rfl, rfl, rfl, fun _ => rfl⟩

theorem spaceBefore (h : d.Eases e) (t : Token) : (d.spaceBefore t).Eases (e.spaceBefore t) := by
  unfold Draft.spaceBefore
  rw [h.last, h.page.atLineStart_eq]
  split
  · exact h.page.push _
  · exact h.page

theorem render_eq (o : Options) (m n : Nat) (flat : Bool) (prev : Option Token) (t : Token) :
    t.render { o with subselectLimit := m } flat prev =
      t.render { o with subselectLimit := n } flat prev := by
  cases t <;> rfl

theorem word (h : d.Eases e) (flat : Bool) {t : Token} (ht : t.isRemark = false) :
    (d.word { o with subselectLimit := m } flat t).Eases
      (e.word { o with subselectLimit := n } flat t) where
  page := by
    simp only [Draft.word]
    rw [h.last, render_eq o m n]
    exact (h.spaceBefore t).push _
  first := by simp [Draft.word, h.first]
  last := rfl
  remarked := h.remarked
  ends _ := ht

theorem remark (h : d.Eases e) (flat : Bool) (t : Text) (k : Nat) :
    (d.remark { o with subselectLimit := m } flat t k).Eases
      (e.remark { o with subselectLimit := n } flat t k) where
  page := by
    refine (Page.Eases.push ?_ _).newline_indent k k
    rw [h.page.atLineStart_eq]
    split
    · exact h.page
    · exact h.page.newline_indent k k
  first := by simp [Draft.remark, h.first]
  last := rfl
  remarked := rfl
  ends := by simp [Draft.remark]

theorem startLine (h : d.Eases e) (k : Nat) : (d.startLine k).Eases (e.startLine k) :=
  ⟨h.page.startLine k, h.first, h.last, h.remarked, h.ends⟩

theorem wrap (h : d.Eases e) (flat : Bool) (k l : Nat) :
    ((d.word { o with subselectLimit := m } flat .comma).startLine k).Eases
      ((e.word { o with subselectLimit := n } flat .comma).startLine l) := by
  have hword : (d.word { o with subselectLimit := m } flat .comma).Eases
      (e.word { o with subselectLimit := n } flat .comma) := h.word flat rfl
  have hink : ∀ (d : Draft) (o : Options), (d.word o flat .comma).page.atLineStart = false := by
    intro d o
    simp [Draft.word, Page.push, Token.render, Page.atLineStart, Text.isBlankText, Text.isBlank]
  refine ⟨?_, hword.first, hword.last, hword.remarked, hword.ends⟩
  simp only [Draft.startLine, Page.startLine, hink, Bool.false_eq_true, if_false]
  exact hword.page.newline_indent k l

theorem ofLines_lines (d : Draft) : ofLines d.lines =
    ⟨d.page.ribbon.cells, if d.last.any Token.isRemark then .across 1 0 else .within []⟩ := by
  have hlines := d.page.ofLines_trimmedLines
  unfold Draft.lines
  split
  · rename_i t hlast
    rw [ofLines_snoc d.page.trimmedLines_ne_nil, hlines, hlast]
    rfl
  · rename_i hlast
    have hremark : d.last.any Token.isRemark = false := by
      cases hd : d.last with
      | none => rfl
      | some t => cases t <;> first | rfl | exact absurd hd (hlast _)
    rw [hlines, hremark]
    rfl

theorem lines (h : i.Eases j) : (ofLines i.lines).Eases (ofLines j.lines) := by
  rw [ofLines_lines, ofLines_lines, h.last]
  exact ⟨h.page.ribbon.cells, h.page.ribbon.first, rfl⟩

theorem collapse_eq (h : i.Eases j) : collapse i.lines = collapse j.lines := by
  rw [← squeeze_ofLines, ← squeeze_ofLines, h.lines.cells.squeeze_eq]

theorem start (h : d.Eases e) (hi : i.Eases j) :
    (i.first.elim d.page fun t => d.spaceBefore t).Eases
      (j.first.elim e.page fun t => e.spaceBefore t) := by
  rw [hi.first]
  cases j.first with
  | none => exact h.page
  | some t => exact h.spaceBefore t

theorem ends_setIn (h : d.Eases e) (hi : i.Eases j) (hr : (d.remarked || i.remarked) = false) :
    (i.last <|> d.last).any Token.isRemark = false := by
  obtain ⟨hd, hi'⟩ := Bool.or_eq_false_iff.1 hr
  cases hlast : i.last with
  | none => exact h.ends hd
  | some t => simpa [hlast] using hi.ends hi'

theorem setIn (h : d.Eases e) (hi : i.Eases j) : (d.setIn i).Eases (e.setIn j) where
  page := (h.start hi).pushLines _ _ hi.lines
  first := by simp [Draft.setIn, h.first, hi.first]
  last := by simp [Draft.setIn, h.last, hi.last]
  remarked := by simp [Draft.setIn, h.remarked, hi.remarked]
  ends := h.ends_setIn hi

theorem setOnLine (h : d.Eases e) (hi : i.Eases j) : (d.setOnLine i).Eases (e.setOnLine j) where
  page := by
    simp only [Draft.setOnLine, hi.collapse_eq]
    exact (h.start hi).push _
  first := by simp [Draft.setOnLine, h.first, hi.first]
  last := by simp [Draft.setOnLine, h.last, hi.last]
  remarked := by simp [Draft.setOnLine, h.remarked, hi.remarked]
  ends := h.ends_setIn hi

/-- A passage that begins at the margin and has no line comments may go on one line. -/
theorem setIn_setOnLine (h : d.Eases e) (hi : i.Eases j) (hr : i.remarked = false) {c : Char}
    {cs : List (Gap × Char)} (hfirst : i.page.ribbon.cells = (.within [], c) :: cs) :
    (d.setIn i).Eases (e.setOnLine j) where
  page := by
    have hstart := h.start hi
    have hlines : ofLines i.lines = ⟨i.page.ribbon.cells, .within []⟩ := by
      rw [ofLines_lines, hi.ends hr]
      rfl
    have hcollapse : collapse j.lines = squeeze i.page.ribbon.cells := by
      rw [← hi.collapse_eq, ← squeeze_ofLines, hlines]
    refine ⟨?_, hstart.counted.1.pushLines _ _, hstart.counted.2.push _⟩
    simp only [Draft.setIn, Draft.setOnLine]
    rw [ribbon_pushLines, ribbon_push, hlines, hcollapse]
    exact hstart.ribbon.append (eases_squeeze i.page.clean_ribbon hfirst)
  first := by simp [Draft.setIn, Draft.setOnLine, h.first, hi.first]
  last := by simp [Draft.setIn, Draft.setOnLine, h.last, hi.last]
  remarked := by simp [Draft.setIn, Draft.setOnLine, h.remarked, hi.remarked]
  ends := h.ends_setIn hi

theorem filter_text (h : d.Eases e) :
    e.text.filter (!Text.isBlank ·) = d.text.filter (!Text.isBlank ·) := by
  simp only [Draft.text, List.filter_append, Page.filter_text, h.last,
    h.page.ribbon.cells.chars_eq]

theorem count_text (h : d.Eases e) : e.text.count '\n' ≤ d.text.count '\n' := by
  simp only [Draft.text, List.count_append, Page.count_text, h.last]
  exact Nat.add_le_add_right h.page.ribbon.cells.breaks_le _

end Draft.Eases

theorem Headed.opens {o : Options} {body : List Item} (h : Headed body) {flat : Bool} {d : Draft}
    (hd : d.page.IsBlank) : ∃ r, Text.Solid r ∧ (writeAll o flat body d).page.Opens r := by
  induction h generalizing d with
  | @keyword k rest =>
    have hr : Text.Solid ((Token.keyword k).render o flat d.last) := by
      simp only [Token.render]
      split
      · exact (solid_keyword k).2
      · exact (solid_keyword k).1
    refine ⟨_, hr, opens_writeAll hr.firm rest flat ?_⟩
    simpa [Item.write, Draft.word, hd.spaceBefore] using hd.push List.prefix_rfl
  | @comment t rest =>
    have hr : Text.Solid ['/', '*'] := by decide
    refine ⟨_, hr, opens_writeAll hr.firm rest flat ?_⟩
    have hpage : (d.page.push (['/', '*'] ++ t ++ ['*', '/'])).Opens ['/', '*'] :=
      hd.push (by simp)
    simpa [Item.write, Draft.word, hd.spaceBefore, Token.render] using hpage
  | @remark t n rest =>
    have hr : Text.Solid ['-', '-'] := by decide
    refine ⟨_, hr, opens_writeAll hr.firm rest flat ?_⟩
    have hline : d.page.atLineStart = true := by
      simp [Page.atLineStart, hd.2, Text.isBlankText]
    have hpage : (d.page.push (['-', '-'] ++ Text.trimEnd t)).Opens ['-', '-'] :=
      hd.push (by simp)
    simpa [Item.write, Draft.remark, hline, Token.render] using (hpage.newline hr.firm).indent n
  | @startLine rest _ ih => exact ih (d := d.startLine 0) hd.startLine

section

variable {o : Options} {m n : Nat}

theorem Draft.Eases.onOneLine (hmn : m ≤ n) {flat : Bool} {body : List Item}
    (h : (writeAll { o with subselectLimit := m } flat body .blank).Eases
      (writeAll { o with subselectLimit := n } flat body .blank))
    (hm : SqlLayout.onOneLine { o with subselectLimit := m } flat body = true) :
    SqlLayout.onOneLine { o with subselectLimit := n } flat body = true := by
  simp only [SqlLayout.onOneLine, h.page.ink_eq, h.remarked, Bool.and_eq_true,
    decide_eq_true_eq] at hm ⊢
  exact ⟨by omega, hm.2⟩

/-- A query is written alike in both layouts, or goes on one line in the second one only. -/
theorem Draft.Eases.query (hmn : m ≤ n) {flat : Bool} {body : List Item} {d e : Draft}
    (hbody : Headed body) (h : d.Eases e)
    (hi : (writeAll { o with subselectLimit := m } flat body .blank).Eases
      (writeAll { o with subselectLimit := n } flat body .blank)) :
    ((Item.query body).write { o with subselectLimit := m } flat d).Eases
      ((Item.query body).write { o with subselectLimit := n } flat e) := by
  rw [write_query, write_query]
  cases hm : SqlLayout.onOneLine { o with subselectLimit := m } flat body with
  | true =>
    rw [if_pos rfl, if_pos (hi.onOneLine hmn hm)]
    exact h.setOnLine hi
  | false =>
    rw [if_neg (by simp)]
    cases hn : SqlLayout.onOneLine { o with subselectLimit := n } flat body with
    | false => exact h.setIn hi
    | true =>
      -- here alone the two layouts part
      have hr : (writeAll { o with subselectLimit := m } flat body .blank).remarked = false := by
        rw [hi.remarked]
        simp only [SqlLayout.onOneLine, Bool.and_eq_true, Bool.not_eq_true'] at hn
        exact hn.2
      obtain ⟨r, hsolid, hopens⟩ : ∃ r, Text.Solid r ∧
          (writeAll { o with subselectLimit := m } flat body .blank).page.Opens r :=
        hbody.opens ⟨rfl, rfl⟩
      obtain ⟨c, cs, hfirst⟩ := hopens.ribbon hsolid
      exact h.setIn_setOnLine hi hr hfirst

theorem Draft.Eases.define {flat : Bool} {d e : Draft} (h : d.Eases e) (defs : List Definition) :
    (d.define { o with subselectLimit := m } flat defs).Eases
      (e.define { o with subselectLimit := n } flat defs) := by
  have hopened := (h.startLine 0).word (o := o) (m := m) (n := n) flat (t := .openParen) rfl
  refine (startLine ?_ 0).word flat rfl
  exact ⟨hopened.page.pushBelow 0 _, hopened.first, hopened.last, hopened.remarked, hopened.ends⟩

theorem follows_subselectLimit (o : Options) (hmn : m ≤ n) :
    Follows { o with subselectLimit := m } { o with subselectLimit := n }
      fun _ => Draft.Eases where
  blank := .blank
  word flat t ht h := h.word flat ht
  remark flat t k h := h.remark flat t k
  newline h := ⟨h.page.newline, h.first, h.last, h.remarked, h.ends⟩
  startLine k h := h.startLine k
  wrap flat _ h := h.wrap flat _ _
  setIn h hi := h.setIn hi
  query flat _ hbody h hi := h.query hmn hbody hi
  define flat h hdefs := by
    rw [hdefs.eq_of_collapse Draft.Eases.collapse_eq]
    exact h.define _

end

/-- Under a higher limit a statement that has a layout still has one, with the same characters, no
more line breaks, and every query on one line that was so before. -/
theorem subselectLimit_eases (o : Options) {m n : Nat} (hmn : m ≤ n) (tokens : List Token)
    (source out : Text) (h : formatTokens { o with subselectLimit := m } tokens source = .ok out) :
    ∃ out', formatTokens { o with subselectLimit := n } tokens source = .ok out' ∧
      out'.filter (!Text.isBlank ·) = out.filter (!Text.isBlank ·) ∧
      out'.count '\n' ≤ out.count '\n' ∧
      ∀ items, arrange o.nestingLimit o.nestingLimit .statement (solid tokens) = .ok items →
        List.Forall₂ (fun a b => a = true → b = true)
          (Item.allChoices { o with subselectLimit := m } false items)
          (Item.allChoices { o with subselectLimit := n } false items) := by
  have hfollows := follows_subselectLimit o hmn
  have hchoices : ∀ items,
      arrange o.nestingLimit o.nestingLimit .statement (solid tokens) = .ok items →
      List.Forall₂ (fun a b => a = true → b = true)
        (Item.allChoices { o with subselectLimit := m } false items)
        (Item.allChoices { o with subselectLimit := n } false items) :=
    fun items hitems => hfollows.arranged_choices (fun hr => hr.onOneLine hmn) hitems
  rcases @formatTokens_follow _ _ _ hfollows tokens rfl source with
    ⟨e, he, -⟩ | ⟨t, ht, ht'⟩ | ⟨items, -, hs, ht, hr⟩
  · simp [he] at h
  · obtain rfl : t = out := by simpa [ht] using h
    exact ⟨t, ht', rfl, le_rfl, hchoices⟩
  · obtain rfl := Except.ok.inj (hs.symm.trans h)
    exact ⟨_, ht, hr.filter_text, hr.count_text, hchoices⟩

/-- A query in a query: the inner one goes on one line, or both do. -/
theorem subselectLimit_eases_nested :
    formatTokens { subselectLimit := 20 }
        (tokenize "select a where x in (select b from (select c from v))".toList) [] =
      .ok "SELECT a\nWHERE x IN (SELECT b\n            FROM (SELECT c FROM v))".toList ∧
    ∃ out, formatTokens { subselectLimit := 60 }
        (tokenize "select a where x in (select b from (select c from v))".toList) [] = .ok out ∧
      out.filter (!Text.isBlank ·) = "SELECTaWHERExIN(SELECTbFROM(SELECTcFROMv))".toList ∧
      out.count '\n' ≤ 2 := by
  have hlow : formatTokens { subselectLimit := 20 }
        (tokenize "select a where x in (select b from (select c from v))".toList) [] =
      .ok "SELECT a\nWHERE x IN (SELECT b\n            FROM (SELECT c FROM v))".toList := by
    decide +kernel
  obtain ⟨out, hout, hfilter, hcount, -⟩ := subselectLimit_eases {} (by decide : 20 ≤ 60) _ [] _ hlow
  refine ⟨hlow, out, hout, ?_, ?_⟩
  · rw [hfilter]
    decide +kernel
  · refine hcount.trans ?_
    decide +kernel

end SqlLayout
