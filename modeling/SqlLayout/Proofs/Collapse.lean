import SqlLayout.Proofs.Threshold

/-! When a query goes on one line, and what becomes of its lines when it does not. The ink that is
counted while a passage is written, and the remark that is remembered, are those of its lines, however
these came about.
-/

set_option autoImplicit false

namespace SqlLayout

/-- Lines under each other at the column `n`. An empty line stays empty, unless it is the last. -/
def under (n : Nat) : List Text → List Text
  | [] => []
  | [t] => [Text.spaces n ++ t]
  | t :: rest => (if t.isEmpty then [] else Text.spaces n ++ t) :: under n rest

theorem under_cons {ls : List Text} (h : ls ≠ []) (n : Nat) (t : Text) :
    under n (t :: ls) = (if t.isEmpty then [] else Text.spaces n ++ t) :: under n ls := by
  cases ls with
  | nil => exact absurd rfl h
  | cons u ls => rfl

theorem Text.dropEnd_append {t : Text} (hne : t ≠ []) (ht : t.getLast? ≠ some ' ') (s : Text) :
    Text.dropEndWhile (· == ' ') (s ++ t) = s ++ t := by
  obtain ⟨a, c, rfl⟩ := (List.eq_nil_or_concat t).resolve_left hne
  have hc : c ≠ ' ' := by simpa using ht
  simp [Text.dropEndWhile, hc]

theorem Text.dropEnd_spaces {t : Text} (ht : t.getLast? ≠ some ' ') (n : Nat) :
    Text.dropEndWhile (· == ' ') (Text.spaces n ++ t) =
      if t.isEmpty then [] else Text.spaces n ++ t := by
  cases t with
  | nil => simp [Text.dropEndWhile, Text.spaces]
  | cons c t => exact Text.dropEnd_append (by simp) ht _

namespace Page

variable {p : Page} {ls : List Text}

theorem lines_pushBelow (hne : ls ≠ []) (h : ∀ t ∈ ls.dropLast, t.getLast? ≠ some ' ') (n : Nat) :
    (p.pushBelow n ls).lines =
      p.above.reverse ++ Text.dropEndWhile (· == ' ') p.current.reverse :: under n ls := by
  induction ls generalizing p with
  | nil => exact absurd rfl hne
  | cons t ls ih =>
    rw [pushBelow, List.foldl_cons, ← pushBelow]
    cases ls with
    | nil => simp [pushBelow, lines, newline, indent, push, under, Text.dropEndWhile, Text.spaces]
    | cons u ls =>
      have ht : t.getLast? ≠ some ' ' := h t (by simp)
      have hline : ((p.newline.indent n).push t).current.reverse = Text.spaces n ++ t := by
        simp [newline, indent, push, Text.spaces]
      rw [ih (by simp) (fun v hv => h v (by simp [hv])), hline, Text.dropEnd_spaces ht,
        under_cons (by simp) n t]
      simp [newline, indent, push, Text.dropEndWhile]

theorem lines_pushLines {t : Text} (hne : t ≠ [])
    (h : ∀ u ∈ (t :: ls).dropLast, u.getLast? ≠ some ' ') (n : Nat) :
    (p.pushLines n (t :: ls)).lines = p.above.reverse ++ (p.current.reverse ++ t) :: under n ls := by
  rw [pushLines]
  cases ls with
  | nil => simp [pushBelow, lines, push, under]
  | cons u ls =>
    have ht : t.getLast? ≠ some ' ' := h t (by simp)
    rw [lines_pushBelow (by simp) fun v hv => h v (by simp [hv])]
    simp [push, Text.dropEnd_append hne ht]

def Neat (p : Page) : Prop := ∀ t ∈ p.above, t.getLast? ≠ some ' '

namespace Neat

theorem newline (h : p.Neat) : p.newline.Neat := by
  refine List.forall_mem_cons.2 ⟨fun hlast => ?_, h⟩
  have hhead := List.head?_dropWhile_not (· == ' ') p.current
  rw [List.getLast?_reverse] at hlast
  simp [hlast] at hhead

theorem startLine (h : p.Neat) (n : Nat) : (p.startLine n).Neat := by
  unfold Page.startLine clearLine
  split
  · exact h
  · exact h.newline

theorem pushBelow (h : p.Neat) (n : Nat) (ls : List Text) : (p.pushBelow n ls).Neat := by
  induction ls generalizing p with
  | nil => exact h
  | cons t ls ih => exact ih (p := (p.newline.indent n).push t) h.newline

theorem pushLines (h : p.Neat) (n : Nat) (ls : List Text) : (p.pushLines n ls).Neat := by
  cases ls with
  | nil => exact h
  | cons t ls => exact pushBelow (p := p.push t) h n ls

end Neat

end Page

namespace Draft

variable {d inner : Draft}

theorem neat_spaceBefore (h : d.page.Neat) (t : Token) : (d.spaceBefore t).Neat := by
  unfold Draft.spaceBefore
  split <;> exact h

theorem neat_start (h : d.page.Neat) (inner : Draft) :
    (inner.first.elim d.page fun t => d.spaceBefore t).Neat := by
  cases inner.first with
  | none => exact h
  | some t => exact neat_spaceBefore h t

theorem neat_word (o : Options) (flat : Bool) (t : Token) (h : d.page.Neat) :
    (d.word o flat t).page.Neat :=
  neat_spaceBefore h t

theorem neat_remark (o : Options) (flat : Bool) (t : Text) (n : Nat) (h : d.page.Neat) :
    (d.remark o flat t n).page.Neat := by
  have hstart : (if d.page.atLineStart then d.page else d.page.newline.indent n).Neat := by
    split
    · exact h
    · exact h.newline
  exact Page.Neat.newline (p := Page.push _ _) hstart

theorem neat_lines (h : d.page.Neat) : ∀ t ∈ d.lines.dropLast, t.getLast? ≠ some ' ' := by
  obtain ⟨t, rest, hdrop⟩ := List.exists_cons_of_ne_nil
    (Page.dropBlank_ne_nil (List.cons_ne_nil d.page.current.reverse d.page.above))
  have hlines : d.page.trimmedLines = (Text.trimEnd t :: rest).reverse := by
    unfold Page.trimmedLines
    rw [hdrop]
  have hrest : ∀ u ∈ rest, u.getLast? ≠ some ' ' := by
    have hsuffix : rest <:+ d.page.above := by
      have := Page.dropBlank_suffix (d.page.current.reverse :: d.page.above)
      rw [hdrop] at this
      rcases List.suffix_cons_iff.1 this with heq | hs
      · exact (List.cons.inj heq).2 ▸ List.suffix_rfl
      · exact (List.suffix_cons t rest).trans hs
    exact fun u hu => h u (hsuffix.subset hu)
  have hlast : (Text.trimEnd t).getLast? ≠ some ' ' := by
    intro hl
    have hhead := List.head?_dropWhile_not Text.isBlank t.reverse
    rw [Text.trimEnd, Text.dropEndWhile, List.getLast?_reverse] at hl
    simp [hl, Text.isBlank] at hhead
  unfold Draft.lines
  split
  · rw [List.dropLast_concat, hlines]
    intro u hu
    rcases (by simpa using hu : u ∈ rest ∨ u = Text.trimEnd t) with hu | rfl
    · exact hrest u hu
    · exact hlast
  · rw [hlines]
    simpa using hrest

end Draft

theorem follows_neat (o : Options) : Follows o o fun _ d e => d = e ∧ d.page.Neat where
  blank := ⟨rfl, by simp [Draft.blank, Page.blank, Page.Neat]⟩
  word flat t _ h := ⟨by rw [h.1], Draft.neat_word o flat _ h.2⟩
  remark flat t n h := ⟨by rw [h.1], Draft.neat_remark o flat t n h.2⟩
  newline h := ⟨by rw [h.1], h.2.newline⟩
  startLine n h := ⟨by rw [h.1], h.2.startLine n⟩
  wrap flat hab h := ⟨by rw [hab.1, h.1], (Draft.neat_word o flat .comma h.2).startLine _⟩
  setIn h hi := ⟨by rw [h.1, hi.1], (Draft.neat_start h.2 _).pushLines _ _⟩
  query flat body _ h hi := by
    refine ⟨by rw [h.1], ?_⟩
    rw [write_query]
    split
    · exact Draft.neat_start h.2 _
    · exact (Draft.neat_start h.2 _).pushLines _ _
  define flat h hdefs := by
    refine ⟨by rw [h.1, hdefs.eq_of_collapse fun hr => by rw [hr.1]], ?_⟩
    refine Draft.neat_word o flat _ (Page.Neat.startLine ?_ 0)
    exact Page.Neat.pushBelow (Draft.neat_word o flat .openParen (h.2.startLine 0)) 0 _

section Remarks

variable (o : Options)

mutual

/-- A remark is remembered exactly when one is written. -/
theorem remarked_write : ∀ (i : Item) (flat : Bool) (d : Draft), i.Proper →
    (i.write o flat d).remarked = (d.remarked || i.tokens.any Token.isRemark)
  | .word t, flat, d, hp => by
    simp [Item.write, Draft.word, Item.tokens, show t.isRemark = false from hp]
  | .remark t n, flat, d, _ => by simp [Item.write, Draft.remark, Item.tokens, Token.isRemark]
  | .newline, _, _, _ | .startLine _, _, _, _ => by
    simp [Item.write, Draft.newline, Draft.startLine, Item.tokens]
  | .inset f body, flat, d, hp => by
    have hbody := remarked_writeAll body (flat || f) .blank hp
    rw [Item.write, Draft.setIn, hbody, Item.tokens, show Draft.blank.remarked = false from rfl,
      Bool.false_or]
  | .query body, flat, d, hp => by
    have hbody := remarked_writeAll body flat .blank hp
    rw [show Draft.blank.remarked = false from rfl, Bool.false_or] at hbody
    rw [write_query, Item.tokens]
    split <;> simp only [Draft.setIn, Draft.setOnLine, hbody]
  | .elements [], _, _, _ => by simp [Item.write, Item.tokens, Item.partTokens]
  | .elements (part :: rest), flat, d, hp => by
    have hpart := remarked_writeAll part flat d hp.1
    have hrest := remarked_writeElements rest flat
      (if elementLimit < (part :: rest).length then some d.page.column else none)
      (writeAll o flat part d) hp.2
    rw [Item.write, hrest, hpart, Item.tokens, Item.partTokens_cons, List.any_append, Bool.or_assoc]
  | .definitions parts, flat, d, hp => by
    have hnone : (Item.partTokens parts).any Token.isRemark = false := by
      rw [List.any_eq_false]
      intro t ht
      simp [hp.2 t ht]
    simp [Item.write, Draft.word, Draft.startLine, Item.tokens, hnone, Token.isRemark]

theorem remarked_writeAll : ∀ (items : List Item) (flat : Bool) (d : Draft), Item.AllProper items →
    (writeAll o flat items d).remarked = (d.remarked || (Item.allTokens items).any Token.isRemark)
  | [], _, _, _ => by simp [writeAll, Item.allTokens]
  | i :: rest, flat, d, hp => by
    rw [writeAll, remarked_writeAll rest flat _ hp.2, remarked_write i flat d hp.1, Item.allTokens,
      List.any_append, Bool.or_assoc]

theorem remarked_writeElements : ∀ (parts : List (List Item)) (flat : Bool) (wrap : Option Nat)
    (d : Draft), Item.PartsProper parts → (writeElements o flat wrap parts d).remarked =
      (d.remarked || (parts.flatMap fun q => .comma :: Item.allTokens q).any Token.isRemark)
  | [], _, _, _, _ => by simp [writeElements]
  | part :: rest, flat, wrap, d, hp => by
    have hcomma : ∀ w : Option Nat, (w.elim (d.word o flat .comma) fun n =>
        (d.word o flat .comma).startLine n).remarked = d.remarked := by
      intro w
      cases w <;> rfl
    rw [writeElements, remarked_writeElements rest flat wrap _ hp.2,
      remarked_writeAll part flat _ hp.1, hcomma]
    simp [List.any_append, Bool.or_assoc, Token.isRemark]

end

end Remarks

theorem Ribbon.length_ofLines (ls : List Text) :
    (Ribbon.ofLines ls).cells.length = (ls.map Text.ink).sum := by
  induction ls with
  | nil => rfl
  | cons t ls ih =>
    cases ls with
    | nil => simp [Ribbon.ofLines, Ribbon.length_ofText]
    | cons u ls =>
      rw [Ribbon.ofLines_cons (by simp), Ribbon.length_append, Ribbon.length_append,
        Ribbon.length_ofText, ih]
      rfl

section Query

variable (o : Options) (flat : Bool) {limit room : Nat} {ts : List Token} {body : List Item}

/-- The ink that is counted is that of the lines. -/
theorem ink_lines (h : arrange limit room .statement ts = .ok body) :
    (writeAll o flat body .blank).page.ink =
      ((writeAll o flat body .blank).lines.map Text.ink).sum := by
  have hled := (nestedLed_arrange limit room (by simp [Arrange.Starts]) h).1
  have hfollow := follows_subselectLimit o (le_refl o.subselectLimit)
  have heases := @Follows.writeAll _ _ _ hfollow body flat [] _ _ (sane_arrange h).proper hled
    hfollow.blank
  rw [← Ribbon.length_ofLines, Draft.Eases.ofLines_lines]
  exact heases.page.counted.1

theorem remarked_iff (h : arrange limit room .statement ts = .ok body) :
    (writeAll o flat body .blank).remarked = true ↔
      ∃ t, Token.lineComment t ∈ Item.allTokens body := by
  rw [remarked_writeAll o body flat .blank (sane_arrange h).proper, Draft.blank, Bool.false_or,
    List.any_eq_true]
  constructor
  · rintro ⟨t, ht, hr⟩
    cases t with
    | lineComment x => exact ⟨x, ht⟩
    | _ => simp [Token.isRemark] at hr
  · rintro ⟨t, ht⟩
    exact ⟨_, ht, rfl⟩

theorem onOneLine_iff (h : arrange limit room .statement ts = .ok body) :
    onOneLine o flat body = true ↔
      ((writeAll o flat body .blank).lines.map Text.ink).sum < o.subselectLimit ∧
        ∀ t, Token.lineComment t ∉ Item.allTokens body := by
  rw [onOneLine, ink_lines o flat h, Bool.and_eq_true, decide_eq_true_eq, Bool.not_eq_true',
    Bool.eq_false_iff, Ne, remarked_iff o flat h, not_exists]

theorem lines_query (hq : startsQuery ts = true) (h : arrange limit room .statement ts = .ok body) :
    ∃ t ls, (writeAll o flat body .blank).lines = t :: ls ∧ t ≠ [] ∧
      ∀ u ∈ (t :: ls).dropLast, u.getLast? ≠ some ' ' := by
  obtain ⟨hled, hhead⟩ := nestedLed_arrange limit room (by simp [Arrange.Starts]) h
  have hneat := (@Follows.writeAll _ _ _ (follows_neat o) body flat [] _ _ (sane_arrange h).proper hled
    (follows_neat o).blank).2
  obtain ⟨r, hr, hopens⟩ : ∃ r, Text.Solid r ∧ (writeAll o flat body .blank).page.Opens r :=
    (hhead rfl hq).opens ⟨rfl, rfl⟩
  obtain ⟨t, ls, hlines, hprefix⟩ := hopens.trimmedLines hr
  obtain ⟨c, u, rfl, -⟩ := hr.starts
  have hne : t ≠ [] := by
    rintro rfl
    simp at hprefix
  obtain ⟨ms, hms⟩ : ∃ ms, (writeAll o flat body .blank).lines = t :: ms := by
    unfold Draft.lines
    split
    · exact ⟨ls ++ [[]], by simp [hlines]⟩
    · exact ⟨ls, hlines⟩
  exact ⟨t, ms, hms, hne, hms ▸ Draft.neat_lines hneat⟩

/-- A query goes on one line exactly when its lines have less ink than the limit and no line comment is
written in it, at whatever depth; then its lines that are not blank are joined by single spaces. In
every other case all its lines are kept, those behind the first under the column where it starts. -/
theorem query_layout (hq : startsQuery ts = true)
    (hbody : arrange limit room .statement ts = .ok body) (indent : Nat) (d : Draft) :
    let inner := writeAll o flat body .blank
    let start := inner.first.elim d.page fun t => d.spaceBefore t
    let page := (writeAll o flat (Arrange.query (arrange limit room) indent ts) d).page
    let short := (inner.lines.map Text.ink).sum < o.subselectLimit ∧
      ∀ t, Token.lineComment t ∉ Item.allTokens body
    inner.page.ink = (inner.lines.map Text.ink).sum ∧
    (inner.remarked = true ↔ ∃ t, Token.lineComment t ∈ Item.allTokens body) ∧
    (short → page.lines =
      start.above.reverse ++ [start.current.reverse ++ collapse inner.lines]) ∧
    (¬short → ∃ t ls, inner.lines = t :: ls ∧ page.lines =
      start.above.reverse ++ (start.current.reverse ++ t) :: under start.column ls) := by
  intro inner start page short
  have hpage : page = ((Item.query body).write o flat d).page := by
    simp only [page, Arrange.query, hbody, writeAll]
  rw [hpage, write_query]
  refine ⟨ink_lines o flat hbody, remarked_iff o flat hbody, fun hs => ?_, fun hs => ?_⟩
  · rw [if_pos ((onOneLine_iff o flat hbody).2 hs)]
    change (start.push (collapse inner.lines)).lines = _
    simp [Page.push, Page.lines]
  · rw [if_neg (mt (onOneLine_iff o flat hbody).1 hs)]
    obtain ⟨t, ls, hlines, hne, hends⟩ := lines_query o flat hq hbody
    refine ⟨t, ls, hlines, ?_⟩
    change (start.pushLines start.column inner.lines).lines = _
    rw [show inner.lines = t :: ls from hlines, Page.lines_pushLines hne hends]

end Query

/-- Behind an opening bracket, a query that is too long, with a shorter one in it. -/
theorem query_layout_wide :
    ∃ body, arrange 9 9 .statement (solid (tokenize "select a, b from (select c)".toList)) = .ok body ∧
      (writeAll { subselectLimit := 10 } false body .blank).page.ink = 22 ∧
      (writeAll { subselectLimit := 10 } false
          (Arrange.query (arrange 9 9) 0 (solid (tokenize "select a, b from (select c)".toList)))
          (Draft.blank.word {} false .openParen)).page.lines =
        ["(SELECT a,".toList, "        b".toList, " FROM (SELECT c)".toList] := by
  have hok : (arrange 9 9 .statement
      (solid (tokenize "select a, b from (select c)".toList))).isOk = true := by decide +kernel
  cases hbody : arrange 9 9 .statement (solid (tokenize "select a, b from (select c)".toList)) with
  | error e =>
    rw [hbody] at hok
    cases hok
  | ok body =>
    have hitems : body = ((arrange 9 9 .statement
        (solid (tokenize "select a, b from (select c)".toList))).toOption.getD []) := by
      rw [hbody]
      rfl
    have hlines : (writeAll { subselectLimit := 10 } false body .blank).lines =
        ["SELECT a,".toList, "       b".toList, "FROM (SELECT c)".toList] := by
      rw [hitems]
      decide +kernel
    have hfirst : (writeAll { subselectLimit := 10 } false body .blank).first =
        some (.keyword .SELECT) := by
      rw [hitems]
      decide +kernel
    obtain ⟨hink, -, -, hlong⟩ := query_layout { subselectLimit := 10 } false (by decide +kernel) hbody
      0 (Draft.blank.word {} false .openParen)
    rw [hlines] at hink hlong
    obtain ⟨t, ls, hls, hpage⟩ := hlong (fun hs => absurd hs.1 (by decide +kernel))
    obtain ⟨rfl, rfl⟩ := List.cons.inj hls
    refine ⟨body, rfl, hink.trans (by decide +kernel), ?_⟩
    rw [hpage, hfirst]
    decide +kernel

end SqlLayout
