import SqlLayout.Proofs.LayoutComparison

/-! The letter case of keywords does not matter to the layout. Two drafts, one with keywords in upper
case and one in lower case, are the same but for these keywords: a keyword is as wide, begins and ends
with a letter, and holds no line end, in either case.
-/

set_option autoImplicit false

namespace SqlLayout

theorem Text.toLower_blank {c : Char} (h : isBlank c = true) : c.toLower = c := by
  have hn := toNat_toLower c
  rw [← Char.toNat_inj]
  simp only [isBlank, Bool.or_eq_true, Bool.and_eq_true, decide_eq_true_eq, beq_iff_eq] at h
  split at hn <;> omega

theorem Text.toLower_eq_iff {c : Char} (hc : isBlank c = true) (d : Char) :
    d.toLower = c ↔ d = c := by
  refine ⟨fun hd => ?_, fun hd => by rw [hd, toLower_blank hc]⟩
  have hblank : isBlank d = true := by rw [← isBlank_toLower, hd, hc]
  rw [← hd, toLower_blank hblank]

/-- The same text, but for keywords among `ts`, of which the first text has the upper case and the
second one the lower case. -/
inductive Recased (ts : List Token) : Text → Text → Prop where
  | nil : Recased ts [] []
  | char {s t : Text} (c : Char) (h : Recased ts s t) : Recased ts (c :: s) (c :: t)
  | keyword {k : Keyword} {s t : Text} (hk : .keyword k ∈ ts) (h : Recased ts s t) :
      Recased ts (k.text ++ s) (k.text.map Char.toLower ++ t)

namespace Recased

variable {ts us : List Token} {a b s t : Text}

theorem refl (s : Text) : Recased ts s s := by
  induction s with
  | nil => exact .nil
  | cons c s ih => exact .char c ih

theorem mono (hsub : ts ⊆ us) (h : Recased ts s t) : Recased us s t := by
  induction h with
  | nil => exact .nil
  | char c _ ih => exact .char c ih
  | keyword hk _ ih => exact .keyword (hsub hk) ih

theorem append (h : Recased ts a b) (h' : Recased ts s t) : Recased ts (a ++ s) (b ++ t) := by
  induction h with
  | nil => exact h'
  | char c _ ih => exact .char c ih
  | keyword hk _ ih =>
    rw [List.append_assoc, List.append_assoc]
    exact .keyword hk ih

theorem folded (h : Recased ts s t) : Text.folded s = Text.folded t := by
  induction h with
  | nil => rfl
  | char c _ ih => exact congrArg (c.toLower :: ·) ih
  | @keyword k _ _ _ _ ih =>
    have hk : Text.folded (k.text.map Char.toLower) = Text.folded k.text := Text.folded_folded _
    simp only [Text.folded, List.map_append] at hk ih ⊢
    rw [ih, hk]

theorem length_eq (h : Recased ts s t) : s.length = t.length := by
  simpa [Text.folded] using congrArg List.length h.folded

theorem isEmpty_eq (h : Recased ts s t) : s.isEmpty = t.isEmpty := by
  rw [Bool.eq_iff_iff, List.isEmpty_iff_length_eq_zero, List.isEmpty_iff_length_eq_zero, h.length_eq]

theorem isBlankText_eq (h : Recased ts s t) : Text.isBlankText s = Text.isBlankText t := by
  have hall := congrArg (List.all · Text.isBlank) h.folded
  simpa [Text.folded, Text.isBlankText, List.all_map, Function.comp_def, Text.isBlank_toLower]
    using hall

theorem ink_eq (h : Recased ts s t) : Text.ink s = Text.ink t := by
  have hcount := congrArg (List.countP fun c => !Text.isBlank c) h.folded
  simpa [Text.folded, Text.ink, List.countP_map, Function.comp_def, Text.isBlank_toLower]
    using hcount

theorem isBlank_iff (h : Recased ts s t) (n : Nat) {c : Char} (hc : Text.isBlank c = true) :
    s[n]? = some c ↔ t[n]? = some c := by
  have hget := congrArg (fun u : Text => u[n]? = some c) h.folded
  simpa [Text.folded, Text.toLower_eq_iff hc] using hget

/-- Blanks are dropped from the ends of both texts, and from no keyword. -/
theorem dropEndWhile {p : Char → Bool} (hp : ∀ c, p c = true → Text.isBlank c = true)
    (h : Recased ts s t) : Recased ts (Text.dropEndWhile p s) (Text.dropEndWhile p t) := by
  induction h with
  | nil => exact .nil
  | char c _ ih =>
    -- whether `c` goes too depends on what is left behind it, which is as long in both
    rw [Text.dropEndWhile_cons, Text.dropEndWhile_cons, ih.isEmpty_eq]
    split
    · exact .nil
    · exact .char c ih
  | @keyword k s t hk _ ih =>
    have hupper := (solid_keyword k).1.dropEndWhile hp [] s
    have hlower := (solid_keyword k).2.dropEndWhile hp [] t
    simp only [List.nil_append] at hupper hlower
    rw [hupper, hlower]
    exact .keyword hk ih

theorem dropWhile (h : Recased ts s t) :
    Recased ts (s.dropWhile Text.isBlank) (t.dropWhile Text.isBlank) := by
  induction h with
  | nil => exact .nil
  | char c h ih =>
    cases hc : Text.isBlank c with
    | true => simpa [hc] using ih
    | false => simpa [hc] using h.char c
  | @keyword k s t hk h ih =>
    rw [(solid_keyword k).1.dropWhile, (solid_keyword k).2.dropWhile]
    exact .keyword hk h

theorem trimEnd (h : Recased ts s t) : Recased ts (Text.trimEnd s) (Text.trimEnd t) :=
  h.dropEndWhile fun _ => id

theorem trim (h : Recased ts s t) : Recased ts (Text.trim s) (Text.trim t) := h.dropWhile.trimEnd

theorem join {ls ms : List Text} (sep : Text) (h : List.Forall₂ (Recased ts) ls ms) :
    Recased ts (Text.join sep ls) (Text.join sep ms) := by
  unfold Text.join
  induction h with
  | nil => exact refl _
  | @cons s t ls ms hst h ih =>
    cases h with
    | nil => simpa using hst
    | cons hst' h =>
      rw [List.intercalate_cons_cons, List.intercalate_cons_cons]
      exact (hst.append (refl sep)).append ih

theorem collapse {ls ms : List Text} (h : List.Forall₂ (Recased ts) ls ms) :
    Recased ts (collapse ls) (collapse ms) := by
  refine join _ ?_
  induction h with
  | nil => exact .nil
  | cons hst _ ih =>
    simp only [List.map_cons, List.filter_cons, hst.trim.isEmpty_eq]
    split
    · exact .cons hst.trim ih
    · exact ih

end Recased

structure Page.Recast (ts : List Token) (p q : Page) : Prop where
  above : List.Forall₂ (Recased ts) p.above q.above
  current : Recased ts p.current.reverse q.current.reverse
  ink : p.ink = q.ink

namespace Page.Recast

variable {ts us : List Token} {p q : Page} {s t : Text} {ls ms : List Text}

theorem mono (hsub : ts ⊆ us) (h : Recast ts p q) : Recast us p q :=
  ⟨h.above.imp fun _ _ => .mono hsub, h.current.mono hsub, h.ink⟩

theorem blank : Recast ts .blank .blank := ⟨.nil, .nil, rfl⟩

theorem push (h : Recast ts p q) (hst : Recased ts s t) : Recast ts (p.push s) (q.push t) where
  above := h.above
  current := by simpa [Page.push] using h.current.append hst
  ink := by simp [Page.push, h.ink, hst.ink_eq]

theorem indent (h : Recast ts p q) (n : Nat) : Recast ts (p.indent n) (q.indent n) where
  above := h.above
  current := by simpa [Page.indent] using h.current.append (.refl (Text.spaces n).reverse)
  ink := h.ink

theorem newline (h : Recast ts p q) : Recast ts p.newline q.newline where
  above := by
    have hline := h.current.dropEndWhile (p := (· == ' ')) fun c hc => by
      obtain rfl : c = ' ' := by simpa using hc
      rfl
    exact .cons (by simpa [Text.dropEndWhile] using hline) h.above
  current := .nil
  ink := h.ink

theorem atLineStart_eq (h : Recast ts p q) : p.atLineStart = q.atLineStart := by
  simpa [Page.atLineStart, Text.isBlankText] using h.current.isBlankText_eq

theorem startLine (h : Recast ts p q) (n : Nat) : Recast ts (p.startLine n) (q.startLine n) := by
  unfold Page.startLine
  rw [h.atLineStart_eq]
  split
  · rename_i hq
    refine indent ?_ n
    rw [clearLine, clearLine, h.atLineStart_eq, if_pos hq, if_pos hq]
    exact ⟨h.above, .nil, h.ink⟩
  · exact h.newline.indent n

theorem column_eq (h : Recast ts p q) : p.column = q.column := by
  have hfolded : p.current.map Char.toLower = q.current.map Char.toLower := by
    simpa [Text.folded] using h.current.folded
  have hend : ∀ c : Char, (c.toLower != '\n') = (c != '\n') := by
    intro c
    rw [Bool.eq_iff_iff, bne_iff_ne, bne_iff_ne, ne_eq, ne_eq, Text.toLower_eq_iff rfl]
  have hcolumn : ∀ u : Text, (u.takeWhile (· != '\n')).length =
      ((u.map Char.toLower).takeWhile (· != '\n')).length := by
    intro u
    simp [List.takeWhile_map, Function.comp_def, hend]
  rw [column, column, hcolumn, hfolded, ← hcolumn]

theorem pushBelow (h : Recast ts p q) (n : Nat) (hl : List.Forall₂ (Recased ts) ls ms) :
    Recast ts (p.pushBelow n ls) (q.pushBelow n ms) := by
  induction hl generalizing p q with
  | nil => exact h
  | cons hst _ ih => exact ih ((h.newline.indent n).push hst)

theorem pushLines (h : Recast ts p q) (n : Nat) (hl : List.Forall₂ (Recased ts) ls ms) :
    Recast ts (p.pushLines n ls) (q.pushLines n ms) := by
  cases hl with
  | nil => exact h
  | cons hst hl => exact (h.push hst).pushBelow n hl

theorem lines (h : Recast ts p q) : List.Forall₂ (Recased ts) p.lines q.lines :=
  List.rel_reverse (.cons h.current h.above)

theorem dropBlank (hl : List.Forall₂ (Recased ts) ls ms) :
    List.Forall₂ (Recased ts) (dropBlank ls) (dropBlank ms) := by
  induction hl with
  | nil => exact .nil
  | cons hst h ih =>
    cases h with
    | nil => exact .cons hst .nil
    | cons hst' h =>
      simp only [Page.dropBlank, hst.isBlankText_eq]
      split
      · exact ih
      · exact .cons hst (.cons hst' h)

theorem trimmedLines (h : Recast ts p q) :
    List.Forall₂ (Recased ts) p.trimmedLines q.trimmedLines := by
  have hdrop := dropBlank (.cons h.current h.above)
  unfold Page.trimmedLines
  cases hp : Page.dropBlank (p.current.reverse :: p.above) <;>
    cases hq : Page.dropBlank (q.current.reverse :: q.above) <;> rw [hp, hq] at hdrop
  · exact .nil
  · cases hdrop
  · cases hdrop
  · cases hdrop with
    | cons hst h => exact List.rel_reverse (.cons hst.trimEnd h)

theorem text (h : Recast ts p q) : Recased ts p.text q.text := (Recased.join _ h.lines).trimEnd

end Page.Recast

structure Draft.Recast (ts : List Token) (d e : Draft) : Prop where
  page : Page.Recast ts d.page e.page
  first : d.first = e.first
  last : d.last = e.last
  remarked : d.remarked = e.remarked

namespace Draft.Recast

variable {o : Options} {flat : Bool} {ts us : List Token} {d e i j : Draft}

theorem mono (hsub : ts ⊆ us) (h : Recast ts d e) : Recast us d e :=
  ⟨h.page.mono hsub, h.first, h.last, h.remarked⟩

theorem spaceBefore (h : Recast ts d e) (t : Token) :
    Page.Recast ts (d.spaceBefore t) (e.spaceBefore t) := by
  unfold Draft.spaceBefore
  rw [h.last, h.page.atLineStart_eq]
  split
  · exact h.page.push (.refl _)
  · exact h.page

theorem render (o : Options) (flat : Bool) (prev : Option Token) {t : Token} (ht : t ∈ ts) :
    Recased ts (t.render { o with uppercase := true } flat prev)
      (t.render { o with uppercase := false } flat prev) := by
  cases t with
  | keyword k =>
    by_cases hdot : prev = some .dot
    · simpa [Token.render, hdot] using Recased.refl _
    · simpa [Token.render, hdot] using Recased.keyword ht .nil
  | _ => exact .refl _

theorem word (h : Recast ts d e) (flat : Bool) {t : Token} (ht : t ∈ ts) :
    Recast ts (d.word { o with uppercase := true } flat t)
      (e.word { o with uppercase := false } flat t) where
  page := by
    have hrender := render o flat e.last ht
    simpa [Draft.word, h.last] using (h.spaceBefore t).push hrender
  first := by simp [Draft.word, h.first]
  last := rfl
  remarked := h.remarked

theorem remark (h : Recast ts d e) (flat : Bool) (t : Text) (n : Nat) :
    Recast ts (d.remark { o with uppercase := true } flat t n)
      (e.remark { o with uppercase := false } flat t n) where
  page := by
    refine ((Page.Recast.push ?_ (.refl _)).newline).indent n
    rw [h.page.atLineStart_eq]
    split
    · exact h.page
    · exact h.page.newline.indent n
  first := by simp [Draft.remark, h.first]
  last := rfl
  remarked := rfl

theorem startLine (h : Recast ts d e) (n : Nat) : Recast ts (d.startLine n) (e.startLine n) :=
  ⟨h.page.startLine n, h.first, h.last, h.remarked⟩

theorem lines (h : Recast ts i j) : List.Forall₂ (Recased ts) i.lines j.lines := by
  unfold Draft.lines
  rw [h.last]
  split
  · exact List.rel_append h.page.trimmedLines (.cons .nil .nil)
  · exact h.page.trimmedLines

theorem start (h : Recast ts d e) (hi : Recast us i j) :
    Page.Recast ts (i.first.elim d.page fun t => d.spaceBefore t)
      (j.first.elim e.page fun t => e.spaceBefore t) := by
  rw [hi.first]
  cases j.first with
  | none => exact h.page
  | some t => exact h.spaceBefore t

theorem setIn (h : Recast ts d e) (hi : Recast us i j) :
    Recast (ts ++ us) (d.setIn i) (e.setIn j) where
  page := by
    have hstart := h.start hi
    have hlines := (hi.mono (List.subset_append_right ts us)).lines
    simp only [Draft.setIn, hstart.column_eq]
    exact (hstart.mono (List.subset_append_left ts us)).pushLines _ hlines
  first := by simp [Draft.setIn, h.first, hi.first]
  last := by simp [Draft.setIn, h.last, hi.last]
  remarked := by simp [Draft.setIn, h.remarked, hi.remarked]

theorem setOnLine (h : Recast ts d e) (hi : Recast us i j) :
    Recast (ts ++ us) (d.setOnLine i) (e.setOnLine j) where
  page := by
    have hlines := (hi.mono (List.subset_append_right ts us)).lines
    exact ((h.start hi).mono (List.subset_append_left ts us)).push (.collapse hlines)
  first := by simp [Draft.setOnLine, h.first, hi.first]
  last := by simp [Draft.setOnLine, h.last, hi.last]
  remarked := by simp [Draft.setOnLine, h.remarked, hi.remarked]

theorem onOneLine_eq {body : List Item}
    (h : Recast ts (writeAll { o with uppercase := true } flat body .blank)
      (writeAll { o with uppercase := false } flat body .blank)) :
    onOneLine { o with uppercase := true } flat body =
      onOneLine { o with uppercase := false } flat body := by
  unfold onOneLine
  rw [h.page.ink, h.remarked]

theorem text (h : Recast ts d e) : Recased ts d.text e.text := by
  unfold Draft.text
  rw [h.last]
  exact h.page.text.append (.refl _)

end Draft.Recast

def Definition.Recast (ts : List Token) (d e : Definition) : Prop :=
  Recased ts d.name e.name ∧ Recased ts d.rest e.rest

section Definitions

variable {ts : List Token} {tss : List (List Token)} {defs defs' : List Definition}

theorem Entries.recast (h : Entries Draft.Recast tss defs defs') (hsub : ∀ us ∈ tss, us ⊆ ts) :
    List.Forall₂ (Definition.Recast ts) defs defs' := by
  induction h with
  | nil => exact .nil
  | @cons us vs _ _ _ _ _ _ _ hname hrest _ ih =>
    have hboth : us ++ vs ⊆ ts := hsub _ (by simp)
    refine .cons ⟨.collapse (hname.mono ?_).lines, .collapse (hrest.mono ?_).lines⟩
      (ih fun ws hws => hsub ws (by simp [hws]))
    · exact List.Subset.trans (List.subset_append_left us vs) hboth
    · exact List.Subset.trans (List.subset_append_right us vs) hboth

theorem recast_width (h : List.Forall₂ (Definition.Recast ts) defs defs') :
    Definition.width defs = Definition.width defs' := by
  have hnames : defs.map (fun d => d.name.length) = defs'.map fun d => d.name.length := by
    induction h with
    | nil => rfl
    | cons hd _ ih => simp only [List.map_cons, hd.1.length_eq, ih]
  rw [Definition.width, Definition.width, hnames]

theorem recast_line {d e : Definition} (h : d.Recast ts e) (indent width : Nat) :
    Recased ts (d.line indent width) (e.line indent width) := by
  unfold Definition.line
  rw [h.2.isEmpty_eq, h.1.length_eq]
  refine ((Recased.refl _).append h.1).append ?_
  split
  · exact .nil
  · exact (Recased.refl _).append h.2

theorem recast_withCommas {ls ms : List Text} (h : List.Forall₂ (Recased ts) ls ms) :
    List.Forall₂ (Recased ts) (Definition.withCommas ls) (Definition.withCommas ms) := by
  induction h with
  | nil => exact .nil
  | cons hst h ih =>
    cases h with
    | nil => exact .cons hst .nil
    | cons hst' h => exact .cons (hst.append (.refl _)) ih

/-- Definitions are aligned alike, since a name is as wide in either case. -/
theorem recast_align (h : List.Forall₂ (Definition.Recast ts) defs defs') (n : Nat) :
    List.Forall₂ (Recased ts) (Definition.align defs n) (Definition.align defs' n) := by
  refine recast_withCommas ?_
  rw [recast_width h]
  rw [List.forall₂_map_left_iff, List.forall₂_map_right_iff]
  exact h.imp fun _ _ hd => recast_line hd n _

end Definitions

theorem Draft.Recast.define {o : Options} {flat : Bool} {ts : List Token} {d e : Draft}
    {defs defs' : List Definition} (h : Recast ts d e) (hopen : .openParen ∈ ts)
    (hclose : .closeParen ∈ ts) (hdefs : List.Forall₂ (Definition.Recast ts) defs defs') :
    Recast ts (d.define { o with uppercase := true } flat defs)
      (e.define { o with uppercase := false } flat defs') := by
  have hopened := (h.startLine 0).word (o := o) flat hopen
  refine (startLine ?_ 0).word flat hclose
  exact ⟨hopened.page.pushBelow 0 (recast_align hdefs 2), hopened.first, hopened.last,
    hopened.remarked⟩

theorem follows_uppercase (o : Options) :
    Follows { o with uppercase := true } { o with uppercase := false } Draft.Recast where
  blank := ⟨.blank, rfl, rfl, rfl⟩
  word flat t _ h := (h.mono (by simp)).word flat (by simp)
  remark flat t n h := (h.mono (by simp)).remark flat t n
  newline h := ⟨h.page.newline, h.first, h.last, h.remarked⟩
  startLine n h := h.startLine n
  wrap flat hab h := by
    rw [hab.page.column_eq]
    exact ((h.mono (by simp)).word flat (by simp)).startLine _
  setIn h hi := h.setIn hi
  query flat _ _ h hi := by
    rw [write_query, write_query, hi.onOneLine_eq]
    split
    · exact h.setOnLine hi
    · exact h.setIn hi
  define flat h hdefs := by
    refine (h.mono (by simp)).define (by simp) (by simp) (hdefs.recast fun us hus => ?_)
    exact fun t ht => by simp [(infix_intercalate hus).subset ht]

/-- The letter case of keywords changes nothing but keywords: a statement fails in the same way, or
has two layouts that are the same up to the case of letters in its keywords, with the same blanks at
the same places and the same queries on one line. -/
theorem formatTokens_uppercase (o : Options) (tokens : List Token) (source : Text) :
    ((∃ e, formatTokens { o with uppercase := true } tokens source = .error e ∧
        formatTokens { o with uppercase := false } tokens source = .error e) ∨
      ∃ s t, formatTokens { o with uppercase := true } tokens source = .ok s ∧
        formatTokens { o with uppercase := false } tokens source = .ok t ∧
        Recased (solid tokens) s t ∧ s.length = t.length ∧
        s.map Char.toLower = t.map Char.toLower ∧
        ∀ (n : Nat) (c : Char), Text.isBlank c = true →
          (s[n]? = some c ↔ t[n]? = some c)) ∧
    ∀ items, arrange o.nestingLimit o.nestingLimit .statement (solid tokens) = .ok items →
      Item.allChoices { o with uppercase := true } false items =
        Item.allChoices { o with uppercase := false } false items := by
  have hfollows := follows_uppercase o
  constructor
  · rcases @formatTokens_follow _ _ _ hfollows tokens rfl source with
      he | ⟨t, ht, ht'⟩ | ⟨items, hitems, hs, ht, hr⟩
    · exact .inl he
    · exact .inr ⟨t, t, ht, ht', .refl t, rfl, rfl, fun _ _ _ => Iff.rfl⟩
    · have htext := hr.text.mono (sane_arrange hitems).kept.sublist.subset
      exact .inr ⟨_, _, hs, ht, htext, htext.length_eq, htext.folded, fun n c => htext.isBlank_iff n⟩
  · intro items hitems
    exact List.forall₂_eq_eq_eq ▸ hfollows.arranged_choices Draft.Recast.onOneLine_eq hitems

end SqlLayout
