import SqlLayout.Proofs.Rereading

/-! A line comment ends its line. However deep it stands, and whatever is joined or set in around it,
nothing that the layout writes can fall into a comment.
-/

set_option autoImplicit false

namespace SqlLayout

def Token.Seen : Token → Prop
  | .identifier t | .quotedName t | .string t | .number t | .operator t =>
    Text.isBlankText t = false
  | _ => True

instance : DecidablePred Token.Seen
  | .identifier t | .quotedName t | .string t | .number t | .operator t =>
    inferInstanceAs (Decidable (Text.isBlankText t = false))
  | .keyword _ | .comma | .semicolon | .dot | .openParen | .closeParen | .lineComment _
  | .blockComment _ | .gap _ => .isTrue trivial

/-- The text is that of the tokens, in order, with blanks around them, and a line comment is followed
by a line end or by nothing at all. -/
inductive Clear (o : Options) : List Token → Text → Prop where
  | done {g : Text} (hg : ∀ c ∈ g, Text.isBlank c = true) : Clear o [] g
  | word {t : Token} {ts : List Token} {g w x : Text} (ht : t.isRemark = false)
      (hg : ∀ c ∈ g, Text.isBlank c = true) (hw : t.Written o True w) (h : Clear o ts x) :
      Clear o (t :: ts) (g ++ Text.trim w ++ x)
  | remark {t : Text} {ts : List Token} {g x : Text} (hg : ∀ c ∈ g, Text.isBlank c = true)
      (hend : ∀ c ∈ x.head?, c = '\n') (h : Clear o ts x) :
      Clear o (.lineComment t :: ts) (g ++ (['-', '-'] ++ Text.trimEnd t) ++ x)

namespace Text

theorem isBlankText_eq_false {t : Text} :
    isBlankText t = false ↔ ∃ c ∈ t, isBlank c = false := by
  simp [isBlankText]

theorem isBlankText_upper {t : Text} (h : isBlankText t = false) :
    isBlankText (upper t) = false := by
  obtain ⟨c, hc, hb⟩ := isBlankText_eq_false.1 h
  obtain ⟨d, hd⟩ := List.exists_mem_of_ne_nil _ (upperChar_ne_nil c)
  exact isBlankText_eq_false.2 ⟨d, List.mem_flatMap.2 ⟨c, hc, hd⟩, isBlank_upperChar hb hd⟩

theorem isBlankText_filter {t : Text} (h : isBlankText t = false) {p : Char → Bool}
    (hp : ∀ c, isBlank c = false → p c = true) : isBlankText (t.filter p) = false := by
  obtain ⟨c, hc, hb⟩ := isBlankText_eq_false.1 h
  exact isBlankText_eq_false.2 ⟨c, List.mem_filter.2 ⟨hc, hp c hb⟩, hb⟩

end Text

theorem Token.Seen.render {t : Token} (h : t.Seen) (hg : t.isGap = false) (o : Options)
    (flat : Bool) (prev : Option Token) : Cell.Seen (t, t.render o flat prev) := by
  have htidy : t.Tidy → Cell.Seen (t, t.render o flat prev) := fun ht => by
    have hs := ht.solid hg o flat prev
    exact ⟨by simpa using hs.not_blank [] [], fun _ => hs⟩
  cases t with
  | identifier t =>
    refine ⟨?_, by simp [Token.isRemark]⟩
    simp only [Token.render]
    split
    · exact Text.isBlankText_upper h
    · exact h
  | string t =>
    refine ⟨?_, by simp [Token.isRemark]⟩
    simp only [Token.render]
    split
    · exact Text.isBlankText_filter h fun c => Text.kept_of_ink
    · exact h
  | quotedName t => exact ⟨h, by simp [Token.isRemark]⟩
  | number t => exact ⟨h, by simp [Token.isRemark]⟩
  | operator t => exact ⟨h, by simp [Token.isRemark]⟩
  | _ => exact htidy trivial

/-- What follows that which has to end its line. -/
theorem Line.head_of_lone {R : Rule} {p : Token} {cs : List Cell} {x : Text}
    (h : Line R (some p) cs x) (hl : R.lone p = true) : ∀ c ∈ x.head?, c = '\n' := by
  have hhead : ∀ {g y : Text} {q : Option Token}, R.Between (some p) g q →
      (q = none → y = []) → ∀ c ∈ (g ++ y).head?, c = '\n' := by
    intro g y q hg hy c hc
    rcases (hg.2 p rfl).1 hl with ⟨-, hn⟩ | ⟨rfl, hq⟩
    · cases g with
      | nil => simp at hn
      | cons d g => simp_all
    · simp [hy hq] at hc
  cases h with
  | done hg => simpa using hhead (y := []) hg
  | @cell _ g t c cs hg _ _ => simpa using hhead (y := c.2 ++ t) hg (by simp)

theorem clear_of_line {o : Options} {prev : Option Token} {ms : List (Bool × Token)}
    {cs : List Cell} {x : Text} (h : Line .freePage prev (inked cs) x)
    (hr : List.Forall₂ (Rendered o) ms cs) (hs : ∀ c ∈ cs, Cell.Seen c) :
    Clear o (ms.map Prod.snd) x := by
  induction hr generalizing prev x with
  | nil =>
    cases h with
    | done hg => exact .done hg.1
  | @cons m c ms cs hm _ ih =>
    obtain ⟨hseen, hsolid⟩ := hs c (by simp)
    have hcell : inked (c :: cs) = (c.1, Text.trim c.2) :: inked cs := by simp [inked, hseen]
    rw [hcell] at h
    cases h with
    | @cell _ g x _ _ hg _ h =>
      have hclear := ih h fun d hd => hs d (by simp [hd])
      obtain ⟨ht, p, hp⟩ := hm
      by_cases hremark : c.1.isRemark = true
      · -- a comment is solid, so trimming left it as it was written
        have hend := h.head_of_lone hremark
        rw [(hsolid hremark).trim, hp]
        rw [ht] at hremark
        obtain ⟨b, t⟩ := m
        cases t with
        | lineComment t => exact .remark hg.1 hend hclear
        | _ => simp [Token.isRemark] at hremark
      · refine .word (by simpa [ht] using hremark) hg.1 ?_ hclear
        rw [hp]
        exact Token.written_render fun _ _ _ => trivial

/-- Comments never swallow code: where a statement is laid out, whatever its tokens and however they
nest, each comment that is written ends its line. -/
theorem remarks_end_lines (o : Options) (tokens : List Token) (source out : Text)
    (hout : formatTokens o tokens source = .ok out) (hcommand : isCommand (solid tokens) = false)
    (hseen : ∀ t ∈ tokens, t.Seen) : ∃ ts, Kept (solid tokens) ts ∧ Clear o ts out := by
  rcases formatTokens_ok hout hcommand with ⟨hnil, rfl⟩ | ⟨-, -, -, items, hitems, rfl⟩
  · exact ⟨[], hnil ▸ .all [], .done (by simp)⟩
  have hgap : ∀ t ∈ solid tokens, t.isGap = false ∧ t.Seen := fun t ht => by
    obtain ⟨hm, hg⟩ := List.mem_filter.1 ht
    exact ⟨by simpa using hg, hseen t hm⟩
  have hsane := sane_arrange hitems
  have hadmits : Rule.free.Admits o (Item.allMarked false items) := by
    refine ⟨.inr (.inr rfl), fun m hm prev => Rule.free_takes ?_⟩
    obtain ⟨hg, hs⟩ := hgap m.2 (hsane.mem_of_marked false hm)
    exact hs.render hg o m.1 prev
  obtain ⟨cs, hr, hrows⟩ := rows_writeAll hitems hadmits
  have hline : Line .freePage none (inked cs) (writeAll o false items .blank).text :=
    (hrows.mono (S := .freePage) (fun _ => id) rfl rfl rfl).text rfl rfl
  refine ⟨Item.allTokens items, hsane.kept, ?_⟩
  rw [← Item.map_allMarked false]
  exact clear_of_line hline hr fun c hc => ((hadmits.fits hr).takes c hc).2 rfl

theorem remarks_end_lines_nested : ∃ out ts,
    formatTokens {} [.keyword .SELECT, .gap [' '], .openParen, .identifier [' ', 'a'],
      .lineComment ['x', ' '], .operator ['+'], .keyword .CASE, .keyword .WHEN, .identifier ['c'],
      .lineComment ['y'], .keyword .THEN, .identifier ['b'], .keyword .END, .closeParen,
      .lineComment []] [] = .ok out ∧
    Kept [.keyword .SELECT, .openParen, .identifier [' ', 'a'], .lineComment ['x', ' '],
      .operator ['+'], .keyword .CASE, .keyword .WHEN, .identifier ['c'], .lineComment ['y'],
      .keyword .THEN, .identifier ['b'], .keyword .END, .closeParen, .lineComment []] ts ∧
    Clear {} ts out := by
  have hout : formatTokens {} [.keyword .SELECT, .gap [' '], .openParen, .identifier [' ', 'a'],
      .lineComment ['x', ' '], .operator ['+'], .keyword .CASE, .keyword .WHEN, .identifier ['c'],
      .lineComment ['y'], .keyword .THEN, .identifier ['b'], .keyword .END, .closeParen,
      .lineComment []] [] = .ok ("SELECT ( a\n        --x\n        + CASE\n            WHEN c\n" ++
        "            --y\n            THEN b\n          END)\n       --").toList := by decide +kernel
  obtain ⟨ts, hkept, hclear⟩ := remarks_end_lines _ _ _ _ hout rfl (by decide)
  exact ⟨_, ts, hout, hkept, hclear⟩

end SqlLayout
