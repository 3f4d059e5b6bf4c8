import SqlLayout.Format
import SqlLayout.Proofs.Faithful
import SqlLayout.Proofs.Margin
import SqlLayout.Proofs.UpperCase

/-! A laid out statement is its tokens, in order and each as it is written, with nothing but spaces
and line ends between them.
-/

set_option autoImplicit false

namespace SqlLayout

namespace Token

/-- The text of the token is there and has no blank at either end. Comments are free. -/
def Tidy : Token → Prop
  | .identifier t | .quotedName t | .string t | .number t | .operator t => Text.Solid t
  | _ => True

instance : DecidablePred Tidy
  | .identifier t | .quotedName t | .string t | .number t | .operator t =>
    inferInstanceAs (Decidable (Text.Solid t))
  | .keyword _ | .comma | .semicolon | .dot | .openParen | .closeParen | .lineComment _
  | .blockComment _ | .gap _ => .isTrue trivial

end Token

theorem solid_keyword (k : Keyword) :
    Text.Solid k.text ∧ Text.Solid (k.text.map Char.toLower) := by
  cases k <;> decide +kernel

theorem Text.Solid.filter {t : Text} (h : Solid t) {p : Char → Bool}
    (hp : ∀ c, isBlank c = false → p c = true) : Solid (t.filter p) := by
  constructor
  · obtain ⟨c, a, rfl, hc⟩ := h.starts
    simp [hp c hc, hc]
  · obtain ⟨a, c, rfl, hc⟩ := h.ends
    simp [List.filter_append, hp c hc, hc]

theorem Text.kept_of_ink {c : Char} (h : isBlank c = false) : (c != '\n' && c != '\r') = true := by
  by_contra hn
  have : c = '\n' ∨ c = '\r' := by
    by_contra hne
    simp_all
  rcases this with rfl | rfl <;> simp [isBlank] at h

theorem Token.Tidy.solid {t : Token} (h : t.Tidy) (hg : t.isGap = false) (o : Options)
    (flat : Bool) (prev : Option Token) : Text.Solid (t.render o flat prev) := by
  cases t with
  | keyword k =>
    simp only [Token.render]
    split
    · exact (solid_keyword k).2
    · exact (solid_keyword k).1
  | identifier t =>
    simp only [Token.render]
    split
    · exact Text.Solid.upper h
    · exact h
  | string t =>
    simp only [Token.render]
    split
    · exact Text.Solid.filter h fun c => Text.kept_of_ink
    · exact h
  | quotedName t => exact h
  | number t => exact h
  | operator t => exact h
  | gap t => simp [Token.isGap] at hg
  | lineComment t =>
    refine ⟨rfl, ?_⟩
    by_cases hn : Text.trimEnd t = []
    · simp [Token.render, hn]; rfl
    · have hlast : ¬Text.isBlank ((Text.trimEnd t).getLast hn) = true :=
        List.rdropWhile_last_not Text.isBlank t hn
      have : (Text.trimEnd t).getLast? = some ((Text.trimEnd t).getLast hn) :=
        List.getLast?_eq_some_getLast hn
      rw [Token.render, List.getLast?_append_of_ne_nil _ hn, this]
      simpa using hlast
  | blockComment t =>
    refine ⟨rfl, ?_⟩
    rw [Token.render, List.getLast?_append_of_ne_nil _ (by simp)]
    rfl
  | comma => exact ⟨rfl, rfl⟩
  | semicolon => exact ⟨rfl, rfl⟩
  | dot => exact ⟨rfl, rfl⟩
  | openParen => exact ⟨rfl, rfl⟩
  | closeParen => exact ⟨rfl, rfl⟩

theorem Token.unbroken_render {o : Options} {t : Token} (h : '\n' ∉ t.render o false none)
    (flat : Bool) (prev : Option Token) : '\n' ∉ t.render o flat prev := by
  have hkeyword : ∀ k : Keyword, '\n' ∉ k.text ∧ '\n' ∉ k.text.map Char.toLower := by
    intro k
    cases k <;> decide +kernel
  cases t with
  | keyword k =>
    simp only [Token.render]
    split
    · exact (hkeyword k).2
    · exact (hkeyword k).1
  | string t =>
    simp only [Token.render]
    split
    · exact fun hm => h (List.mem_of_mem_filter hm)
    · exact h
  | _ => exact h

theorem Token.solid_unbroken_render {o : Options} {t : Token}
    (h : (t.Tidy ∧ t.isGap = false) ∧ '\n' ∉ t.render o false none) (flat : Bool)
    (prev : Option Token) : Text.Solid (t.render o flat prev) ∧ '\n' ∉ t.render o flat prev :=
  ⟨h.1.1.solid h.1.2 o flat prev, Token.unbroken_render h.2 flat prev⟩

theorem Draft.Shows.rows {R : Rule} {d : Draft} {cs : List Cell} (h : d.Shows R cs) :
    Rows R (inked cs) d.page.lines := by
  obtain ⟨a, b, he, hh, -⟩ := h.page
  rw [he]
  simpa [Page.lines] using hh.above.append (.single hh.current)

theorem Rows.text {R : Rule} {d : Draft} {cs : List Cell} (h : Rows R cs d.page.lines)
    (hn : R.gap '\n' = true) (hw : R.wraps = true) : Line R none cs d.text := by
  have hjoin : Line R none cs d.page.text :=
    (h.join (g := ['\n']) (by simpa using hn) (by simp) (.inl ⟨hw, rfl⟩)).dropEndWhile fun _ => id
  unfold Draft.text
  split
  · have := hjoin.append (g := ['\n', '\n']) (Line.gap (g := []) (by simp)) (by simpa using hn)
      (by simp [hw])
    simpa using this
  · simpa using hjoin

/-- The texts that may stand for a token. `inside` says that it is enclosed in a `CASE` or in the
brackets of a `DECODE`. -/
def Token.Written (o : Options) (inside : Prop) : Token → Text → Prop
  | .keyword k, r => r = k.text.map Char.toLower ∨ o.uppercase = true ∧ r = k.text
  | .identifier t, r => r = if o.isFunction t then Text.upper t else t
  | .string t, r => r = t ∨ inside ∧ r = t.filter fun c => c != '\n' && c != '\r'
  | .lineComment t, r => r = ['-', '-'] ++ Text.trimEnd t
  | .blockComment t, r => r = ['/', '*'] ++ t ++ ['*', '/']
  | .quotedName t, r | .number t, r | .operator t, r | .gap t, r => r = t
  | .comma, r => r = [',']
  | .semicolon, r => r = [';']
  | .dot, r => r = ['.']
  | .openParen, r => r = ['(']
  | .closeParen, r => r = [')']

theorem Token.written_render {o : Options} {flat : Bool} {prev : Option Token} {inside : Prop}
    {t : Token} (h : ∀ x, t = .string x → flat = true → inside) :
    t.Written o inside (t.render o flat prev) := by
  cases t with
  | keyword k =>
    simp only [Token.Written, Token.render]
    split
    · exact .inl rfl
    · rename_i hu
      exact .inr ⟨by simp_all, rfl⟩
  | string x =>
    simp only [Token.Written, Token.render]
    split
    · rename_i hf
      exact .inr ⟨h x rfl hf, rfl⟩
    · exact .inl rfl
  | _ => rfl

/-- The text is that of the tokens, in order, where `before` are those already read, the last one
first: each token as it may be written, and behind it a gap of spaces and line ends. -/
inductive Laid (o : Options) : List Token → List Token → Text → Prop where
  | nil {before : List Token} : Laid o before [] []
  | cons {before rest : List Token} {t : Token} {r g out : Text}
      (hr : t.Written o (Enclosed before.reverse rest) r) (hg : ∀ c ∈ g, c = ' ' ∨ c = '\n')
      (h : Laid o (t :: before) rest out) : Laid o before (t :: rest) (r ++ g ++ out)

theorem laid_of_line {o : Options} {prev : Option Token} {ms : List (Bool × Token)}
    {cs : List Cell} {t : Text} (h : Line .page prev cs t) (hr : List.Forall₂ (Rendered o) ms cs)
    {before : List Token} (hf : Faithful before (ms.map Prod.snd) ms) :
    ∃ g out, t = g ++ out ∧ (∀ c ∈ g, c = ' ' ∨ c = '\n') ∧
      Laid o before (ms.map Prod.snd) out := by
  have hgap : ∀ {g : Text}, (∀ c ∈ g, Rule.page.gap c = true) → ∀ c ∈ g, c = ' ' ∨ c = '\n' :=
    fun hg c hc => by simpa [Rule.page] using hg c hc
  induction h generalizing ms before with
  | @done prev g hg =>
    cases hr
    exact ⟨g, [], by simp, hgap hg.1, .nil⟩
  | @cell prev g t c cs hg hc h ih =>
    cases hr with
    | @cons m _ ms _ hm hrest =>
      have htail : Faithful (m.2 :: before) (ms.map Prod.snd) ms := hf.tail
      obtain ⟨k, out, rfl, hk, hout⟩ := ih hrest htail
      obtain ⟨he, p, hp⟩ := hm
      refine ⟨g, c.2 ++ k ++ out, by simp, hgap hg.1, .cons ?_ hk hout⟩
      rw [hp]
      refine Token.written_render fun x hx hflat => ?_
      simpa using hf.flat (l := []) (r := ms) (x := x) (by
        rw [List.nil_append, ← hx, ← hflat])

theorem sane_arrange {limit room : Nat} {ts : List Token} {items : List Item}
    (h : arrange limit room .statement ts = .ok items) : Sane ts items :=
  nestedSane_arrange limit room (by simp [Arrange.Starts]) (by simp [Arrange.Ending, Place.isOpen]) h

/-- The lines of a layout show what its items write, by every rule that allows for it. -/
theorem rows_writeAll {R : Rule} {o : Options} {limit room : Nat} {ts : List Token}
    {items : List Item} (h : arrange limit room .statement ts = .ok items)
    (hm : R.Admits o (Item.allMarked false items)) :
    ∃ cs, List.Forall₂ (Rendered o) (Item.allMarked false items) cs ∧
      Rows R (inked cs) (writeAll o false items .blank).page.lines := by
  obtain ⟨cs, hr, hshows⟩ := writeAll_shows items false (sane_arrange h).proper hm hm.nil_fits
    Draft.shows_blank
  exact ⟨cs, hr, by simpa using hshows.rows⟩

theorem line_writeAll {o : Options} {limit room : Nat} {ts : List Token} {items : List Item}
    (h : arrange limit room .statement ts = .ok items)
    (hs : ∀ m ∈ Item.allMarked false items, ∀ prev, Text.Solid (m.2.render o m.1 prev)) :
    ∃ cs, List.Forall₂ (Rendered o) (Item.allMarked false items) cs ∧
      Line .page none cs (writeAll o false items .blank).text := by
  have hadmits : Rule.line.Admits o (Item.allMarked false items) :=
    ⟨.inr (.inl rfl), fun m hm prev => Rule.takes_of_solid (hs m hm prev)⟩
  obtain ⟨cs, hr, hrows⟩ := rows_writeAll h hadmits
  have hsolid : ∀ c ∈ cs, Text.Solid c.2 := fun c hc => ((hadmits.fits hr).takes c hc).1 rfl
  rw [inked_of_solid hsolid] at hrows
  refine ⟨cs, hr, (hrows.mono (S := .page) (fun c hc => ?_) rfl rfl rfl).text rfl rfl⟩
  simpa [Rule.page] using .inl (by simpa [Rule.line] using hc)

/-- Layout loses, repeats and reorders nothing: tokens that are tidy and whose fences nest are
laid out, and the text shows them all, in order and each as it may be written. -/
theorem formatTokens_laid (o : Options) (tokens : List Token) (source : Text)
    (hcommand : isCommand (tokens.filter fun t => !t.isGap) = false)
    (hquotes : checkQuotes (tokens.filter fun t => !t.isGap) = .ok ())
    (hbalance : checkBalance 0 (tokens.filter fun t => !t.isGap) = .ok ())
    (htidy : ∀ t ∈ tokens, t.Tidy) (hfenced : Fenced (tokens.filter fun t => !t.isGap))
    (hdots : Undotted (tokens.filter fun t => !t.isGap)) :
    ∃ out, formatTokens o tokens source = .ok out ∧
      Laid o [] (tokens.filter fun t => !t.isGap) out := by
  have hgap : ∀ t ∈ tokens.filter fun t => !t.isGap, t.isGap = false ∧ t.Tidy := fun t ht => by
    obtain ⟨hm, hg⟩ := List.mem_filter.1 ht
    exact ⟨by simpa using hg, htidy t hm⟩
  unfold formatTokens
  generalize tokens.filter (fun t => !t.isGap) = ts at *
  by_cases hne : ts = []
  · subst hne
    exact ⟨[], rfl, .nil⟩
  obtain ⟨items, hitems⟩ : ∃ items, arrange o.nestingLimit o.nestingLimit .statement ts = .ok items := by
    obtain ⟨nested, he⟩ := arrange_eq_run o.nestingLimit o.nestingLimit
    rw [he]
    exact Arrange.run_of_closes rfl (closes_of_checkBalance hbalance)
  have hfaithful := nestedFaithful_arrange o.nestingLimit o.nestingLimit
    (p := .statement) hfenced.stretch hdots hitems
  have hsolid : ∀ m ∈ Item.allMarked false items, ∀ prev, Text.Solid (m.2.render o m.1 prev) := by
    intro m hm prev
    have hmem : m.2 ∈ ts := hfaithful.tokens ▸ List.mem_map_of_mem hm
    exact (hgap m.2 hmem).2.solid (hgap m.2 hmem).1 o m.1 prev
  obtain ⟨cs, hr, hline⟩ := line_writeAll hitems hsolid
  refine ⟨(writeAll o false items .blank).text, ?_, ?_⟩
  · simp [hne, hcommand, hquotes, hbalance, hitems, bind, Except.bind, pure, Except.pure]
  · have hmarks : Faithful [] ((Item.allMarked false items).map Prod.snd)
        (Item.allMarked false items) := by
      rwa [hfaithful.tokens]
    obtain ⟨g, out, hout, hg, hlaid⟩ := laid_of_line hline hr hmarks
    obtain ⟨r, hr, hopens⟩ := (leads_arrange hitems hne).opens (d := .blank) ⟨rfl, rfl⟩ hsolid
    obtain ⟨u, hu⟩ := Draft.opens_text hr hopens
    have hnil : g = [] := by
      cases g with
      | nil => rfl
      | cons c g =>
        obtain ⟨d, w, rfl, hd⟩ := hr.starts
        rw [hout] at hu
        obtain rfl : d = c := (List.cons.inj hu).1
        rcases hg d (by simp) with rfl | rfl <;> simp [Text.isBlank] at hd
    rw [hout, hnil, List.nil_append, ← hfaithful.tokens]
    exact hlaid

theorem formatTokens_laid_case :
    ∃ out, formatTokens {} [.keyword .SELECT, .gap [' '], .keyword .CASE, .keyword .WHEN,
        .identifier ['a'], .keyword .THEN, .string ['\'', '\n', '\''], .keyword .END,
        .lineComment [' ', 'x', ' ']] [] = .ok out ∧
      Laid {} [] [.keyword .SELECT, .keyword .CASE, .keyword .WHEN, .identifier ['a'],
        .keyword .THEN, .string ['\'', '\n', '\''], .keyword .END, .lineComment [' ', 'x', ' ']]
        out :=
  formatTokens_laid {} _ [] rfl rfl rfl (by decide) (by decide) (by decide)

end SqlLayout
