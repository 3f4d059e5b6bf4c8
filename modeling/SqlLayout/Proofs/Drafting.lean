import SqlLayout.Layout.Write
import SqlLayout.Proofs.Arrangement

/-! What is on a page while items are written on it. Every step of the writing adds its tokens
behind those that are there; lines are trimmed, emptied and joined, and only gaps change.
-/

set_option autoImplicit false

namespace SqlLayout

namespace Page

variable {R : Rule} {p : Page} {a b cs : List Cell} {t g : Text} {ts : List Text}

/-- The finished lines show the cells `a`, and the line being written shows `b`. -/
structure Holds (R : Rule) (p : Page) (a b : List Cell) : Prop where
  above : Rows R a p.above.reverse
  current : Line R none b p.current.reverse

theorem Holds.newline (h : p.Holds R a b) : p.newline.Holds R (a ++ b) [] where
  above := by
    have := h.current.dropEndWhile (p := (· == ' ')) fun c hc => by
      obtain rfl : c = ' ' := by simpa using hc
      rfl
    simpa [Page.newline, Text.dropEndWhile] using h.above.append (.single this)
  current := .gap (by simp [Page.newline])

theorem Holds.push (h : p.Holds R a b) (hl : Line R none cs t) (hg : ∀ c ∈ g, R.gap c = true)
    (hsep : ∀ p ∈ Line.lastToken none b,
      (R.lone p = true → R.wraps = true ∧ g.head? = some '\n' ∨ g ++ t = [] ∧ cs = []) ∧
        ∀ q ∈ cs.head?, g = [] → R.tight p q.1 = true) :
    ((p.push g).push t).Holds R a (b ++ cs) where
  above := h.above
  current := by simpa [Page.push] using h.current.append hl hg hsep

/-- The cells of a line of which nothing has to stand alone. -/
def Open (R : Rule) (b : List Cell) : Prop := ∀ c ∈ b, R.lone c.1 = false

theorem Open.last (h : Open R b) {p : Token} (hp : p ∈ Line.lastToken none b) :
    R.lone p = false := by
  obtain ⟨c, hc, rfl⟩ := Line.mem_of_lastToken hp
  exact h c hc

theorem Holds.indent (h : p.Holds R a b) (ho : Open R b) (n : Nat) :
    (p.indent n).Holds R a b where
  above := h.above
  current := by
    have := h.current.append (g := []) (Line.gap (R := R) (g := Text.spaces n) (by
      intro c hc
      obtain rfl : c = ' ' := List.eq_of_mem_replicate hc
      exact R.space)) (by simp) (fun q hq => ⟨by simp [ho.last hq], by simp⟩)
    simpa [Page.indent, Text.spaces] using this

theorem Holds.nil_of_atLineStart (h : p.Holds R a b) (hs : p.atLineStart = true) : b = [] :=
  h.current.nil_of_blank (by simpa [atLineStart, Text.isBlankText] using hs)

theorem Holds.startLine (h : p.Holds R a b) (n : Nat) :
    (p.startLine n).Holds R (a ++ b) [] := by
  unfold Page.startLine
  split
  · rename_i hs
    obtain rfl := h.nil_of_atLineStart hs
    refine Holds.indent ⟨?_, .gap ?_⟩ (by simp [Open]) n
    · simpa [clearLine, hs] using h.above
    · simp [clearLine, hs]
  · exact h.newline.indent (by simp [Open]) n

theorem current_startLine (p : Page) (n : Nat) : (p.startLine n).current = Text.spaces n := by
  unfold Page.startLine
  split <;> simp_all [Page.indent, Page.newline, clearLine]

theorem ink_startLine (p : Page) (n : Nat) : (p.startLine n).ink = p.ink := by
  unfold Page.startLine
  split <;> simp_all [Page.indent, Page.newline, clearLine]

theorem atLineStart_startLine (p : Page) (n : Nat) : (p.startLine n).atLineStart = true := by
  simp [atLineStart, current_startLine, Text.isBlankText, Text.spaces,
    show Text.isBlank ' ' = true from rfl]

theorem Holds.pushLine (h : p.Holds R a b) (hl : Line R none cs t) (n : Nat) :
    ((p.newline.indent n).push t).Holds R (a ++ b) cs := by
  have := (h.newline.indent (by simp [Open]) n).push (g := []) hl (by simp)
    (by simp [Line.lastToken])
  simpa [Page.push] using this

theorem Holds.pushBelow (h : p.Holds R a b) (hr : Rows R cs ts) (n : Nat) :
    ∃ c d, a ++ b ++ cs = c ++ d ∧ (p.pushBelow n ts).Holds R c d ∧
      (Open R b → Open R cs → Open R d) := by
  induction hr generalizing p a b with
  | nil => exact ⟨a, b, by simp, h, fun hb _ => hb⟩
  | @cons x y t ts hl _ ih =>
    obtain ⟨c, d, he, hh, ho⟩ := ih (h.pushLine hl n)
    exact ⟨c, d, by simpa using he, hh, fun _ hcs => ho (fun z hz => hcs z (by simp [hz]))
      (fun z hz => hcs z (by simp [hz]))⟩

def Block (R : Rule) (cs : List Cell) (ts : List Text) : Prop :=
  ∃ init last a b, ts = init ++ [last] ∧ cs = a ++ b ∧ Rows R a init ∧ Line R none b last ∧ Open R b

theorem Block.rows (h : Block R cs ts) : Rows R cs ts := by
  obtain ⟨init, last, c, d, rfl, rfl, hi, hl, -⟩ := h
  exact hi.append (.single hl)

theorem Holds.pushLines (h : p.Holds R a b) (hb : Open R b) (hc : Block R cs ts)
    (hg : ∀ c ∈ g, R.gap c = true)
    (ht : ∀ p ∈ Line.lastToken none b, ∀ q ∈ cs.head?, g = [] → R.tight p q.1 = true) (n : Nat) :
    ∃ c d, a ++ b ++ cs = c ++ d ∧ ((p.push g).pushLines n ts).Holds R c d ∧ Open R d := by
  obtain ⟨init, last, x, y, rfl, rfl, hi, hl, hy⟩ := hc
  cases hi with
  | nil =>
    refine ⟨a, b ++ y, by simp, h.push hl hg fun p hp => ⟨by simp [hb.last hp], ht p hp⟩, ?_⟩
    intro z hz
    exact (List.mem_append.1 hz).elim (hb z) (hy z)
  | @cons x z t ts hx hz =>
    have hfirst := h.push hx hg fun p hp => ⟨by simp [hb.last hp], fun q hq => ht p hp q (by
      cases x <;> simp_all)⟩
    obtain ⟨c, d, he, hrest, -⟩ := hfirst.pushBelow hz n
    refine ⟨c ++ d, y, by simpa using congrArg (· ++ y) he, ?_, hy⟩
    simpa [Page.pushLines, Page.pushBelow] using hrest.pushLine hl n

theorem rows_dropBlank {us : List Text} (h : Rows R cs us.reverse) :
    Rows R cs (dropBlank us).reverse := by
  fun_induction dropBlank us generalizing cs with
  | case1 t u rest hb ih =>
    rw [List.reverse_cons] at h
    obtain ⟨a, b, rfl, ha, hl⟩ := h.of_concat
    obtain rfl := hl.nil_of_blank hb
    simpa using ih ha
  | case2 => exact h
  | case3 => exact h

theorem dropBlank_suffix (ls : List Text) : dropBlank ls <:+ ls := by
  fun_induction dropBlank ls with
  | case1 t u rest _ ih => exact ih.trans (List.suffix_cons t _)
  | case2 => exact List.suffix_rfl
  | case3 => exact List.suffix_rfl

theorem dropBlank_ne_nil {us : List Text} (h : us ≠ []) : dropBlank us ≠ [] := by
  fun_induction dropBlank us <;> simp_all

theorem Holds.trimmedLines (h : p.Holds R a b) : ∃ init last c d,
    p.trimmedLines = init ++ [last] ∧ a ++ b = c ++ d ∧ Rows R c init ∧ Line R none d last := by
  have hall : Rows R (a ++ b) (p.current.reverse :: p.above).reverse := by
    simpa using h.above.append (.single h.current)
  have hrows := rows_dropBlank hall
  unfold Page.trimmedLines
  split
  · rename_i he
    exact absurd he (dropBlank_ne_nil (by simp))
  · rename_i t rest he
    rw [he, List.reverse_cons] at hrows
    obtain ⟨c, d, hcd, hc, hd⟩ := hrows.of_concat
    exact ⟨rest.reverse, Text.trimEnd t, c, d, by simp, hcd, hc, hd.dropEndWhile fun _ => id⟩

end Page

theorem Line.lastToken_none (cs : List Cell) : lastToken none cs = cs.getLast?.map Prod.fst := by
  rcases List.eq_nil_or_concat cs with rfl | ⟨b, c, rfl⟩ <;> simp [lastToken]

/-- On a line only the last token can have to stand alone. -/
theorem Line.open_of_last {R : Rule} {prev : Option Token} {cs : List Cell} {t : Text}
    (hw : R.wraps = false) (h : Line R prev cs t)
    (hl : ∀ p ∈ lastToken prev cs, R.lone p = false) : Page.Open R cs := by
  induction h with
  | done => simp [Page.Open]
  | @cell prev g t c cs hg hc h ih =>
    intro d hd
    rcases List.mem_cons.1 hd with rfl | hd
    · cases h with
      | done => exact hl d.1 rfl
      | @cell _ g t e cs hg' _ _ =>
        by_contra hlone
        rcases (hg'.2 d.1 rfl).1 (by simpa using hlone) with ⟨hn, -⟩ | ⟨-, hn⟩
        · simp [hw] at hn
        · simp at hn
    · exact ih hl d hd

namespace Draft

variable {R : Rule} {o : Options} {flat : Bool} {d inner : Draft} {cs ds : List Cell}

structure Shows (R : Rule) (d : Draft) (cs : List Cell) : Prop where
  page : ∃ a b, inked cs = a ++ b ∧ d.page.Holds R a b ∧ Page.Open R b
  first : d.first = cs.head?.map Prod.fst
  last : d.last = cs.getLast?.map Prod.fst
  remarked : d.remarked = cs.any (·.1.isRemark)

theorem shows_blank : blank.Shows R [] :=
  ⟨⟨[], [], rfl, ⟨.nil, .gap (by simp [blank, Page.blank])⟩, by simp [Page.Open]⟩, rfl, rfl, rfl⟩

theorem Shows.newline (h : d.Shows R cs) : d.newline.Shows R cs where
  page := by
    obtain ⟨a, b, he, hh, -⟩ := h.page
    exact ⟨a ++ b, [], by simpa using he, hh.newline, by simp [Page.Open]⟩
  first := h.first
  last := h.last
  remarked := h.remarked

theorem Shows.startLine (h : d.Shows R cs) (n : Nat) : (d.startLine n).Shows R cs where
  page := by
    obtain ⟨a, b, he, hh, -⟩ := h.page
    exact ⟨a ++ b, [], by simpa using he, hh.startLine n, by simp [Page.Open]⟩
  first := h.first
  last := h.last
  remarked := h.remarked

theorem mem_inked {c : Cell} (h : c ∈ inked cs) : ∃ r, (c.1, r) ∈ cs := by
  simp only [inked, List.mem_map, List.mem_filter] at h
  obtain ⟨e, he, rfl⟩ := h
  exact ⟨e.2, he.1⟩

theorem tokens_inked (h : ∀ c ∈ cs, Text.isBlankText c.2 = false) :
    (inked cs).map Prod.fst = cs.map Prod.fst := by
  have hall : (cs.filter fun c => !Text.isBlankText c.2) = cs :=
    List.filter_eq_self.2 fun c hc => by simp [h c hc]
  rw [inked, hall, List.map_map]
  rfl

/-- Unless the rule is the loose one, there is something to see in every cell. -/
theorem seen_of_fits (hR : R.Fits cs) :
    R = .loose ∨ R.wraps = false ∧ (inked cs).map Prod.fst = cs.map Prod.fst := by
  rcases hR.known with rfl | rfl | rfl
  · exact .inl rfl
  · exact .inr ⟨rfl, tokens_inked fun c hc => by
      simpa using ((hR.takes c hc).1 rfl).not_blank [] []⟩
  · exact .inr ⟨rfl, tokens_inked fun c hc => ((hR.takes c hc).2 rfl).1⟩

theorem open_of_fits (hR : R.Fits cs) (h : ∀ c ∈ cs, c.1.isRemark = false) :
    Page.Open R (inked cs) := by
  intro c hc
  obtain ⟨r, hr⟩ := mem_inked hc
  exact hR.lone (h (c.1, r) hr)

theorem spaceBefore_of_atLineStart (h : d.page.atLineStart = true) (t : Token) :
    d.spaceBefore t = d.page := by
  cases hl : d.last <;> simp [Draft.spaceBefore, h, hl, needsSpace]

theorem Shows.spaceBefore (h : d.Shows R cs) (hR : R.Fits cs) {a b : List Cell}
    (he : inked cs = a ++ b) (hh : d.page.Holds R a b) (t : Token) :
    ∃ g, d.spaceBefore t = d.page.push g ∧ (∀ c ∈ g, R.gap c = true) ∧
      ∀ p ∈ Line.lastToken none b, g = [] → R.tight p t = true := by
  by_cases hs : needsSpace d.last t d.page.atLineStart = true
  · exact ⟨[' '], by simp [Draft.spaceBefore, hs], by simp [R.space], by simp⟩
  · refine ⟨[], by simp [Draft.spaceBefore, hs, Page.push], by simp, fun p hp _ => ?_⟩
    rcases hR.known with rfl | rfl | rfl
    · rfl
    · have hb : b ≠ [] := by rintro rfl; simp [Line.lastToken] at hp
      have hlast : d.last = some p := by
        have hsolid : ∀ c ∈ cs, Text.Solid c.2 := fun c hc => (hR.takes c hc).1 rfl
        rw [Line.lastToken_none] at hp
        rw [h.last, ← inked_of_solid hsolid, he, List.getLast?_append_of_ne_nil _ hb]
        exact hp
      have hstart : d.page.atLineStart = false := by
        by_contra hn
        exact hb (hh.nil_of_atLineStart (by simpa using hn))
      have hspaced : p.spaced t = false := by simpa [needsSpace, hlast, hstart] using hs
      simp [Rule.line, hspaced]
    · rfl

theorem Shows.word (h : d.Shows R cs) {t : Token} (hR : R.Fits (cs ++ [(t, t.render o flat d.last)]))
    (ht : t.isRemark = false) : (d.word o flat t).Shows R (cs ++ [(t, t.render o flat d.last)]) where
  page := by
    obtain ⟨a, b, he, hh, ho⟩ := h.page
    have hcs : R.Fits cs := hR.of_subset (by simp)
    have hc : R.Fits [(t, t.render o flat d.last)] := hR.of_subset (by simp)
    obtain ⟨g, hg, hgap, htight⟩ := h.spaceBefore hcs he hh t
    refine ⟨a, b ++ inked [(t, t.render o flat d.last)], by simp [he], ?_, fun c hc' => ?_⟩
    · simp only [Draft.word, hg]
      refine hh.push (line_cell hc) hgap fun p hp => ⟨by simp [ho.last hp], fun q hq => ?_⟩
      obtain ⟨r, hr⟩ := mem_inked (List.mem_of_mem_head? hq)
      obtain ⟨hqt, -⟩ : q.1 = t ∧ _ := by simpa using hr
      rw [hqt]
      exact htight p hp
    · rcases List.mem_append.1 hc' with hc' | hc'
      · exact ho c hc'
      · exact open_of_fits hc (by simpa using ht) c hc'
  first := by cases cs <;> simp [Draft.word, h.first]
  last := by simp [Draft.word]
  remarked := by simp [Draft.word, h.remarked, ht]

theorem Shows.remark (h : d.Shows R cs) {t : Text} (n : Nat)
    (hR : R.Fits [(.lineComment t, (Token.lineComment t).render o flat d.last)]) :
    (d.remark o flat t n).Shows R
      (cs ++ [(.lineComment t, (Token.lineComment t).render o flat d.last)]) where
  page := by
    obtain ⟨a, b, he, hh, ho⟩ := h.page
    have hnil : Page.Open R [] := by simp [Page.Open]
    refine ⟨a ++ b ++ inked [(.lineComment t, (Token.lineComment t).render o flat d.last)], [],
      by simp [he], ?_, hnil⟩
    refine Page.Holds.indent ?_ hnil n
    split
    · rename_i hs
      obtain rfl := hh.nil_of_atLineStart hs
      have := hh.push (g := []) (line_cell hR) (by simp) (by simp [Line.lastToken])
      simpa [Page.push] using this.newline
    · exact (hh.pushLine (line_cell hR) n).newline
  first := by cases cs <;> simp [Draft.remark, h.first]
  last := by simp [Draft.remark]
  remarked := by simp [Draft.remark, Token.isRemark]

theorem Shows.lines (h : inner.Shows R ds) (hR : R.Fits ds) :
    Page.Block R (inked ds) inner.lines := by
  obtain ⟨a, b, he, hh, -⟩ := h.page
  obtain ⟨init, last, x, y, ht, hxy, hi, hl⟩ := hh.trimmedLines
  have hnil : Page.Open R [] := by simp [Page.Open]
  unfold Draft.lines
  split
  · refine ⟨init ++ [last], [], inked ds, [], by rw [ht], by simp, ?_, .gap (by simp), hnil⟩
    rw [he, hxy]
    exact hi.append (.single hl)
  · rename_i hlast
    refine ⟨init, last, x, y, ht, by rw [he, hxy], hi, hl, ?_⟩
    rcases seen_of_fits hR with rfl | ⟨hw, hseen⟩
    · exact fun _ _ => rfl
    · refine hl.open_of_last hw fun p hp => hR.lone ?_
      have hy : y ≠ [] := by rintro rfl; simp [Line.lastToken] at hp
      have hp' : inner.last = some p := by
        rw [Line.lastToken_none] at hp
        rw [h.last, ← List.getLast?_map, ← hseen, List.getLast?_map, he, hxy,
          List.getLast?_append_of_ne_nil _ hy]
        exact hp
      cases p <;> first | rfl | exact absurd hp' (hlast _)

theorem Shows.spaceBeforePassage (h : d.Shows R cs) (hi : inner.Shows R ds)
    (hR : R.Fits (cs ++ ds)) {a b : List Cell} (he : inked cs = a ++ b) (hh : d.page.Holds R a b) :
    ∃ g, (inner.first.elim d.page fun t => d.spaceBefore t) = d.page.push g ∧
      (∀ c ∈ g, R.gap c = true) ∧
      ∀ p ∈ Line.lastToken none b, ∀ q ∈ (inked ds).head?, g = [] → R.tight p q.1 = true := by
  have hcs : R.Fits cs := hR.of_subset (by simp)
  cases hf : inner.first with
  | none =>
    obtain rfl : ds = [] := by
      cases ds with
      | nil => rfl
      | cons c ds => simp [hi.first] at hf
    exact ⟨[], by simp [Page.push], by simp, by simp [inked]⟩
  | some t =>
    obtain ⟨g, hg, hgap, ht⟩ := h.spaceBefore hcs he hh t
    refine ⟨g, by simpa using hg, hgap, fun p hp q hq hn => ?_⟩
    have hds : R.Fits ds := hR.of_subset (by simp)
    rcases seen_of_fits hds with rfl | ⟨-, hseen⟩
    · rfl
    · have hq' : t = q.1 := by
        have hfirst := hi.first
        rw [hf, ← List.head?_map, ← hseen, List.head?_map,
          show (inked ds).head? = some q from hq] at hfirst
        simpa using hfirst
      exact hq' ▸ ht p hp hn

theorem Shows.setIn (h : d.Shows R cs) (hi : inner.Shows R ds) (hR : R.Fits (cs ++ ds)) :
    (d.setIn inner).Shows R (cs ++ ds) where
  page := by
    obtain ⟨a, b, he, hh, ho⟩ := h.page
    obtain ⟨g, hg, hgap, ht⟩ := h.spaceBeforePassage hi hR he hh
    have hds : R.Fits ds := hR.of_subset (by simp)
    obtain ⟨x, y, hxy, hp, hy⟩ := hh.pushLines ho (hi.lines hds) hgap ht
      (d.page.push g).column
    exact ⟨x, y, by simp [he, ← hxy], by simpa [Draft.setIn, hg] using hp, hy⟩
  first := by cases cs <;> simp [Draft.setIn, h.first, hi.first]
  last := by
    rcases List.eq_nil_or_concat ds with rfl | ⟨ds, c, rfl⟩ <;>
      simp [Draft.setIn, h.last, hi.last]
  remarked := by simp [Draft.setIn, h.remarked, hi.remarked]

theorem Shows.setOnLine (h : d.Shows R cs) (hi : inner.Shows R ds) (hR : R.Fits (cs ++ ds))
    (hr : inner.remarked = false) : (d.setOnLine inner).Shows R (cs ++ ds) where
  page := by
    obtain ⟨a, b, he, hh, ho⟩ := h.page
    obtain ⟨g, hg, hgap, ht⟩ := h.spaceBeforePassage hi hR he hh
    have hds : R.Fits ds := hR.of_subset (by simp)
    have hopen : Page.Open R (inked ds) :=
      open_of_fits hds (by simpa [hi.remarked] using hr)
    refine ⟨a, b ++ inked ds, by simp [he], ?_, fun c hc => ?_⟩
    · simpa [Draft.setOnLine, hg] using hh.push ((hi.lines hds).rows.collapse hopen) hgap
        fun p hp => ⟨by simp [ho.last hp], ht p hp⟩
    · exact (List.mem_append.1 hc).elim (ho c) (hopen c)
  first := by cases cs <;> simp [Draft.setOnLine, h.first, hi.first]
  last := by
    rcases List.eq_nil_or_concat ds with rfl | ⟨ds, c, rfl⟩ <;>
      simp [Draft.setOnLine, h.last, hi.last]
  remarked := by simp [Draft.setOnLine, h.remarked, hi.remarked]

end Draft

theorem Draft.Shows.close {R : Rule} {o : Options} {flat : Bool} {d : Draft} {cs ds : List Cell}
    {ts : List Text} (h : d.Shows R cs) (hr : Rows R (inked ds) ts)
    (hl : ∀ c ∈ ds, c.1.isRemark = false) (hR : R.Fits cs) (hne : cs ≠ []) :
    ((Draft.startLine 0 { d with page := d.page.pushBelow 0 ts }).word o flat .closeParen).Shows R
      (cs ++ ds ++ [(.closeParen, [')'])]) where
  page := by
    obtain ⟨a, b, he, hh, hb⟩ := h.page
    obtain ⟨x, y, hxy, hp, -⟩ := hh.pushBelow hr 0
    have hc : R.Fits [((.closeParen, [')']) : Cell)] := hR.solid (by decide)
    have hpush := (hp.startLine 0).push (g := []) (line_cell hc) (by simp) (by simp [Line.lastToken])
    refine ⟨x ++ y, inked [(.closeParen, [')'])], by simp [he, ← hxy], ?_, ?_⟩
    · have hspace : ∀ q : Option Token, needsSpace q .closeParen true = false := by
        intro q; cases q <;> rfl
      simpa [Draft.word, Draft.spaceBefore, Draft.startLine, Page.atLineStart_startLine, hspace,
        Token.render, Page.push] using hpush
    · exact open_of_fits hc (by simp [Token.isRemark])
  first := by
    cases cs with
    | nil => exact absurd rfl hne
    | cons c cs => simp [Draft.word, Draft.startLine, h.first]
  last := by simp [Draft.word]
  remarked := by
    have hds : ds.any (·.1.isRemark) = false := by simpa using hl
    rw [List.any_append, List.any_append, hds, ← h.remarked]
    simp [Draft.word, Draft.startLine, Token.isRemark]

def Rendered (o : Options) (m : Bool × Token) (c : Cell) : Prop :=
  c.1 = m.2 ∧ ∃ prev, c.2 = m.2.render o m.1 prev

structure Rule.Admits (R : Rule) (o : Options) (ms : List (Bool × Token)) : Prop where
  known : R = .loose ∨ R = .line ∨ R = .free
  takes : ∀ m ∈ ms, ∀ prev, R.Takes (m.2, m.2.render o m.1 prev)

section

variable {R : Rule} {o : Options} {flat : Bool} {ms ns : List (Bool × Token)} {cs ds : List Cell}

theorem Rule.Admits.of_subset (h : R.Admits o ms) (hs : ns ⊆ ms) : R.Admits o ns :=
  ⟨h.known, fun m hm => h.takes m (hs hm)⟩

theorem Rule.Admits.fits (h : R.Admits o ms) (hr : List.Forall₂ (Rendered o) ms cs) : R.Fits cs := by
  refine ⟨h.known, fun c hc => ?_⟩
  obtain ⟨m, hm, he, prev, hp⟩ : ∃ m ∈ ms, Rendered o m c := by
    clear h
    induction hr with
    | nil => simp at hc
    | @cons m _ _ _ hmc _ ih =>
      rcases List.mem_cons.1 hc with rfl | hc
      · exact ⟨m, by simp, hmc⟩
      · obtain ⟨n, hn, hr⟩ := ih hc
        exact ⟨n, by simp [hn], hr⟩
  rw [show c = (m.2, m.2.render o m.1 prev) from Prod.ext he hp]
  exact h.takes m hm prev

theorem Rule.Admits.nil_fits (h : R.Admits o ms) : R.Fits [] := ⟨h.known, by simp⟩

theorem tokens_of_rendered (h : List.Forall₂ (Rendered o) ms cs) : cs.map Prod.fst = ms.map Prod.snd := by
  induction h with
  | nil => rfl
  | cons hmc _ ih => rw [List.map_cons, List.map_cons, ih, hmc.1]

theorem no_remark_of_rendered (hr : List.Forall₂ (Rendered o) ms cs)
    (h : ∀ m ∈ ms, m.2.isRemark = false) : ∀ c ∈ cs, c.1.isRemark = false := by
  induction hr with
  | nil => simp
  | cons hmc _ ih =>
    simp only [List.mem_cons, forall_eq_or_imp] at h ⊢
    exact ⟨hmc.1 ▸ h.1, ih h.2⟩

def Definition.Shows (R : Rule) (d : Definition) (cs : List Cell) : Prop :=
  ∃ a b, cs = a ++ b ∧ Line R none (inked a) d.name ∧ Line R none (inked b) d.rest

theorem Definition.Shows.line {d : Definition} (h : d.Shows R cs) (hR : R.Fits cs)
    (hl : ∀ c ∈ cs, c.1.isRemark = false) {indent width : Nat} (hw : d.name.length < width) :
    Line R none (inked cs) (d.line indent width) := by
  obtain ⟨a, b, rfl, ha, hb⟩ := h
  have hspaces : ∀ n, ∀ c ∈ Text.spaces n, R.gap c = true := fun n c hc => by
    obtain rfl : c = ' ' := List.eq_of_mem_replicate hc
    exact R.space
  have hname : Line R none (inked a) (Text.spaces indent ++ d.name) := by
    simpa using (Line.gap (g := []) (by simp)).append ha (hspaces indent) (by simp [Line.lastToken])
  unfold Definition.line
  split
  · rename_i he
    have : inked b = [] := hb.nil_of_blank (by simp_all [Text.isBlankText])
    simpa [this] using hname
  · have hfits : R.Fits a := hR.of_subset (by simp)
    have hopen : Page.Open R (inked a) := Draft.open_of_fits hfits fun c hc => hl c (by simp [hc])
    have := hname.append hb (hspaces (width - d.name.length)) fun p hp =>
      ⟨by simp [hopen.last hp], fun _ _ hn => by simp [Text.spaces] at hn; omega⟩
    simpa using this

theorem Definition.length_le_width {d : Definition} {defs : List Definition} (h : d ∈ defs) :
    d.name.length + 2 ≤ Definition.width defs := by
  have hmax : ∀ (ns : List Nat) (m : Nat), m ≤ ns.foldl max m ∧ ∀ n ∈ ns, n ≤ ns.foldl max m := by
    intro ns
    induction ns with
    | nil => simp
    | cons k ns ih =>
      intro m
      obtain ⟨h₁, h₂⟩ := ih (max m k)
      refine ⟨by simp only [List.foldl_cons]; omega, fun n hn => ?_⟩
      rcases List.mem_cons.1 hn with rfl | hn
      · simp only [List.foldl_cons]; omega
      · exact h₂ n hn
  have := (hmax (defs.map fun d => d.name.length) 0).2 d.name.length (by simp; exact ⟨d, h, rfl⟩)
  unfold Definition.width
  omega

theorem Definition.length_lt_width {d : Definition} {defs : List Definition} (h : d ∈ defs) :
    d.name.length < Definition.width defs := by
  have := length_le_width h
  omega

/-- Aligned definitions show their cells, with the commas written tight. -/
theorem rows_withCommas {ts : List Text} {css : List (List Cell)}
    (h : List.Forall₂ (fun t cs => Line R none (inked cs) t) ts css)
    (hR : R.Fits css.flatten) (hl : ∀ c ∈ css.flatten, c.1.isRemark = false) :
    Rows R (inked ([((.comma, [',']) : Cell)].intercalate css)) (Definition.withCommas ts) := by
  induction h with
  | nil => exact .nil
  | @cons t cs ts css ht hrest ih =>
    have hrows := ih (hR.of_subset (by simp))
      (fun c hc => hl c (by simp_all))
    cases hrest with
    | nil => simpa [Definition.withCommas] using Rows.single ht
    | @cons u ds ts css _ _ =>
      have hcs : R.Fits cs := hR.of_subset (by simp)
      have hopen : Page.Open R (inked cs) := Draft.open_of_fits hcs fun c hc => hl c (by simp [hc])
      have hcomma : R.Fits [((.comma, [',']) : Cell)] := hcs.solid (by decide)
      have htight : ∀ p, R.tight p .comma = true := by
        rcases hcs.known with rfl | rfl | rfl <;> simp [Rule.loose, Rule.line, Rule.free]
      have hline := ht.append (g := []) (line_cell hcomma) (by simp) fun p hp =>
        ⟨by simp [hopen.last hp], fun q hq _ => by
          obtain ⟨r, hr⟩ := Draft.mem_inked (List.mem_of_mem_head? hq)
          obtain ⟨hq', -⟩ : q.1 = .comma ∧ _ := by simpa using hr
          exact hq' ▸ htight p⟩
      rw [List.intercalate_cons_cons, inked_append, inked_append, Definition.withCommas]
      · simpa using Rows.cons hline hrows
      · simp

theorem rows_definitions {defs : List Definition} {css : List (List Cell)}
    (h : List.Forall₂ (Definition.Shows R) defs css) (hR : R.Fits css.flatten)
    (hl : ∀ c ∈ css.flatten, c.1.isRemark = false) (indent : Nat) :
    Rows R (inked ([((.comma, [',']) : Cell)].intercalate css)) (Definition.align defs indent) := by
  refine rows_withCommas ?_ hR hl
  have hw : ∀ d ∈ defs, d.name.length < Definition.width defs := fun d =>
    Definition.length_lt_width
  generalize Definition.width defs = width at hw ⊢
  induction h with
  | nil => exact .nil
  | @cons d cs defs css hd _ ih =>
    refine .cons (hd.line (hR.of_subset (by simp))
      (fun c hc => hl c (by simp [hc])) (hw d (by simp))) ?_
    exact ih (hR.of_subset (by simp))
      (fun c hc => hl c (by simp_all)) (fun e he => hw e (by simp [he]))

end

theorem Item.partMarked_cons (flat : Bool) (part : List Item) (parts : List (List Item)) :
    partMarked flat (part :: parts) =
      allMarked flat part ++ parts.flatMap fun q => (flat, .comma) :: allMarked flat q := by
  induction parts generalizing part with
  | nil => simp [partMarked]
  | cons q parts ih => simp [partMarked, ih]

theorem forall₂_intercalate {α β : Type} {r : α → β → Prop} {x : α} {y : β} (hxy : r x y)
    {as : List (List α)} {bs : List (List β)} (h : List.Forall₂ (List.Forall₂ r) as bs) :
    List.Forall₂ r ([x].intercalate as) ([y].intercalate bs) := by
  induction h with
  | nil => exact .nil
  | @cons a b as bs hab h ih =>
    cases h with
    | nil => simpa using hab
    | cons _ _ =>
      simp only [List.intercalate_cons_cons, List.append_assoc, List.singleton_append]
      exact List.rel_append hab (.cons hxy ih)

section

variable {R : Rule} {o : Options}

open Item

theorem Draft.Shows.definitions {d : Draft} {cs : List Cell} {css : List (List Cell)}
    {parts : List (List Item)} {flat : Bool} (h : d.Shows R cs)
    (hm : R.Admits o (Item.marked flat (.definitions parts))) (hR : R.Fits cs)
    (hnone : ∀ m ∈ partMarked flat parts, m.2.isRemark = false)
    (hcss : List.Forall₂ (List.Forall₂ (Rendered o)) (parts.map (allMarked flat)) css)
    (hdefs : List.Forall₂ (Definition.Shows R) (readDefinitions o flat parts) css) :
    ∃ ds, List.Forall₂ (Rendered o) (Item.marked flat (.definitions parts)) ds ∧
      ((Item.definitions parts).write o flat d).Shows R (cs ++ ds) := by
  simp only [Item.marked] at hm
  have hmid : List.Forall₂ (Rendered o) (partMarked flat parts)
      ([((.comma, [',']) : Cell)].intercalate css) := by
    rw [Item.partMarked_eq]
    exact forall₂_intercalate ⟨rfl, none, rfl⟩ hcss
  have hmidfits := (hm.of_subset (by simp)).fits hmid
  have hremark := no_remark_of_rendered hmid hnone
  have hflat : ∀ c ∈ css.flatten, c ∈ [((.comma, [',']) : Cell)].intercalate css := by
    intro c hc
    obtain ⟨x, hx, hcx⟩ := List.mem_flatten.1 hc
    exact (infix_intercalate hx).subset hcx
  have hrows := rows_definitions hdefs (hmidfits.of_subset hflat)
    (fun c hc => hremark c (hflat c hc)) 2
  have hopen : List.Forall₂ (Rendered o) [(flat, .openParen)] [(.openParen, ['('])] :=
    .cons ⟨rfl, none, rfl⟩ .nil
  have hfits := hR.append ((hm.of_subset (by simp)).fits hopen)
  have hstart : ((d.startLine 0).word o flat .openParen).Shows R (cs ++ [(.openParen, ['('])]) :=
    (h.startLine 0).word hfits rfl
  refine ⟨[(.openParen, ['('])] ++ [((.comma, [',']) : Cell)].intercalate css ++
    [(.closeParen, [')'])], ?_, ?_⟩
  · exact List.rel_append (List.rel_append hopen hmid) (.cons ⟨rfl, none, rfl⟩ .nil)
  · simpa [Item.write] using hstart.close hrows hremark hfits (by simp)

mutual

theorem write_shows : ∀ (i : Item) (flat : Bool) {d : Draft} {cs : List Cell}, i.Proper →
    R.Admits o (i.marked flat) → R.Fits cs → d.Shows R cs →
    ∃ ds, List.Forall₂ (Rendered o) (i.marked flat) ds ∧ (i.write o flat d).Shows R (cs ++ ds)
  | .word t, flat, d, cs, hp, hm, hR, h => by
    have hr : List.Forall₂ (Rendered o) [(flat, t)] [(t, t.render o flat d.last)] :=
      .cons ⟨rfl, d.last, rfl⟩ .nil
    exact ⟨_, hr, h.word (hR.append (hm.fits hr)) hp⟩
  | .remark t n, flat, d, cs, _, hm, hR, h => by
    have hr : List.Forall₂ (Rendered o) [(flat, .lineComment t)]
        [(.lineComment t, (Token.lineComment t).render o flat d.last)] :=
      .cons ⟨rfl, d.last, rfl⟩ .nil
    exact ⟨_, hr, h.remark n (hm.fits hr)⟩
  | .newline, _, _, _, _, _, _, h => ⟨[], .nil, by simpa [Item.write] using h.newline⟩
  | .startLine n, _, _, _, _, _, _, h => ⟨[], .nil, by simpa [Item.write] using h.startLine n⟩
  | .inset f body, flat, d, cs, hp, hm, hR, h => by
    obtain ⟨ds, hds, hi⟩ := writeAll_shows body (flat || f) hp hm
      hm.nil_fits Draft.shows_blank
    exact ⟨ds, hds, h.setIn hi (hR.append (hm.fits hds))⟩
  | .query body, flat, d, cs, hp, hm, hR, h => by
    obtain ⟨ds, hds, hi⟩ := writeAll_shows body flat hp hm
      hm.nil_fits Draft.shows_blank
    refine ⟨ds, hds, ?_⟩
    unfold Item.write
    simp only
    split
    · rename_i hshort
      simp only [Bool.and_eq_true, Bool.not_eq_true'] at hshort
      exact h.setOnLine hi (hR.append (hm.fits hds)) hshort.2
    · exact h.setIn hi (hR.append (hm.fits hds))
  | .elements [], _, _, _, _, _, _, h => ⟨[], .nil, by simpa [Item.write] using h⟩
  | .elements (part :: rest), flat, d, cs, hp, hm, hR, h => by
    simp only [Item.marked, Item.partMarked_cons] at hm
    obtain ⟨ds, hds, hd⟩ := writeAll_shows part flat hp.1 (hm.of_subset (by simp)) hR h
    have hfits := (hm.of_subset (by simp)).fits hds
    obtain ⟨es, hes, he⟩ := writeElements_shows rest flat
      (if elementLimit < (part :: rest).length then some d.page.column else none) hp.2
      (hm.of_subset (by simp)) (hR.append hfits) hd
    refine ⟨ds ++ es, ?_, by simpa [Item.write] using he⟩
    simp only [Item.marked, Item.partMarked_cons]
    exact List.rel_append hds hes
  | .definitions parts, flat, d, cs, hp, hm, hR, h => by
    have hmid : R.Admits o (partMarked flat parts) := hm.of_subset (by simp [Item.marked])
    have hsub : ∀ part ∈ parts, allMarked flat part ⊆ partMarked flat parts := fun part hpart =>
      Item.allMarked_subset flat hpart
    have hnone : ∀ m ∈ partMarked flat parts, m.2.isRemark = false := fun m hm =>
      hp.2 m.2 (Item.map_partMarked flat parts ▸ List.mem_map_of_mem hm)
    obtain ⟨css, hcss, hdefs⟩ := readDefinitions_shows parts flat hp.1
      (fun part hpart m hm => hnone m (hsub part hpart hm))
      (fun part hpart => hmid.of_subset (hsub part hpart))
    exact h.definitions hm hR hnone hcss hdefs

theorem writeAll_shows : ∀ (items : List Item) (flat : Bool) {d : Draft} {cs : List Cell},
    AllProper items → R.Admits o (allMarked flat items) → R.Fits cs → d.Shows R cs →
    ∃ ds, List.Forall₂ (Rendered o) (allMarked flat items) ds ∧
      (writeAll o flat items d).Shows R (cs ++ ds)
  | [], _, _, _, _, _, _, h => ⟨[], .nil, by simpa [writeAll] using h⟩
  | i :: rest, flat, d, cs, hp, hm, hR, h => by
    simp only [allMarked] at hm
    obtain ⟨ds, hds, hd⟩ := write_shows i flat hp.1 (hm.of_subset (by simp)) hR h
    have hfits := (hm.of_subset (by simp)).fits hds
    obtain ⟨es, hes, he⟩ := writeAll_shows rest flat hp.2 (hm.of_subset (by simp))
      (hR.append hfits) hd
    exact ⟨ds ++ es, List.rel_append hds hes, by simpa [writeAll] using he⟩

theorem writeElements_shows : ∀ (parts : List (List Item)) (flat : Bool) (wrap : Option Nat)
    {d : Draft} {cs : List Cell}, PartsProper parts →
    R.Admits o (parts.flatMap fun q => (flat, .comma) :: allMarked flat q) → R.Fits cs →
    d.Shows R cs →
    ∃ ds, List.Forall₂ (Rendered o) (parts.flatMap fun q => (flat, .comma) :: allMarked flat q) ds ∧
      (writeElements o flat wrap parts d).Shows R (cs ++ ds)
  | [], _, _, _, _, _, _, _, h => ⟨[], .nil, by simpa [writeElements] using h⟩
  | part :: rest, flat, wrap, d, cs, hp, hm, hR, h => by
    simp only [List.flatMap_cons] at hm
    have hcomma : List.Forall₂ (Rendered o) [(flat, .comma)] [(.comma, [','])] :=
      .cons ⟨rfl, none, rfl⟩ .nil
    have hfits := hR.append ((hm.of_subset (by simp)).fits hcomma)
    have hword : (d.word o flat .comma).Shows R (cs ++ [(.comma, [','])]) := h.word hfits rfl
    have hstart : (wrap.elim (d.word o flat .comma) fun n =>
        (d.word o flat .comma).startLine n).Shows R (cs ++ [(.comma, [','])]) := by
      cases wrap with
      | none => exact hword
      | some n => exact hword.startLine n
    obtain ⟨ds, hds, hd⟩ := writeAll_shows part flat hp.1 (hm.of_subset (by simp)) hfits hstart
    obtain ⟨es, hes, he⟩ := writeElements_shows rest flat wrap hp.2 (hm.of_subset (by simp))
      (hfits.append ((hm.of_subset (by simp)).fits hds)) hd
    refine ⟨[(.comma, [','])] ++ ds ++ es, ?_, by simpa [writeElements] using he⟩
    exact List.rel_append (List.rel_append hcomma hds) hes

theorem readDefinitions_shows : ∀ (parts : List (List Item)) (flat : Bool), PartsProper parts →
    (∀ part ∈ parts, ∀ m ∈ allMarked flat part, m.2.isRemark = false) →
    (∀ part ∈ parts, R.Admits o (allMarked flat part)) →
    ∃ css, List.Forall₂ (List.Forall₂ (Rendered o)) (parts.map (allMarked flat)) css ∧
      List.Forall₂ (Definition.Shows R) (readDefinitions o flat parts) css
  | [], _, _, _, _ => ⟨[], .nil, .nil⟩
  | [] :: rest, flat, hp, hl, hm => by
    obtain ⟨css, hcss, hdefs⟩ := readDefinitions_shows rest flat hp.2
      (fun q hq => hl q (by simp [hq])) (fun q hq => hm q (by simp [hq]))
    exact ⟨[] :: css, .cons .nil hcss,
      .cons ⟨[], [], rfl, .gap (by simp), .gap (by simp)⟩ hdefs⟩
  | (name :: more) :: rest, flat, hp, hl, hm => by
    obtain ⟨css, hcss, hdefs⟩ := readDefinitions_shows rest flat hp.2
      (fun q hq => hl q (by simp [hq])) (fun q hq => hm q (by simp [hq]))
    have hadm := hm (name :: more) (by simp)
    have hnone := hl (name :: more) (by simp)
    simp only [allMarked] at hadm hnone
    have hcollapse : ∀ {d : Draft} {cs : List Cell} {ms : List (Bool × Token)},
        ms ⊆ name.marked flat ++ allMarked flat more → List.Forall₂ (Rendered o) ms cs →
        d.Shows R cs → Line R none (inked cs) (collapse d.lines) := by
      intro d cs ms hsub hr hd
      have hfits := (hadm.of_subset hsub).fits hr
      exact (hd.lines hfits).rows.collapse (Draft.open_of_fits hfits
        (no_remark_of_rendered hr fun m hm => hnone m (hsub hm)))
    obtain ⟨ds, hds, hd⟩ := write_shows name flat hp.1.1 (hadm.of_subset (by simp)) hadm.nil_fits
      Draft.shows_blank
    obtain ⟨es, hes, he⟩ := writeAll_shows more flat hp.1.2 (hadm.of_subset (by simp))
      hadm.nil_fits Draft.shows_blank
    exact ⟨(ds ++ es) :: css, .cons (List.rel_append hds hes) hcss, .cons ⟨ds, es, rfl,
      hcollapse (by simp) hds hd, hcollapse (by simp) hes he⟩ hdefs⟩

end

end

end SqlLayout
