import SqlLayout.Proofs.Passages

/-! What stands under what. A closing bracket stands under its opening one, the branches and the
`END` of a `CASE` under the `CASE`, and the elements of a long list under each other, however deep
they are nested.
-/

set_option autoImplicit false

namespace SqlLayout

open Item

namespace Arrange

theorem Arranged.ends {nested : Nested} {p : Place} {before ts : List Token} {items : List Item}
    (h : Arranged nested p before ts items) (hp : p.isOpen = true) :
    ∃ mid, items = mid ++ [.startLine 0, .word (.keyword .END)] := by
  have hmore : ∀ {a more : List Item},
      (∃ mid, more = mid ++ [.startLine 0, .word (.keyword .END)]) →
        ∃ mid, a ++ more = mid ++ [.startLine 0, .word (.keyword .END)] := by
    rintro a _ ⟨mid, rfl⟩
    exact ⟨a ++ mid, by simp⟩
  induction h with
  | done hd => simp [hp] at hd
  | looseCase hd => simp [hp] at hd
  | finish => exact ⟨[], rfl⟩
  | token hr _ ih => exact hmore (ih ((hr.isOpen_next rfl).trans hp))
  | bracket hr _ _ ih => exact hmore (ih ((hr.isOpen_next rfl).trans hp))
  | caseEnd hr _ _ ih => exact hmore (ih ((hr.isOpen_next rfl).trans hp))

/-- The tokens of a `CASE` that is laid out, from the first to the last. -/
theorem run_case {nested : Nested} {ts : List Token} {body : List Item}
    (h : run nested .caseHead [] (.keyword .CASE :: ts) = .ok body) :
    ∃ mid, body = .word (.keyword .CASE) :: mid ++ [.startLine 0, .word (.keyword .END)] := by
  obtain ⟨more, hmore, rfl⟩ := run_caseHead h
  obtain ⟨mid, rfl⟩ := (arranged_of_run (by simp [Starts]) hmore).ends rfl
  exact ⟨mid, rfl⟩

end Arrange

def Bracket.isBlock (b : Bracket) (ts : List Token) : Bool :=
  match b with
  | .row => !ts.isEmpty && !startsQuery ts
  | .columns => !ts.isEmpty
  | .indexColumns => 5 < (splitCommas ts).length
  | .expression | .pairs => false

theorem Bracket.isBlock_ne_nil {b : Bracket} {ts : List Token} (h : b.isBlock ts = true) :
    ts ≠ [] := by
  rintro rfl
  cases b <;> simp [isBlock, splitCommas] at h

theorem Arrange.bracket_block {b : Bracket} {ts : List Token} (h : b.isBlock ts = true)
    (nested : Nested) (indent : Nat) (before : List Token) :
    (∃ width, bracket nested b indent before ts = [.startLine 0, opening, .startLine width] ++
        inset nested false .block indent ts ++ [.startLine 0, closing]) ∨
      ∃ parts, bracket nested b indent before ts = [.definitions parts] := by
  have hblock : ∀ width, block nested width indent ts = [.startLine 0, opening, .startLine width] ++
      inset nested false .block indent ts ++ [.startLine 0, closing] := fun width => by
    rw [block, if_neg (by simpa using Bracket.isBlock_ne_nil h)]
  cases b with
  | expression => simp [Bracket.isBlock] at h
  | pairs => simp [Bracket.isBlock] at h
  | row =>
    have hq : startsQuery ts = false := by
      simp only [Bracket.isBlock, Bool.and_eq_true, Bool.not_eq_true'] at h
      exact h.2
    exact .inl ⟨2, by rw [bracket, hq, if_neg (by simp), hblock]⟩
  | columns =>
    simp only [bracket]
    split
    · exact .inl ⟨2, hblock 2⟩
    · exact .inr ⟨_, rfl⟩
  | indexColumns =>
    exact .inl ⟨7, by rw [bracket, if_pos (by simpa [Bracket.isBlock] using h), hblock]⟩

def Arrange.element (limit room indent : Nat) (ts : List Token) : List Item :=
  inset (below limit room) false .inline indent ts

section

variable {o : Options} {flat : Bool} {d : Draft} {t : Token}

theorem hung_line (hcounted : d.page.Counted) (m : Nat) : Hung False
    ((d.startLine m).word o flat t).page.lines d.page.ink m [t.render o flat d.last] := by
  have hstart : (d.startLine m).spaceBefore t = (d.startLine m).page :=
    Draft.spaceBefore_of_atLineStart (Page.atLineStart_startLine _ _) t
  have hcurrent : (d.startLine m).page.current = Text.spaces m := Page.current_startLine _ _
  have hcolumn : (d.startLine m).page.column = m := by
    simp [Page.column, hcurrent, Text.spaces]
  have hword : Hung False ((d.startLine m).word o flat t).page.lines (d.startLine m).page.ink
      ((d.startLine m).spaceBefore t).column [t.render o flat d.last] :=
    Draft.hung_word (hcounted.startLine m) (by simp [hcurrent, Text.not_mem_spaces]) (by simp)
  rw [hstart, hcolumn] at hword
  rwa [show (d.startLine m).page.ink = d.page.ink from Page.ink_startLine _ _] at hword

/-- Until the closing bracket is written, the opening one stands where its line starts. -/
theorem exists_beforeClosing (o : Options) (flat : Bool) (hcounted : d.page.Counted) {b : Bracket}
    {ts : List Token} (hb : b.isBlock ts = true) (nested : Arrange.Nested) (indent : Nat)
    (before : List Token) :
    ∃ e : Draft, writeAll o flat (Arrange.bracket nested b indent before ts) d =
        (e.startLine 0).word o flat .closeParen ∧ e.page.Counted ∧
      Hung False e.page.lines d.page.ink 0 [['(']] := by
  let opened := (d.startLine 0).word o flat .openParen
  have hopen : Hung False opened.page.lines d.page.ink 0 [['(']] := hung_line hcounted 0
  have hcount : opened.page.Counted :=
    Draft.keeps_word Page.keeps_counted Text.lasting_true trivial (hcounted.startLine 0)
  obtain ⟨width, hitems⟩ | ⟨parts, hitems⟩ := Arrange.bracket_block hb nested indent before
  · let inner := Item.startLine width :: Arrange.inset nested false .block indent ts
    refine ⟨writeAll o flat inner opened, ?_, Draft.counted_writeAll hcount ..,
      Draft.hung_writeAll hopen (by simp) (Text.firm_mark rfl) ..⟩
    rw [hitems, writeAll_append]
    rfl
  · let lines := Definition.align (readDefinitions o flat parts) 2
    refine ⟨{ opened with page := opened.page.pushBelow 0 lines }, ?_, hcount.pushBelow 0 _,
      (Page.keeps_hung (by simp) (Text.firm_mark rfl)).pushBelow Text.lasting_true
        (fun _ _ => trivial) 0 hopen⟩
    rw [hitems, writeAll, write_definitions]
    rfl

theorem hung_bracket (o : Options) (flat : Bool) (hcounted : d.page.Counted) {b : Bracket}
    {ts : List Token} (hb : b.isBlock ts = true) (nested : Arrange.Nested) (indent : Nat)
    (before : List Token) (rest : List Item) :
    let items := Arrange.bracket nested b indent before ts
    Hung False (writeAll o flat (items ++ rest) d).page.lines d.page.ink 0 [['(']] ∧
      Hung False (writeAll o flat (items ++ rest) d).page.lines
        ((writeAll o flat items d).page.ink - 1) 0 [[')']] := by
  intro items
  obtain ⟨e, he, hcount, hopen⟩ := exists_beforeClosing o flat hcounted hb nested indent before
  have hink : ((e.startLine 0).word o flat .closeParen).page.ink = e.page.ink + 1 := by
    rw [Draft.ink_word, show (e.startLine 0).page.ink = e.page.ink from Page.ink_startLine _ _]
    rfl
  have hkeeps : Page.Keeps (fun _ => True) fun p => Hung False p.lines d.page.ink 0 [['(']] :=
    Page.keeps_hung (by simp) (Text.firm_mark rfl)
  have hclose : Hung False ((e.startLine 0).word o flat .closeParen).page.lines e.page.ink 0
      [[')']] := hung_line hcount 0
  rw [writeAll_append, show writeAll o flat items d = _ from he, hink, Nat.add_sub_cancel]
  exact ⟨Draft.hung_writeAll (Draft.keeps_word hkeeps Text.lasting_true trivial
      (hkeeps.startLine 0 hopen)) (by simp) (Text.firm_mark rfl) ..,
    Draft.hung_writeAll hclose (by simp) (Text.firm_mark rfl) ..⟩

theorem firm_keyword (o : Options) (flat : Bool) (k : Keyword) (prev : Option Token) :
    ∀ r ∈ [(Token.keyword k).render o flat prev], Text.Firm r := fun r hr => by
  rw [List.mem_singleton.1 hr]
  exact (Token.Tidy.solid (t := .keyword k) trivial rfl o flat prev).firm

theorem hung_keyword (hcounted : d.page.Counted) (o : Options) (flat : Bool) (pre : List Item)
    (m : Nat) (k : Keyword) (post : List Item) : ∃ prev, Hung False
      (writeAll o flat (pre ++ .startLine m :: .word (.keyword k) :: post) d).page.lines
      (writeAll o flat pre d).page.ink m [(Token.keyword k).render o flat prev] := by
  rw [writeAll_append]
  exact ⟨_, Draft.hung_writeAll (hung_line (Draft.counted_writeAll hcounted o flat pre) m) (by simp)
    (firm_keyword o flat k _) o flat post⟩

theorem hung_first (o : Options) (flat : Bool) (k : Keyword) (post : List Item) :
    Hung False (writeAll o flat (.word (.keyword k) :: post) .blank).page.lines 0 0
      [(Token.keyword k).render o flat none] :=
  Draft.hung_writeAll (Draft.hung_word (d := .blank) rfl (by simp [Draft.blank, Page.blank])
    (by simp)) (by simp) (firm_keyword o flat k none) o flat post

theorem first_writeAll_blank (o : Options) (flat : Bool) {items : List Item}
    (hp : AllProper items) : (writeAll o flat items .blank).first = (allTokens items).head? := by
  obtain ⟨cs, hcs, hshows⟩ := writeAll_shows items flat hp
    (R := .loose) ⟨.inl rfl, fun m _ prev => Rule.loose_takes _⟩ ⟨.inl rfl, by simp⟩
    (Draft.shows_blank (R := .loose))
  rw [hshows.first, List.nil_append, ← List.head?_map, tokens_of_rendered hcs, map_allMarked]

theorem hung_passage (hcounted : d.page.Counted) (hmark : '\n' ∉ d.page.current) {limit room : Nat}
    {ts : List Token} {body : List Item}
    (hb : Arrange.below limit room .inline (t :: ts) = .ok body)
    (hs : ∀ m ∈ allMarked flat body, ∀ prev, Text.Solid (m.2.render o m.1 prev)) :
    ∃ f prev, Text.Solid (t.render o f prev) ∧
      Hung False (d.setIn (writeAll o flat body .blank)).page.lines d.page.ink
        (d.spaceBefore t).column [t.render o f prev] := by
  obtain ⟨hleads, hhead⟩ := Arrange.leads_inline hb
  obtain ⟨m, hm, prev, hopens⟩ := hleads.opens_first (d := .blank) ⟨rfl, rfl⟩ hs
  obtain rfl : m.2 = t := by
    rw [← map_allMarked flat, List.head?_map, hm] at hhead
    simpa using hhead
  have hsolid := hs m (List.mem_of_mem_head? hm) prev
  have hproper : AllProper body := (nestedSane_below limit room (by simp [Arrange.Starts])
    (by simp [Arrange.Ending, Place.isOpen]) hb).proper
  obtain ⟨line, lines, hlines, b, hline⟩ := hopens.lines
  have hinner : Hung False (writeAll o flat body .blank).page.lines 0 0 [m.2.render o m.1 prev] :=
    ⟨[], [], b, lines, by rw [hlines, ← hline]; rfl, by simp, rfl, rfl, by simp⟩
  have hset := Draft.hung_setIn hinner (by simp) (by simpa using hsolid.firm)
    (Draft.neat_writeAll o flat body) hcounted (.inr hmark)
  rw [first_writeAll_blank o _ hproper, hhead] at hset
  exact ⟨m.1, prev, hsolid, hset⟩

theorem hung_remark (hcounted : d.page.Counted) (hmark : '\n' ∉ d.page.current) {x : Text}
    (hf : Text.Firm ((Token.lineComment x).render o flat d.last)) (indent : Nat) :
    Hung False (d.remark o flat x indent).page.lines d.page.ink
      (if d.page.atLineStart then d.page.column else indent)
      [(Token.lineComment x).render o flat d.last] := by
  have hkeeps : ∀ c, Page.Keeps (fun _ => True) fun p => Hung False p.lines d.page.ink c
      [(Token.lineComment x).render o flat d.last] :=
    fun c => Page.keeps_hung (by simp) (by simpa using hf)
  have hpush : ∀ start : Page, start.Counted → start.ink = d.page.ink → '\n' ∉ start.current →
      Hung False (start.push ((Token.lineComment x).render o flat d.last)).lines d.page.ink
        start.column [(Token.lineComment x).render o flat d.last] := fun start hcount hink hm => by
    rw [← hink]
    exact hcount.hung_push hm (by simp) _
  refine (hkeeps _).indent Text.lasting_true ((hkeeps _).newline ?_) indent
  split
  · exact hpush d.page hcounted rfl hmark
  · have hcolumn : (d.page.newline.indent indent).column = indent := by
      simp [Page.column, Page.indent, Page.newline, Text.spaces]
    have hstart := hpush (d.page.newline.indent indent) (Page.keeps_counted.indent
      Text.lasting_true (Page.keeps_counted.newline hcounted) indent) rfl
      (by simp [Page.indent, Page.newline, Text.not_mem_spaces])
    rwa [hcolumn] at hstart

/-- Tokens without layout stand where the line had come to, unless the first is a line comment, which
starts a line. -/
theorem hung_echo (hcounted : d.page.Counted) (hmark : '\n' ∉ d.page.current)
    (ht : t.isRemark = true → d.page.atLineStart = true)
    (hf : Text.Firm (t.render o flat d.last)) (indent : Nat) (ts : List Token) :
    Hung False (writeAll o flat (Item.echo indent (t :: ts)) d).page.lines d.page.ink
      (d.spaceBefore t).column [t.render o flat d.last] := by
  cases t with
  | lineComment x =>
    have hstart := ht rfl
    have hremark := hung_remark hcounted hmark hf indent
    rw [if_pos hstart] at hremark
    rw [Draft.spaceBefore_of_atLineStart hstart]
    exact Draft.hung_writeAll hremark (by simp) (by simpa using hf) o flat _
  | _ =>
    exact Draft.hung_writeAll (Draft.hung_word hcounted hmark (by simp)) (by simp)
      (by simpa using hf) o flat _

theorem hung_element (hcounted : d.page.Counted) (hmark : '\n' ∉ d.page.current)
    {limit room indent : Nat} {ts : List Token} (ht : t.isRemark = true →
      d.page.atLineStart = true ∨ ∃ body, Arrange.below limit room .inline (t :: ts) = .ok body)
    (hs : ∀ m ∈ allMarked flat (Arrange.element limit room indent (t :: ts)), ∀ prev,
      Text.Solid (m.2.render o m.1 prev)) (rest : List Item) :
    ∃ f prev, Text.Solid (t.render o f prev) ∧ Hung False
      (writeAll o flat (Arrange.element limit room indent (t :: ts) ++ rest) d).page.lines
        d.page.ink (d.spaceBefore t).column [t.render o f prev] := by
  rw [writeAll_append]
  unfold Arrange.element Arrange.inset at hs ⊢
  split at hs
  · rename_i body hb
    simp only [allMarked, marked, List.append_nil] at hs
    obtain ⟨f, prev, hsolid, hset⟩ := hung_passage hcounted hmark hb hs
    exact ⟨f, prev, hsolid, Draft.hung_writeAll hset (by simp) (by simpa using hsolid.firm) ..⟩
  · rename_i he
    rw [allMarked_echo] at hs
    have hsolid := hs (flat, t) (by simp) d.last
    have hstart : t.isRemark = true → d.page.atLineStart = true := fun hr =>
      (ht hr).resolve_right (by simp [he])
    have hecho := hung_echo hcounted hmark hstart hsolid.firm indent ts
    exact ⟨flat, d.last, hsolid,
      Draft.hung_writeAll hecho (by simp) (by simpa using hsolid.firm) ..⟩

end

theorem Token.openParen_spaced (t : Token) :
    Token.openParen.spaced t = decide (t = .operator ['=']) := by
  unfold Token.spaced
  cases t <;> simp [joinsComparison]

theorem Page.column_push {p : Page} {t : Text} (ht : Text.Unbroken t) :
    (p.push t).column = p.column + t.length := by
  have hall : ∀ c ∈ t.reverse, (c != '\n') = true := by
    intro c hc
    rw [bne_iff_ne]
    rintro rfl
    exact ht (List.mem_reverse.1 hc)
  simp [column, push, List.takeWhile_append_of_pos hall, Nat.add_comm]

theorem Arrange.bracket_elements {before ts : List Token} (hq : startsQuery ts = false)
    (hb : Place.afterIntroducer before = true) (limit room indent : Nat) :
    bracket (below limit room) .expression indent before ts =
      [opening, .elements ((splitCommas ts).map (element limit room indent)), closing] := by
  rw [bracket, hq, if_neg (by simp), if_pos hb]
  rfl

/-- The column where the first element of a list starts, of which `column` is the one behind the
bracket. A line comment that is not arranged starts a line, and an equals sign has a space before
it. -/
def Arrange.firstColumn (limit room indent column : Nat) (t : Token) (us : List Token) : Nat :=
  match t, below limit room .inline (t :: us) with
  | .lineComment _, .error _ => indent
  | .operator ['='], _ => column + 1
  | _, _ => column

section

variable {o : Options} {flat : Bool} {d : Draft} {t : Token} {limit room indent : Nat}
  {us : List Token}

theorem hung_firstElement (hcounted : d.page.Counted) (hmark : '\n' ∉ d.page.current)
    (hs : ∀ m ∈ allMarked flat (Arrange.element limit room indent (t :: us)), ∀ prev,
      Text.Solid (m.2.render o m.1 prev)) (rest : List Item) :
    let opened := d.word o flat .openParen
    ∃ f prev, Text.Solid (t.render o f prev) ∧ Hung False
      (writeAll o flat (Arrange.element limit room indent (t :: us) ++ rest) opened).page.lines
        opened.page.ink (Arrange.firstColumn limit room indent opened.page.column t us)
        [t.render o f prev] := by
  intro opened
  have hcount : opened.page.Counted :=
    Draft.keeps_word Page.keeps_counted Text.lasting_true trivial hcounted
  have hstart : opened.page.atLineStart = false := by
    simp [opened, Draft.word, Page.push, Page.atLineStart, Text.isBlankText, Token.render,
      show Text.isBlank '(' = false from rfl]
  have hopened : '\n' ∉ opened.page.current := by
    simp only [opened, Draft.word, Draft.spaceBefore]
    split <;> simpa [Page.push, Token.render] using hmark
  -- Only in an element that is not arranged a comment at its start breaks the line.
  by_cases hown : t.isRemark = true ∧ ∃ e, Arrange.below limit room .inline (t :: us) = .error e
  · obtain ⟨ht, e, he⟩ := hown
    obtain ⟨x, rfl⟩ : ∃ x, t = .lineComment x := by cases t <;> simp_all [Token.isRemark]
    have helement : Arrange.element limit room indent (.lineComment x :: us) =
        Item.echo indent (.lineComment x :: us) := by
      simp [Arrange.element, Arrange.inset, he]
    have hsolid := hs (flat, .lineComment x) (by simp [helement, allMarked_echo]) opened.last
    refine ⟨flat, opened.last, hsolid, ?_⟩
    rw [helement, show Arrange.firstColumn limit room indent opened.page.column _ us = indent by
      simp [Arrange.firstColumn, he]]
    have hremark := hung_remark hcount hopened hsolid.firm indent
    rw [if_neg (by simp [hstart])] at hremark
    exact Draft.hung_writeAll hremark (by simp) (by simpa using hsolid.firm) ..
  · have hcolumn : (opened.spaceBefore t).column =
        Arrange.firstColumn limit room indent opened.page.column t us := by
      unfold Draft.spaceBefore
      rw [show opened.last = some .openParen from rfl, needsSpace, hstart, Token.openParen_spaced]
      by_cases he : t = .operator ['=']
      · subst he
        exact Page.column_push (by simp [Text.Unbroken])
      · rw [if_neg (by simp [he])]
        unfold Arrange.firstColumn
        split
        · rename_i hb
          exact absurd ⟨rfl, _, hb⟩ hown
        · exact absurd rfl he
        · rfl
    rw [← hcolumn]
    refine hung_element hcount hopened (fun ht => .inr ?_) hs rest
    cases hb : Arrange.below limit room .inline (t :: us) with
    | ok body => exact ⟨body, rfl⟩
    | error e => exact absurd ⟨ht, e, hb⟩ hown

theorem hung_nextElement (hcounted : d.page.Counted) (c : Nat)
    (hs : ∀ m ∈ allMarked flat (Arrange.element limit room indent (t :: us)), ∀ prev,
      Text.Solid (m.2.render o m.1 prev)) (rest : List Item) :
    ∃ f prev, Text.Solid (t.render o f prev) ∧ Hung False (writeAll o flat (.startLine c ::
      (Arrange.element limit room indent (t :: us) ++ rest)) d).page.lines
        d.page.ink c [t.render o f prev] := by
  have hstart : (d.startLine c).page.atLineStart = true := Page.atLineStart_startLine _ _
  have hcurrent : (d.startLine c).page.current = Text.spaces c := Page.current_startLine _ _
  have hcolumn : ((d.startLine c).spaceBefore t).column = c := by
    rw [Draft.spaceBefore_of_atLineStart hstart]
    simp [Page.column, hcurrent, Text.spaces]
  have helement := hung_element (d := d.startLine c) (hcounted.startLine c)
    (by simp [hcurrent, Text.not_mem_spaces]) (fun _ => .inl hstart) hs rest
  rwa [hcolumn, show (d.startLine c).page.ink = d.page.ink from Page.ink_startLine _ _] at helement

theorem writeAll_elements {part : List Item} {parts : List (List Item)}
    (hl : elementLimit < parts.length + 1) (rest : List Item) (d : Draft) :
    let opened := d.word o flat .openParen
    writeAll o flat ([Arrange.opening, .elements (part :: parts), Arrange.closing] ++ rest) d =
      writeAll o flat (part ++ behind (some opened.page.column) parts ++ Arrange.closing :: rest)
        opened := by
  intro opened
  rw [writeAll_append o flat _ (Arrange.closing :: rest)]
  simp only [List.cons_append, List.nil_append, writeAll, write_elements, if_pos hl]
  rfl

end

namespace Passage

/-- The brackets that the passage begins with stand under each other in the text. -/
def AlignsBrackets (o : Options) (out : Text) (q : Passage) (n : Nat) : Prop :=
  ∀ (nested : Arrange.Nested) (b : Bracket) (indent : Nat) (before ts : List Token)
    (rest : List Item), b.isBlock ts = true →
    q.items = Arrange.bracket nested b indent before ts ++ rest →
    let closed := writeAll o q.flat (Arrange.bracket nested b indent before ts) q.draft
    ∃ c, out.Stands (n + q.draft.page.ink) c [['(']] ∧
      out.Stands (n + (closed.page.ink - 1)) c [[')']]

/-- The `END` of the `CASE` that the passage begins with stands under the `CASE` in the text, and
its branches two columns to the right. -/
def AlignsCase (o : Options) (out : Text) (q : Passage) (n : Nat) : Prop :=
  ∀ (nested : Arrange.Nested) (ts : List Token) (body rest : List Item),
    Arrange.run nested .caseHead [] (.keyword .CASE :: ts) = .ok body →
    q.items = .inset true body :: rest →
    ∃ c mid, body = .word (.keyword .CASE) :: mid ++ [.startLine 0, .word (.keyword .END)] ∧
      out.Stands (n + q.draft.page.ink) c [(Token.keyword .CASE).render o true none] ∧
      (∃ prev, out.Stands (n + (q.draft.page.ink +
        (writeAll o true (.word (.keyword .CASE) :: mid) .blank).page.ink)) c
          [(Token.keyword .END).render o true prev]) ∧
      ∀ pre k post, body = pre ++ .startLine 2 :: .word (.keyword k) :: post → ∃ prev, out.Stands
        (n + (q.draft.page.ink + (writeAll o true pre .blank).page.ink)) (c + 2)
          [(Token.keyword k).render o true prev]

/-- Where the passage begins with a bracket that has many elements in it, they stand one column to
the right of the bracket in the text, but for the first one, which has a column of its own. -/
def AlignsElements (o : Options) (out : Text) (q : Passage) (n : Nat) : Prop :=
  ∀ (limit room indent : Nat) (before ts : List Token) (rest : List Item),
    startsQuery ts = false → Place.afterIntroducer before = true →
    elementLimit < (splitCommas ts).length →
    let items := Arrange.bracket (Arrange.below limit room) .expression indent before ts
    q.items = items ++ rest →
    (∀ m ∈ allMarked q.flat items, ∀ prev, Text.Solid (m.2.render o m.1 prev)) →
    let opened := q.draft.word o q.flat .openParen
    let item := Arrange.element limit room indent
    let column := (q.draft.spaceBefore .openParen).column
    ∃ k, out.Stands (n + q.draft.page.ink) (k + column) [['(']] ∧
      (∀ t us parts, splitCommas ts = (t :: us) :: parts → ∃ f prev,
        out.Stands (n + opened.page.ink)
          (k + Arrange.firstColumn limit room indent (column + 1) t us) [t.render o f prev]) ∧
      ∀ part parts t us more, splitCommas ts = part :: (parts ++ (t :: us) :: more) →
        ∃ f prev, out.Stands (n + (writeAll o q.flat (item part ++
          behind (some opened.page.column) (parts.map item) ++ [.word .comma]) opened).page.ink)
            (k + (column + 1)) [t.render o f prev]

variable {o : Options} {p q : Passage} {n : Nat}

theorem Reaches.alignsBrackets (h : Reaches o p q n) (hp : p.Fair o False) :
    q.AlignsBrackets o (p.written o).text n := by
  intro nested b indent before ts rest hb hitems
  obtain ⟨k, hk⟩ := h.stands hp
  obtain ⟨hopen, hclose⟩ := hung_bracket o q.flat (h.fair hp).counted hb nested indent before rest
  rw [← hitems] at hopen hclose
  exact ⟨k + 0, hk (by simp) (Text.firm_mark rfl) hopen, hk (by simp) (Text.firm_mark rfl) hclose⟩

theorem Reaches.alignsCase (h : Reaches o p q n) (hp : p.Fair o False) :
    q.AlignsCase o (p.written o).text n := by
  intro nested ts body rest hbody hitems
  have hinner : Reaches o q ⟨q.flat || true, body, .blank⟩ (q.draft.page.ink + 0) := by
    have hinset : Reaches o ⟨q.flat, .inset true body :: rest, q.draft⟩
      ⟨q.flat || true, body, .blank⟩ (q.draft.page.ink + 0) := .inset .here
    rwa [← hitems] at hinset
  obtain ⟨k, hk⟩ := (h.trans hinner).stands hp
  have hk : ∀ {w prev i c}, Hung False (writeAll o true body .blank).page.lines i c
      [(Token.keyword w).render o true prev] → (p.written o).text.Stands
        (n + (q.draft.page.ink + i)) (k + c) [(Token.keyword w).render o true prev] := by
    intro w prev i c hung
    rw [← Bool.or_true q.flat] at hung
    have hstands := hk (by simp) (firm_keyword o _ w prev) hung
    rwa [Nat.add_zero, Nat.add_assoc, Bool.or_true] at hstands
  obtain ⟨mid, rfl⟩ := Arrange.run_case hbody
  refine ⟨k, mid, rfl, hk (hung_first o true .CASE _), ?_, ?_⟩
  · obtain ⟨prev, hend⟩ := hung_keyword (d := .blank) rfl o true (.word (.keyword .CASE) :: mid) 0
      .END []
    exact ⟨prev, hk hend⟩
  · intro pre w post hsplit
    rw [hsplit] at hk
    obtain ⟨prev, hbranch⟩ := hung_keyword (d := .blank) rfl o true pre 2 w post
    exact ⟨prev, hk hbranch⟩

theorem Reaches.alignsElements (h : Reaches o p q n) (hp : p.Fair o False) :
    q.AlignsElements o (p.written o).text n := by
  intro limit room indent before ts rest hq hbefore hl items hitems hs opened item column
  obtain ⟨k, hk⟩ := h.stands hp
  have hcounted := (h.fair hp).counted
  have hmark : '\n' ∉ q.draft.page.current := by simpa using (h.fair hp).mark
  have hcount : opened.page.Counted :=
    Draft.keeps_word Page.keeps_counted Text.lasting_true trivial hcounted
  have hcolumn : opened.page.column = column + 1 :=
    Page.column_push (by simp [Text.Unbroken, Token.render])
  simp only [items, Arrange.bracket_elements hq hbefore] at hitems hs
  have hsolid : ∀ part ∈ splitCommas ts, ∀ m ∈ allMarked q.flat (item part), ∀ prev,
      Text.Solid (m.2.render o m.1 prev) := by
    intro part hpart m hm
    have hmem := allMarked_subset q.flat (List.mem_map_of_mem hpart) hm
    exact hs m (by simp [allMarked, marked, item, hmem])
  have hwritten : ∀ {part parts}, splitCommas ts = part :: parts → q.written o = writeAll o q.flat
      (item part ++ behind (some opened.page.column) (parts.map item) ++ Arrange.closing :: rest)
        opened := by
    intro part parts hts
    rw [written, hitems, hts, List.map_cons]
    exact writeAll_elements (by simpa [hts] using hl) rest q.draft
  rw [← hcolumn]
  refine ⟨k, ?_, ?_, ?_⟩
  · have hopen : Hung False opened.page.lines q.draft.page.ink column [['(']] :=
      Draft.hung_word hcounted hmark (by simp)
    refine hk (by simp) (Text.firm_mark rfl) ?_
    rw [written, hitems]
    exact Draft.hung_writeAll hopen (by simp) (Text.firm_mark rfl) o q.flat (_ :: _ :: rest)
  · intro t us parts hts
    obtain ⟨f, prev, hfirst, hung⟩ := hung_firstElement hcounted hmark
      (hsolid (t :: us) (by simp [hts])) (behind (some opened.page.column) (parts.map item) ++
        Arrange.closing :: rest)
    rw [← List.append_assoc, ← hwritten hts] at hung
    exact ⟨f, prev, hk (by simp) (by simpa using hfirst.firm) hung⟩
  · intro part parts t us more hts
    have hcomma := Draft.counted_writeAll hcount o q.flat (item part ++
      behind (some opened.page.column) (parts.map item) ++ [.word .comma])
    obtain ⟨f, prev, hnext, hung⟩ := hung_nextElement hcomma opened.page.column
      (hsolid (t :: us) (by simp [hts])) (behind (some opened.page.column) (more.map item) ++
        Arrange.closing :: rest)
    have hlist : item part ++ behind (some opened.page.column)
        ((parts ++ (t :: us) :: more).map item) ++ Arrange.closing :: rest =
          (item part ++ behind (some opened.page.column) (parts.map item) ++ [.word .comma]) ++
            .startLine opened.page.column :: (item (t :: us) ++
              (behind (some opened.page.column) (more.map item) ++ Arrange.closing :: rest)) := by
      simp [behind]
    rw [← writeAll_append, ← hlist, ← hwritten hts] at hung
    exact ⟨f, prev, hk (by simp) (by simpa using hnext.firm) hung⟩

end Passage

/-- However deep a bracket, a `CASE` or a list of elements is nested, its parts stand in the layout
as they stand under each other on a page of their own. Only the first element of a list may stand
elsewhere: the others go under the column behind the bracket, which is where it starts unless a
space or a line end comes between. -/
theorem formatTokens_aligned (o : Options) (tokens : List Token) (source out : Text)
    (items : List Item) (hcommand : isCommand (solid tokens) = false)
    (hitems : arrange o.nestingLimit o.nestingLimit .statement (solid tokens) = .ok items)
    (hr : ∀ m ∈ allMarked false items, ∀ prev, Text.Unbroken (m.2.render o m.1 prev))
    (hout : formatTokens o tokens source = .ok out) {q : Passage} {n : Nat}
    (hq : Passage.Reaches o (.ofItems items) q n) :
    q.AlignsBrackets o out n ∧ q.AlignsCase o out n ∧ q.AlignsElements o out n := by
  rw [text_of_formatTokens hcommand hitems hout]
  have hfair : (Passage.ofItems items).Fair o False := .blank (.inr hr)
  exact ⟨hq.alignsBrackets hfair, hq.alignsCase hfair, hq.alignsElements hfair⟩

def equalsElements : List Token :=
  .operator ['='] :: .number ['0'] ::
    (List.replicate 10 [Token.comma, .number ['1']]).flatten

def equalsTokens : List Token :=
  [.identifier ['x'], .keyword .IN, .openParen] ++ equalsElements ++ [.closeParen]

theorem arrange_equals : arrange 64 64 .statement equalsTokens =
    .ok (.word (.identifier ['x']) :: .word (.keyword .IN) ::
      (Arrange.bracket (Arrange.below 64 64) .expression 0 [.keyword .IN, .identifier ['x']]
        equalsElements ++ [])) := by
  have hname : Place.statement.action [] (.identifier ['x']) (.keyword .IN :: .openParen ::
      (equalsElements ++ [.closeParen])) = .write [.word (.identifier ['x'])] .statement := rfl
  have hin : Place.statement.action [.identifier ['x']] (.keyword .IN) (.openParen ::
      (equalsElements ++ [.closeParen])) = .write [.word (.keyword .IN)] .statement := rfl
  have hopen : Place.statement.action [.keyword .IN, .identifier ['x']] .openParen
      (equalsElements ++ [.closeParen]) = .openBracket .expression .statement := rfl
  have hgroup : group 0 (equalsElements ++ [.closeParen]) = .ok (equalsElements, []) := by rfl
  rw [Arrange.arrange_eq]
  simp only [equalsTokens, List.cons_append, List.nil_append]
  rw [Arrange.run_write hname, Arrange.run_write hin,
    Arrange.run_openBracket hopen hgroup, Arrange.run]
  rfl

/-- The elements stand one column behind the bracket, but the equals sign stands two behind it. -/
theorem formatTokens_aligned_equals : ∃ out c, formatTokens {} equalsTokens [] = .ok out ∧
    out.Stands 3 c [['(']] ∧ out.Stands 4 (c + 2) [['=']] ∧ out.Stands 7 (c + 1) [['1']] := by
  have hout : formatTokens {} equalsTokens [] = .ok ("x IN ( = 0".toList ++
      (List.replicate 10 ",\n      1".toList).flatten ++ [')']) := by decide +kernel
  have hreach : Passage.Reaches {} (.ofItems (.word (.identifier ['x']) :: .word (.keyword .IN) ::
      (Arrange.bracket (Arrange.below 64 64) .expression 0 [.keyword .IN, .identifier ['x']]
        equalsElements ++ []))) ⟨false, _, _⟩ 0 := .next (.next .here)
  have hmem : ∀ m ∈ allMarked false (.word (.identifier ['x']) :: .word (.keyword .IN) ::
      (Arrange.bracket (Arrange.below 64 64) .expression 0 [.keyword .IN, .identifier ['x']]
        equalsElements ++ [])), m.2 ∈ equalsTokens :=
    fun m hm => (sane_arrange arrange_equals).mem_of_marked false hm
  have hplain : ∀ t ∈ equalsTokens,
      (t.Tidy ∧ t.isGap = false) ∧ '\n' ∉ t.render {} false none := by decide +kernel
  have hrender : ∀ t ∈ equalsTokens, ∀ f prev, Text.Solid (t.render {} f prev) ∧
      '\n' ∉ t.render {} f prev :=
    fun t ht => Token.solid_unbroken_render (hplain t ht)
  obtain ⟨-, -, halign⟩ := formatTokens_aligned {} equalsTokens [] _ _ rfl arrange_equals
    (fun m hm prev => (hrender m.2 (hmem m hm) m.1 prev).2) hout hreach
  obtain ⟨k, hopen, hfirst, hnext⟩ := halign 64 64 0 _ _ [] rfl rfl (by decide +kernel) rfl
    (fun m hm prev =>
      have hm := hmem m (by simp [allMarked, hm])
      (hrender m.2 hm m.1 prev).1)
  obtain ⟨f, prev, hfirst⟩ := hfirst (.operator ['=']) [.number ['0']] _ rfl
  obtain ⟨f', prev', hnext⟩ := hnext [.operator ['='], .number ['0']] [] (.number ['1']) [] _ rfl
  refine ⟨_, k + 5, hout, ?_, ?_, ?_⟩
  · exact hopen
  · exact hfirst
  · have hink : 0 + (writeAll {} false (Arrange.inset (Arrange.below 64 64) false .inline 0
        [.operator ['='], .number ['0']] ++ [] ++ [.word .comma])
          (writeAll {} false [.word (.identifier ['x']), .word (.keyword .IN), .word .openParen]
            .blank)).page.ink = 7 := by decide +kernel
    rw [← hink]
    exact hnext

end SqlLayout
