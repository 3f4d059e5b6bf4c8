import SqlLayout.Proofs.StepInvariant

/-! A laid out statement starts at the left margin: its first token is written before any gap, and
nothing that is written later touches the beginning of the first line.
-/

set_option autoImplicit false

namespace SqlLayout

namespace Text

theorem Firm.opens_dropEndWhile {p : Char → Bool} {r t : Text} (hr : Firm r) (h : r <+: t)
    (hp : ∀ c, p c = true → isBlank c = true) : r <+: Text.dropEndWhile p t := by
  obtain ⟨u, rfl⟩ := h
  have := hr.dropEndWhile hp [] u
  rw [List.nil_append] at this
  exact ⟨_, this.symm⟩

end Text

namespace Page

variable {p : Page} {r : Text}

def Opens (p : Page) (r : Text) : Prop := r <+: p.above.getLast?.getD p.current.reverse

theorem Opens.push (h : p.Opens r) (t : Text) : (p.push t).Opens r := by
  unfold Opens at h ⊢
  cases ha : p.above.getLast? with
  | none => simpa [Page.push, ha] using (by simpa [ha] using h : r <+: _).trans (List.prefix_append _ t)
  | some u => simpa [Page.push, ha] using h

theorem Opens.indent (h : p.Opens r) (n : Nat) : (p.indent n).Opens r := by
  have := h.push (Text.spaces n)
  rwa [Opens, Page.push, Text.spaces, List.reverse_replicate] at this

theorem Opens.newline (h : p.Opens r) (hr : Text.Firm r) : p.newline.Opens r := by
  unfold Opens at h ⊢
  cases ha : p.above with
  | nil =>
    have := hr.opens_dropEndWhile (p := (· == ' ')) (by simpa [ha] using h) fun c hc => by
      obtain rfl : c = ' ' := by simpa using hc
      rfl
    simpa [Page.newline, ha, Text.dropEndWhile] using this
  | cons u us =>
    obtain ⟨w, hw⟩ : ∃ w, (u :: us).getLast? = some w :=
      ⟨_, List.getLast?_eq_some_getLast (List.cons_ne_nil u us)⟩
    simpa [Page.newline, ha, List.getLast?_cons_cons, hw] using h

theorem Opens.startLine (h : p.Opens r) (hr : Text.Firm r) (n : Nat) : (p.startLine n).Opens r := by
  unfold Page.startLine
  split
  · rename_i hs
    refine Opens.indent ?_ n
    unfold Opens at h ⊢
    cases ha : p.above.getLast? with
    | none =>
      obtain ⟨u, c, rfl, hc⟩ := hr.ends
      have hmem : c ∈ p.current := by
        rw [ha] at h
        exact List.mem_reverse.1 (h.subset (by simp))
      rw [List.all_eq_true.1 hs c hmem] at hc
      cases hc
    | some u => simpa [clearLine, hs, ha] using h
  · exact (h.newline hr).indent n

theorem keeps_opens (hr : Text.Firm r) : Keeps (fun _ => True) (Opens · r) :=
  ⟨fun _ h => h.push _, fun h => h.newline hr, fun n h => h.startLine hr n⟩

theorem Opens.pushBelow (h : p.Opens r) (hr : Text.Firm r) (n : Nat) (ts : List Text) :
    (p.pushBelow n ts).Opens r :=
  (keeps_opens hr).pushBelow Text.lasting_true (fun _ _ => trivial) n h

theorem Opens.lines (h : p.Opens r) : ∃ t ts, p.lines = t :: ts ∧ r <+: t := by
  obtain ⟨u, us, hu⟩ := List.exists_cons_of_ne_nil (l := p.lines) (by simp [Page.lines])
  have hhead : p.lines.head? = some (p.above.getLast?.getD p.current.reverse) := by
    rw [Page.lines, List.head?_reverse, List.getLast?_cons]
  rw [hu] at hhead
  obtain rfl : u = p.above.getLast?.getD p.current.reverse := by simpa using hhead
  exact ⟨_, us, hu, h⟩

theorem getLast?_dropBlank (ts : List Text) : (dropBlank ts).getLast? = ts.getLast? := by
  fun_induction dropBlank ts with
  | case1 t u rest _ ih => rw [ih, List.getLast?_cons_cons]
  | case2 => rfl
  | case3 => rfl

theorem Opens.trimmedLines (h : p.Opens r) (hr : Text.Solid r) :
    ∃ t ts, p.trimmedLines = t :: ts ∧ r <+: t := by
  have hlast : ∃ u, (dropBlank (p.current.reverse :: p.above)).getLast? = some u ∧ r <+: u := by
    rw [getLast?_dropBlank, List.getLast?_cons]
    exact ⟨_, rfl, h⟩
  obtain ⟨u, hu, hopens⟩ := hlast
  unfold Page.trimmedLines
  split
  · rename_i he
    simp [he] at hu
  · rename_i t rest he
    rw [he] at hu
    rcases List.eq_nil_or_concat rest with rfl | ⟨rest, v, rfl⟩
    · obtain rfl : t = u := by simpa using hu
      exact ⟨_, [], rfl, hr.firm.opens_dropEndWhile hopens fun _ => id⟩
    · obtain rfl : v = u := by
        rw [List.concat_eq_append, ← List.cons_append, List.getLast?_concat] at hu
        simpa using hu
      exact ⟨v, _, by simp; rfl, hopens⟩

end Page

namespace Draft

variable {o : Options} {flat : Bool} {d : Draft} {r : Text}

theorem opens_spaceBefore (h : d.page.Opens r) (t : Token) : (d.spaceBefore t).Opens r := by
  unfold Draft.spaceBefore
  split
  · exact h.push _
  · exact h

theorem opens_word (h : d.page.Opens r) (t : Token) : (d.word o flat t).page.Opens r :=
  (opens_spaceBefore h t).push _

theorem opens_text (hr : Text.Solid r) (h : d.page.Opens r) : r <+: d.text := by
  obtain ⟨t, ts, hts, ht⟩ := h.lines
  have hjoin : r <+: Text.join ['\n'] d.page.lines := by
    rw [hts]
    cases ts with
    | nil => simpa [Text.join] using ht
    | cons u ts =>
      rw [Text.join, List.intercalate_cons_cons]
      simpa using ht.trans (List.prefix_append t _)
  exact (hr.firm.opens_dropEndWhile hjoin fun _ => id).trans (List.prefix_append _ _)

end Draft

theorem opens_writeAll {o : Options} {r : Text} (hr : Text.Firm r) (items : List Item) (flat : Bool)
    {d : Draft} (h : d.page.Opens r) : (writeAll o flat items d).page.Opens r :=
  keeps_writeAll Text.lasting_true items flat (Page.keeps_opens hr) (fun _ _ _ => trivial) h

/-- Nothing is indented before the first token of the items. -/
inductive Leads : List Item → Prop where
  | word {t : Token} {rest : List Item} : Leads (.word t :: rest)
  | remark {t : Text} {n : Nat} {rest : List Item} : Leads (.remark t n :: rest)
  | startLine {items : List Item} (h : Leads items) : Leads (.startLine 0 :: items)
  | inset {f : Bool} {body rest : List Item} (h : Leads body) : Leads (.inset f body :: rest)
  | definitions {parts : List (List Item)} {rest : List Item} : Leads (.definitions parts :: rest)

theorem Leads.append {items : List Item} (h : Leads items) (more : List Item) :
    Leads (items ++ more) := by
  induction h with
  | word => exact .word
  | remark => exact .remark
  | startLine _ ih => exact .startLine ih
  | inset h => exact .inset h
  | definitions => exact .definitions

def Page.IsBlank (p : Page) : Prop := p.above = [] ∧ p.current = []

theorem Page.IsBlank.push {p : Page} (h : p.IsBlank) {r t : Text} (ht : r <+: t) :
    (p.push t).Opens r := by
  simpa [Page.Opens, Page.push, h.1, h.2] using ht

theorem Page.IsBlank.startLine {p : Page} (h : p.IsBlank) : (p.startLine 0).IsBlank := by
  have hs : p.atLineStart = true := by simp [atLineStart, h.2, Text.isBlankText]
  simp [Page.startLine, hs, clearLine, Page.indent, Text.spaces, IsBlank, h.1]

theorem Page.IsBlank.spaceBefore {d : Draft} (h : d.page.IsBlank) (t : Token) :
    d.spaceBefore t = d.page :=
  Draft.spaceBefore_of_atLineStart (by simp [atLineStart, h.2, Text.isBlankText]) t

/-- The page opens with the first token that is written. -/
theorem Leads.opens_first {o : Options} {items : List Item} (h : Leads items) {flat : Bool}
    {d : Draft} (hd : d.page.IsBlank)
    (hs : ∀ m ∈ Item.allMarked flat items, ∀ prev, Text.Solid (m.2.render o m.1 prev)) :
    ∃ m ∈ (Item.allMarked flat items).head?, ∃ prev,
      (writeAll o flat items d).page.Opens (m.2.render o m.1 prev) := by
  induction h generalizing flat d with
  | @word t rest =>
    have hr := hs (flat, t) (by simp [Item.allMarked, Item.marked]) d.last
    refine ⟨(flat, t), rfl, d.last, opens_writeAll hr.firm rest flat ?_⟩
    simpa [Item.write, Draft.word, hd.spaceBefore] using hd.push List.prefix_rfl
  | @remark t n rest =>
    have hr := hs (flat, .lineComment t) (by simp [Item.allMarked, Item.marked]) d.last
    refine ⟨(flat, .lineComment t), rfl, d.last, opens_writeAll hr.firm rest flat ?_⟩
    have hline : d.page.atLineStart = true := by
      simp [Page.atLineStart, hd.2, Text.isBlankText]
    simpa [Item.write, Draft.remark, hline] using ((hd.push List.prefix_rfl).newline hr.firm).indent n
  | @startLine items _ ih =>
    exact ih (d := d.startLine 0) hd.startLine (by simpa [Item.allMarked, Item.marked] using hs)
  | @inset f body rest _ ih =>
    have hsolid : ∀ m ∈ Item.allMarked (flat || f) body, ∀ prev,
        Text.Solid (m.2.render o m.1 prev) :=
      fun m hm => hs m (by simp [Item.allMarked, Item.marked, hm])
    obtain ⟨m, hm, prev, hbody⟩ := ih (d := .blank) ⟨rfl, rfl⟩ hsolid
    have hr := hsolid m (List.mem_of_mem_head? hm) prev
    refine ⟨m, ?_, prev, opens_writeAll hr.firm rest flat ?_⟩
    · rw [Item.allMarked, Item.marked, List.head?_append, hm]
      rfl
    obtain ⟨t, ts, hts, ht⟩ := hbody.trimmedLines hr
    have hstart : ((writeAll o (flat || f) body .blank).first.elim d.page fun t =>
        d.spaceBefore t) = d.page := by
      cases (writeAll o (flat || f) body .blank).first with
      | none => rfl
      | some t => exact hd.spaceBefore t
    have hlines : ∃ us, (writeAll o (flat || f) body .blank).lines = t :: us := by
      unfold Draft.lines
      split <;> simp [hts]
    obtain ⟨us, hus⟩ := hlines
    simp only [Item.write, Draft.setIn, hstart, hus]
    exact (hd.push ht).pushBelow hr.firm _ us
  | @definitions parts rest =>
    have hr : Text.Solid ['('] := by decide
    refine ⟨(flat, .openParen), rfl, none, opens_writeAll hr.firm rest flat ?_⟩
    have hopen : ((d.startLine 0).word o flat .openParen).page.Opens ['('] := by
      have hb : (d.startLine 0).page.IsBlank := hd.startLine
      simpa [Draft.word, hb.spaceBefore, Token.render] using hb.push (t := ['(']) List.prefix_rfl
    exact Draft.opens_word ((hopen.pushBelow hr.firm 0 _).startLine hr.firm 0) _

theorem Leads.opens {o : Options} {items : List Item} (h : Leads items) {flat : Bool} {d : Draft}
    (hd : d.page.IsBlank)
    (hs : ∀ m ∈ Item.allMarked flat items, ∀ prev, Text.Solid (m.2.render o m.1 prev)) :
    ∃ r, Text.Solid r ∧ (writeAll o flat items d).page.Opens r := by
  obtain ⟨m, hm, prev, hopens⟩ := h.opens_first hd hs
  exact ⟨_, hs m (List.mem_of_mem_head? hm) prev, hopens⟩

namespace Arrange

theorem leads_bracket (nested : Nested) (b : Bracket) (indent : Nat) (before ts : List Token) :
    Leads (bracket nested b indent before ts) := by
  have hform := form_bracket nested b indent before ts
  generalize Arrange.bracket nested b indent before ts = items at hform ⊢
  cases hform with
  | query | elements | «inline» | pairs | empty => exact .word
  | lines => exact .startLine .word
  | definitions => exact .definitions

theorem Arranged.leads {nested : Nested}
    (hn : ∀ {inner : List Token} {body : List Item},
      nested .caseHead (.keyword .CASE :: inner) = .ok body → Leads body)
    {before ts : List Token} {items : List Item} (h : Arranged nested .statement before ts items)
    (hts : ts ≠ []) : Leads items := by
  cases h with
  | done => exact absurd rfl hts
  | token hr _ =>
    cases hr with
    | @write s n f _ hs =>
      have hecho : ∀ t : Token, Leads (Item.echo n [t]) := by
        intro t
        cases t <;> first | exact .word | exact .remark
      rcases hs with rfl | rfl | ⟨hp, -⟩
      · simpa using (hecho _).append _
      · simpa using Leads.startLine ((hecho _).append _)
      · exact absurd rfl hp
  | bracket => exact (leads_bracket ..).append _
  | looseCase => exact .word
  | caseEnd =>
    refine Leads.append ?_ _
    unfold inset
    split
    · rename_i body hb
      exact .inset (hn hb)
    · exact .word

theorem run_caseHead {nested : Nested} {ts : List Token} {body : List Item}
    (h : run nested .caseHead [] (.keyword .CASE :: ts) = .ok body) :
    ∃ more, run nested .branches [.keyword .CASE] ts = .ok more ∧
      body = .word (.keyword .CASE) :: more := by
  have haction : Place.caseHead.action [] (.keyword .CASE) ts =
      .write [.word (.keyword .CASE)] .branches := rfl
  rw [run_write haction] at h
  obtain ⟨more, hmore, rfl⟩ := map_eq_ok h
  exact ⟨more, hmore, rfl⟩

theorem leads_case {limit room : Nat} {ts : List Token} {body : List Item}
    (h : below limit room .caseHead (.keyword .CASE :: ts) = .ok body) :
    Leads body ∧ (Item.allTokens body).head? = some (.keyword .CASE) := by
  cases room with
  | zero => cases h
  | succ room =>
    rw [below, arrange_eq] at h
    obtain ⟨more, -, rfl⟩ := run_caseHead h
    exact ⟨.word, rfl⟩

theorem leads_inline {limit room : Nat} {t : Token} {ts : List Token} {body : List Item}
    (h : below limit room .inline (t :: ts) = .ok body) :
    Leads body ∧ (Item.allTokens body).head? = some t := by
  cases room with
  | zero => cases h
  | succ room =>
    rw [below, arrange_eq] at h
    have haction : Place.inline.action [] t ts = Place.inExpression .inline [] t := by
      simp [Place.action]
    unfold Place.inExpression at haction
    split at haction
    · cases hg : group 0 ts with
      | error e =>
        rw [run_unclosed haction hg] at h
        cases h
      | ok g =>
        obtain ⟨inner, after⟩ := g
        rw [run_openBracket haction hg] at h
        obtain ⟨more, -, rfl⟩ := map_eq_ok h
        refine ⟨(leads_bracket ..).append more, ?_⟩
        simp only [bracket]
        split
        · simp [opening, Item.allTokens, Item.tokens]
        · split <;> simp [opening, Item.allTokens, Item.tokens]
    · rw [if_neg (by simp [Place.afterDot])] at haction
      cases hc : caseEnd? 0 ts with
      | none =>
        rw [run_looseCase haction hc] at h
        obtain ⟨more, -, rfl⟩ := map_eq_ok h
        exact ⟨.word, rfl⟩
      | some g =>
        obtain ⟨inner, after⟩ := g
        rw [run_openCase haction hc] at h
        obtain ⟨more, -, rfl⟩ := map_eq_ok h
        unfold inset
        split
        · rename_i body hb
          obtain ⟨hleads, hhead⟩ := leads_case hb
          refine ⟨(Leads.inset hleads).append more, ?_⟩
          rw [Item.allTokens_append, List.head?_append, Item.allTokens, Item.tokens,
            List.head?_append, hhead]
          rfl
        · exact ⟨.word, rfl⟩
    · rw [run_write haction] at h
      obtain ⟨more, -, rfl⟩ := map_eq_ok h
      refine ⟨?_, by simp⟩
      cases t <;> first | exact .word | exact .remark

end Arrange

/-- The tokens of a statement are arranged with the first one first, also behind other tokens. -/
theorem leads_run {limit room : Nat} {before ts : List Token} {items : List Item}
    (h : Arrange.run (Arrange.below limit room) .statement before ts = .ok items) (hts : ts ≠ []) :
    Leads items :=
  (Arrange.arranged_of_run (by simp [Arrange.Starts]) h).leads
    (fun hb => (Arrange.leads_case hb).1) hts

theorem leads_arrange {limit room : Nat} {ts : List Token} {items : List Item}
    (h : arrange limit room .statement ts = .ok items) (hts : ts ≠ []) : Leads items := by
  rw [Arrange.arrange_eq] at h
  exact leads_run h hts

end SqlLayout
