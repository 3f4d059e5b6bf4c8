import SqlLayout.Proofs.Dotted
import SqlLayout.Proofs.LayoutComparison
import SqlLayout.Proofs.RenamedPage

/-! Keywords behind a dot are written like names. Two drafts are kept side by side, the one with the
keywords and the other with the names, so that the same page comes out.
-/

set_option autoImplicit false

namespace SqlLayout

namespace Token

def nominal : Token → Token
  | .keyword k => k.asName
  | t => t

theorem nominal_asName (k : Keyword) : k.asName.nominal = (Token.keyword k).nominal := rfl

theorem nominal_eq_dot {t : Token} : t.nominal = .dot ↔ t = .dot := by
  cases t <;> simp [nominal, Keyword.asName]

/-- A name and a keyword are spaced alike, except before a bracket. -/
theorem spaced_nominal {p q : Token} (hq : q ≠ .openParen) : p.spaced q = p.nominal.spaced q.nominal := by
  have hsecond : ∀ r : Token, r.spaced q = r.spaced q.nominal := by
    intro r
    cases q with
    | keyword k => cases r <;> rfl
    | _ => rfl
  have hfirst : p.spaced q.nominal = p.nominal.spaced q.nominal := by
    cases p with
    | keyword k =>
      cases q with
      | openParen => exact absurd rfl hq
      | _ => rfl
    | _ => rfl
  rw [hsecond, hfirst]

end Token

structure Draft.Akin (d e : Draft) : Prop where
  page : d.page = e.page
  first : d.first.map Token.nominal = e.first.map Token.nominal
  last : d.last.map Token.nominal = e.last.map Token.nominal
  remarked : d.remarked = e.remarked

structure Draft.Even (d e : Draft) : Prop extends d.Akin e where
  level : d.last.map (·.spaced .openParen) = e.last.map (·.spaced .openParen)

structure Draft.Ends (t : Token) (d e : Draft) : Prop extends d.Akin e where
  left : d.last = some t
  right : e.last = some t

/-- The same page where reading goes on with `ts`, behind the tokens `before`. -/
structure Draft.Ready (before ts : List Token) (d e : Draft) : Prop extends d.Akin e where
  level : ts.head? = some .openParen →
    d.last.map (·.spaced .openParen) = e.last.map (·.spaced .openParen)
  dot : before.head? = some .dot → d.last = some .dot

/-- The same page, and behind a `CASE` that was open at `p` its `END` is the last token. -/
structure Draft.Through (p : Place) (d e : Draft) : Prop extends d.Akin e where
  ended : p.isOpen = true → d.Ends (.keyword .END) e

namespace Draft

variable {o : Options} {flat : Bool} {d e i j : Draft} {t u : Token}

theorem Ends.even (h : d.Ends t e) : d.Even e :=
  ⟨h.toAkin, by rw [h.left, h.right]⟩

theorem Ends.ready (h : d.Ends t e) (before ts : List Token) : d.Ready (t :: before) ts e :=
  ⟨h.toAkin, fun _ => h.even.level, fun hb => by rw [h.left]; exact hb⟩

theorem Even.ready (h : d.Even e) (ts : List Token) : d.Ready [] ts e :=
  ⟨h.toAkin, fun _ => h.level, by simp⟩

theorem Akin.startLine (h : d.Akin e) (n : Nat) : (d.startLine n).Akin (e.startLine n) :=
  ⟨congrArg (Page.startLine n) h.page, h.first, h.last, h.remarked⟩

theorem Even.startLine (h : d.Even e) (n : Nat) : (d.startLine n).Even (e.startLine n) :=
  ⟨h.toAkin.startLine n, h.level⟩

theorem Ends.startLine (h : d.Ends t e) (n : Nat) : (d.startLine n).Ends t (e.startLine n) :=
  ⟨h.toAkin.startLine n, h.left, h.right⟩

theorem Ends.newline (h : d.Ends t e) : d.newline.Ends t e.newline :=
  ⟨⟨congrArg Page.newline h.page, h.first, h.last, h.remarked⟩, h.left, h.right⟩

theorem Ends.pushBelow (h : d.Ends t e) (lines : List Text) :
    Draft.Ends t { d with page := d.page.pushBelow 0 lines }
      { e with page := e.page.pushBelow 0 lines } :=
  ⟨⟨congrArg (Page.pushBelow 0 lines) h.page, h.first, h.last, h.remarked⟩, h.left, h.right⟩

theorem Ready.startLine {before ts : List Token} (h : d.Ready before ts e) (n : Nat) :
    (d.startLine n).Ready before ts (e.startLine n) :=
  ⟨h.toAkin.startLine n, h.level, h.dot⟩

theorem Through.of_isOpen {p q : Place} (h : d.Through p e) (hq : p.isOpen = q.isOpen) :
    d.Through q e :=
  ⟨h.toAkin, fun hopen => h.ended (hq.trans hopen)⟩

theorem even_blank : blank.Even blank := ⟨⟨rfl, rfl, rfl, rfl⟩, rfl⟩

namespace Akin

theorem spaceBefore (h : d.Akin e) (ht : t.nominal = u.nominal)
    (hl : t = .openParen → d.last.map (·.spaced .openParen) = e.last.map (·.spaced .openParen)) :
    d.spaceBefore t = e.spaceBefore u := by
  have hspaced : d.last.map (·.spaced t) = e.last.map (·.spaced u) := by
    by_cases hopen : t = .openParen
    · subst hopen
      obtain rfl : u = .openParen := by
        cases u <;> simp_all [Token.nominal, Keyword.asName]
      exact hl rfl
    · have hu : u ≠ .openParen := by
        rintro rfl
        cases t <;> simp_all [Token.nominal, Keyword.asName]
      have hmap : ∀ {a b : Option Token}, a.map Token.nominal = b.map Token.nominal →
          a.map (·.spaced t) = b.map (·.spaced u) := by
        intro a b hab
        cases a <;> cases b <;> simp_all
        rw [Token.spaced_nominal hopen, Token.spaced_nominal hu, ht, hab]
      exact hmap h.last
  have hneeds : needsSpace d.last t d.page.atLineStart = needsSpace e.last u e.page.atLineStart := by
    rw [h.page]
    cases hd : d.last <;> cases he : e.last <;> simp_all [needsSpace]
  unfold Draft.spaceBefore
  rw [hneeds, h.page]

theorem render (h : d.Akin e) (t : Token) : t.render o flat d.last = t.render o flat e.last := by
  have hdot : ∀ {a : Option Token}, a = some .dot ↔ a.map Token.nominal = some .dot := by
    intro a
    cases a <;> simp [Token.nominal_eq_dot]
  cases t with
  | keyword k =>
    have hiff : d.last = some .dot ↔ e.last = some .dot := by rw [hdot, h.last, ← hdot]
    simp only [Token.render, hiff]
  | _ => rfl

theorem word (h : d.Akin e)
    (hl : t = .openParen → d.last.map (·.spaced .openParen) = e.last.map (·.spaced .openParen)) :
    (d.word o flat t).Ends t (e.word o flat t) where
  page := by
    simp only [Draft.word]
    rw [h.spaceBefore rfl hl, h.render]
  first := orElse_map h.first rfl
  last := rfl
  remarked := h.remarked
  left := rfl
  right := rfl

theorem word_name (ho : o.functions = []) (h : d.Akin e) {k : Keyword} (hdot : d.last = some .dot) :
    (d.word o flat (.keyword k)).Akin (e.word o flat k.asName) where
  page := by
    have hrender : (Token.keyword k).render o flat d.last = k.asName.render o flat e.last := by
      simp [Token.render, Keyword.asName, hdot, Options.isFunction, ho]
    simp only [Draft.word]
    rw [h.spaceBefore (Token.nominal_asName k).symm (by simp), hrender]
  first := orElse_map h.first rfl
  last := rfl
  remarked := h.remarked

theorem remark (h : d.Akin e) (t : Text) (n : Nat) :
    (d.remark o flat t n).Ends (.lineComment t) (e.remark o flat t n) where
  page := by
    simp only [Draft.remark]
    rw [h.render, h.page]
  first := orElse_map h.first rfl
  last := rfl
  remarked := rfl
  left := rfl
  right := rfl

theorem lines (h : d.Akin e) : d.lines = e.lines := by
  have hlast := h.last
  unfold Draft.lines
  rw [h.page]
  cases hd : d.last <;> cases he : e.last <;> simp_all
  rename_i t u
  cases t <;> cases u <;> simp_all [Token.nominal, Keyword.asName]

theorem start (h : d.Akin e) (hi : i.Akin j) (hl : i.first = some .openParen →
      d.last.map (·.spaced .openParen) = e.last.map (·.spaced .openParen)) :
    (i.first.elim d.page fun t => d.spaceBefore t) =
      j.first.elim e.page fun t => e.spaceBefore t := by
  have hfirst := hi.first
  cases hd : i.first <;> cases he : j.first <;> simp_all [h.page]
  exact h.spaceBefore hfirst hl

theorem setIn (h : d.Akin e) (hi : i.Akin j) (hl : i.first = some .openParen →
      d.last.map (·.spaced .openParen) = e.last.map (·.spaced .openParen)) :
    (d.setIn i).Akin (e.setIn j) where
  page := by simp only [Draft.setIn]; rw [h.start hi hl, hi.lines]
  first := orElse_map h.first hi.first
  last := orElse_map hi.last h.last
  remarked := by simp [Draft.setIn, h.remarked, hi.remarked]

theorem setIn_ends (h : d.Akin e) (hi : i.Ends t j) (hl : i.first = some .openParen →
      d.last.map (·.spaced .openParen) = e.last.map (·.spaced .openParen)) :
    (d.setIn i).Ends t (e.setIn j) :=
  ⟨h.setIn hi.toAkin hl, by simp [Draft.setIn, hi.left], by simp [Draft.setIn, hi.right]⟩

theorem setOnLine (h : d.Akin e) (hi : i.Akin j) (hl : i.first = some .openParen →
      d.last.map (·.spaced .openParen) = e.last.map (·.spaced .openParen)) :
    (d.setOnLine i).Akin (e.setOnLine j) where
  page := by simp only [Draft.setOnLine]; rw [h.start hi hl, hi.lines]
  first := orElse_map h.first hi.first
  last := orElse_map hi.last h.last
  remarked := by simp [Draft.setOnLine, h.remarked, hi.remarked]

theorem text (h : d.Akin e) : d.text = e.text := by
  have hsemi : ∀ {a : Option Token}, a = some .semicolon ↔ a.map Token.nominal = some .semicolon := by
    intro a
    cases a with
    | none => simp
    | some t => cases t <;> simp [Token.nominal, Keyword.asName]
  have hlast : d.last = some .semicolon ↔ e.last = some .semicolon := by rw [hsemi, h.last, ← hsemi]
  unfold Draft.text
  simp only [h.page, hlast]

end Akin

end Draft

/-- From two drafts of which `P` holds, the items on the one and `items'` on the other lead to drafts
of which `Q` holds. -/
def Carries (o : Options) (P : Draft → Draft → Prop) (items items' : List Item)
    (Q : Draft → Draft → Prop) : Prop :=
  ∀ (flat : Bool) {d e : Draft}, P d e → Q (writeAll o flat items d) (writeAll o flat items' e)

namespace Carries

variable {o : Options} {P Q R : Draft → Draft → Prop} {a a' b b' : List Item} {t : Token}

theorem append (h : Carries o P a a' Q) (h' : Carries o Q b b' R) :
    Carries o P (a ++ b) (a' ++ b') R := fun flat d e hd => by
  rw [writeAll_append, writeAll_append]
  exact h' flat (h flat hd)

theorem before (h : Carries o P a a' Q) (hP : ∀ {d e}, R d e → P d e) : Carries o R a a' Q :=
  fun flat _ _ hd => h flat (hP hd)

theorem behind (h : Carries o P a a' Q) (hQ : ∀ {d e}, Q d e → R d e) : Carries o P a a' R :=
  fun flat _ _ hd => hQ (h flat hd)

theorem nil : Carries o P [] [] P := fun _ _ _ hd => hd

theorem breaks {items : List Item} (h : ∀ i ∈ items, i.isBreak = true) :
    Carries o (Draft.Ends t) items items (Draft.Ends t) := by
  induction items with
  | nil => exact .nil
  | cons i items ih =>
    have hrest := ih fun j hj => h j (by simp [hj])
    have hi := h i (by simp)
    cases i with
    | newline => exact fun flat d e hd => hrest flat hd.newline
    | startLine n => exact fun flat d e hd => hrest flat (hd.startLine n)
    | _ => simp [Item.isBreak] at hi

theorem word (t : Token) : Carries o Draft.Even [.word t] [.word t] (Draft.Ends t) :=
  fun _ _ _ hd => hd.word fun _ => hd.level

theorem echo_token (t : Token) (n : Nat) (before ts : List Token) :
    Carries o (Draft.Ready before (t :: ts)) (Item.echo n [t]) (Item.echo n [t]) (Draft.Ends t) := by
  intro flat d e hd
  cases t with
  | lineComment t => exact hd.remark t n
  | openParen => exact hd.word fun _ => hd.level rfl
  | _ => exact hd.word (by simp)

theorem name (ho : o.functions = []) {k : Keyword} {before ts ts' : List Token}
    (hdot : before.head? = some .dot) (hk : Unheard before k ts) :
    Carries o (Draft.Ready before ts') [.word (.keyword k)] [.word k.asName]
      (Draft.Ready (k.asName :: before) ts) := by
  intro flat d e hd
  refine ⟨hd.word_name ho (hd.dot hdot), fun hopen => ?_, by simp [Keyword.asName]⟩
  have hcall := hk.call hopen
  simp [writeAll, Item.write, Draft.word, Token.spaced, Keyword.asName, hcall, Token.isTight,
    Token.joinsComparison]

theorem echo (ho : o.functions = []) {tail before ts ts' : List Token} (h : Named tail before ts ts')
    (n : Nat) : Carries o (Draft.Ready before (ts' ++ tail)) (Item.echo n ts) (Item.echo n ts')
      (Draft.Ready (ts'.reverse ++ before) tail) := by
  induction h with
  | nil => exact .nil
  | @keep before ts ts' t h ih =>
    rw [List.reverse_cons, List.append_assoc]
    exact append (echo_token t n before (ts' ++ tail)) (ih.before fun hd => hd.ready before _)
  | name hdot hk h ih =>
    rw [List.reverse_cons, List.append_assoc]
    exact append (name ho hdot hk) ih

end Carries

section

variable {o : Options}

mutual

theorem first_write : ∀ (i : Item) (flat : Bool) {d : Draft} {t : Token}, d.first = some t →
    (i.write o flat d).first = some t
  | .word _, _, _, _, h | .remark _ _, _, _, _, h | .inset _ _, _, _, _, h => by
    simp [Item.write, Draft.word, Draft.remark, Draft.setIn, h]
  | .newline, _, _, _, h | .startLine _, _, _, _, h => h
  | .query body, flat, _, _, h => by
    rw [write_query]
    split <;> simp [Draft.setIn, Draft.setOnLine, h]
  | .elements [], _, _, _, h => h
  | .elements (part :: rest), flat, _, _, h =>
    first_writeElements rest flat _ (first_writeAll part flat h)
  | .definitions parts, flat, _, _, h => by
    simp [Item.write, Draft.word, Draft.startLine, h]

theorem first_writeAll : ∀ (items : List Item) (flat : Bool) {d : Draft} {t : Token},
    d.first = some t → (writeAll o flat items d).first = some t
  | [], _, _, _, h => h
  | i :: rest, flat, _, _, h => first_writeAll rest flat (first_write i flat h)

theorem first_writeElements : ∀ (parts : List (List Item)) (flat : Bool) (wrap : Option Nat)
    {d : Draft} {t : Token}, d.first = some t → (writeElements o flat wrap parts d).first = some t
  | [], _, _, _, _, h => h
  | part :: rest, flat, wrap, d, t, h => by
    have hcomma : (d.word o flat .comma).first = some t := by simp [Draft.word, h]
    refine first_writeElements rest flat wrap (first_writeAll part flat ?_)
    cases wrap <;> exact hcomma

end

end

namespace Arrange

def NestedNamed (o : Options) (nested : Nested) : Prop :=
  ∀ {p : Place} {ts ts' : List Token}, Starts p [] ts → p.Opened [] → Named [] [] ts ts' →
    Both (fun body body' => (∀ flat,
        (writeAll o flat body .blank).Through p (writeAll o flat body' .blank)) ∧
      (p = .caseHead → ∃ more, body = .word (.keyword .CASE) :: more)) (nested p ts) (nested p ts')

variable {o : Options} {nested : Nested}

theorem NestedNamed.inset (ho : o.functions = []) (hn : NestedNamed o nested) {p : Place}
    (hp : p ≠ .caseHead) (hopened : p.Opened []) {ts ts' : List Token} (h : Named [] [] ts ts')
    (flat : Bool) (indent : Nat) :
    Carries o Draft.Even (Arrange.inset nested flat p indent ts)
      (Arrange.inset nested flat p indent ts') Draft.Akin := by
  have hstart : Starts p [] ts := fun hc => absurd hc hp
  unfold Arrange.inset
  rcases (hn hstart hopened h).split with ⟨_, _, hx, hx'⟩ | ⟨body, body', hx, hx', hbody, -⟩
  · rw [hx, hx']
    exact ((Carries.echo ho h indent).before fun hd => hd.ready _).behind fun hd => hd.toAkin
  · rw [hx, hx']
    exact fun f d e hd => hd.setIn (hbody (f || flat)).toAkin fun _ => hd.level

/-- A whole `CASE`. Its `END` is the last token, whether it is laid out or not. -/
theorem NestedNamed.insetCase (ho : o.functions = []) (hn : NestedNamed o nested)
    {tail before inner inner' : List Token} (h : Named tail (.keyword .CASE :: before) inner inner')
    (hend : inner'.getLast? = some (.keyword .END)) (indent : Nat) :
    Carries o (Draft.Ready before (.keyword .CASE :: inner' ++ tail))
      (Arrange.inset nested true .caseHead indent (.keyword .CASE :: inner))
      (Arrange.inset nested true .caseHead indent (.keyword .CASE :: inner'))
      (Draft.Ready (inner'.reverse ++ .keyword .CASE :: before) tail) := by
  have hstart : Starts .caseHead [] (.keyword .CASE :: inner) := fun _ => ⟨rfl, inner, rfl⟩
  have hown : Named [] [] (.keyword .CASE :: inner) (.keyword .CASE :: inner') :=
    .keep (h.part (x := [_]) (.inl (by simp)))
  unfold Arrange.inset
  rcases (hn hstart trivial hown).split with ⟨_, _, hx, hx'⟩ | ⟨body, body', hx, hx', hbody, hcase⟩
  · rw [hx, hx']
    simpa using Carries.echo ho h.keep indent
  · rw [hx, hx']
    intro f d e hd
    obtain ⟨more, rfl⟩ := hcase rfl
    have hfirst : (writeAll o (f || true) (.word (.keyword .CASE) :: more) .blank).first =
        some (.keyword .CASE) := first_writeAll more _ rfl
    have hends := hd.setIn_ends ((hbody (f || true)).ended rfl) fun hopen => by
      rw [hfirst] at hopen
      cases hopen
    refine ⟨hends.toAkin, fun _ => hends.even.level, fun hdot => ?_⟩
    rw [List.head?_append, List.head?_reverse, hend] at hdot
    cases hdot

theorem NestedNamed.query (ho : o.functions = []) (hn : NestedNamed o nested) {ts ts' : List Token}
    (h : Named [] [] ts ts') (indent : Nat) :
    Carries o Draft.Even (Arrange.query nested indent ts) (Arrange.query nested indent ts')
      Draft.Akin := by
  have hstart : Starts .statement [] ts := by simp [Starts]
  unfold Arrange.query
  rcases (hn hstart trivial h).split with ⟨_, _, hx, hx'⟩ | ⟨body, body', hx, hx', hbody, -⟩
  · rw [hx, hx']
    exact ((Carries.echo ho h indent).before fun hd => hd.ready _).behind fun hd => hd.toAkin
  · rw [hx, hx']
    intro f d e hd
    have hinner := (hbody f).toAkin
    simp only [writeAll, Item.write]
    rw [hinner.page, hinner.remarked]
    split
    · exact hd.setOnLine hinner fun _ => hd.level
    · exact hd.setIn hinner fun _ => hd.level

theorem carries_closing : Carries o Draft.Akin [closing] [closing] (Draft.Ends .closeParen) :=
  fun _ _ _ hd => hd.word (by simp)

theorem carries_brackets {items items' : List Item} (h : Carries o Draft.Even items items' Draft.Akin) :
    Carries o Draft.Even (opening :: items ++ [closing]) (opening :: items' ++ [closing])
      (Draft.Ends .closeParen) :=
  ((Carries.word .openParen).append (h.before fun hd => hd.even)).append carries_closing

theorem NestedNamed.block (ho : o.functions = []) (hn : NestedNamed o nested) {ts ts' : List Token}
    (h : Named [] [] ts ts') (width indent : Nat) :
    Carries o Draft.Even (Arrange.block nested width indent ts)
      (Arrange.block nested width indent ts') (Draft.Ends .closeParen) := by
  unfold Arrange.block
  rw [h.isEmpty_eq]
  split
  · exact carries_brackets (Carries.nil.behind fun hd => hd.toAkin)
  · have hbody : Carries o Draft.Even (Arrange.inset nested false .block indent ts)
        (Arrange.inset nested false .block indent ts') Draft.Akin :=
      hn.inset ho (p := .block) (by simp) trivial h false indent
    have hopen : Carries o Draft.Even [.startLine 0, opening, .startLine width]
        [.startLine 0, opening, .startLine width] (Draft.Ends .openParen) := fun f d e hd =>
      (Carries.word .openParen f (hd.startLine 0)).startLine width
    have hclose : Carries o Draft.Akin [.startLine 0, closing] [.startLine 0, closing]
        (Draft.Ends .closeParen) := fun f d e hd => carries_closing f (hd.startLine 0)
    exact (hopen.append (hbody.before fun hd => hd.even)).append hclose

theorem carries_elements {parts parts' : List (List Item)}
    (h : List.Forall₂ (fun part part' => Carries o Draft.Even part part' Draft.Akin) parts parts') :
    Carries o Draft.Even [.elements parts] [.elements parts'] Draft.Akin := by
  have hmore : ∀ {parts parts' : List (List Item)} (wrap : Option Nat) (flat : Bool) {d e : Draft},
      List.Forall₂ (fun part part' => Carries o Draft.Even part part' Draft.Akin) parts parts' →
      d.Akin e → (writeElements o flat wrap parts d).Akin (writeElements o flat wrap parts' e) := by
    intro parts parts' wrap flat d e h hd
    induction h generalizing d e with
    | nil => exact hd
    | @cons part part' parts parts' hpart _ ih =>
      have hcomma : (d.word o flat .comma).Ends .comma (e.word o flat .comma) := hd.word (by simp)
      refine ih (hpart flat ?_)
      cases wrap with
      | none => exact hcomma.even
      | some n => exact (hcomma.startLine n).even
  intro flat d e hd
  cases h with
  | nil => exact hd.toAkin
  | cons hpart hparts =>
    simp only [writeAll, Item.write, hd.page, List.length_cons, hparts.length_eq]
    exact hmore _ flat hparts (hpart flat hd)

inductive SameDefinition (o : Options) : List Item → List Item → Prop where
  | nil : SameDefinition o [] []
  | cons {t : Token} {more more' : List Item}
      (h : ∀ flat, (writeAll o flat more .blank).Akin (writeAll o flat more' .blank)) :
      SameDefinition o (.word t :: more) (.word t :: more')

theorem readDefinitions_eq {parts parts' : List (List Item)}
    (h : List.Forall₂ (SameDefinition o) parts parts') (flat : Bool) :
    readDefinitions o flat parts = readDefinitions o flat parts' := by
  induction h with
  | nil => rfl
  | cons hpart _ ih =>
    cases hpart with
    | nil => simp only [readDefinitions, ih]
    | cons hmore => simp only [readDefinitions, ih, (hmore flat).lines]

theorem carries_definitions {parts parts' : List (List Item)}
    (h : List.Forall₂ (SameDefinition o) parts parts') :
    Carries o Draft.Even [.definitions parts] [.definitions parts'] (Draft.Ends .closeParen) := by
  intro flat d e hd
  have hopen : ((d.startLine 0).word o flat .openParen).Ends .openParen
      ((e.startLine 0).word o flat .openParen) := (hd.startLine 0).word fun _ => hd.level
  simp only [writeAll, write_definitions, readDefinitions_eq h]
  exact ((hopen.pushBelow _).startLine 0).word (by simp)

theorem NestedNamed.definition (ho : o.functions = []) (hn : NestedNamed o nested)
    {before part part' : List Token} (h : Named.Element before part part')
    (hcreate : .keyword .CREATE ∈ before) :
    SameDefinition o (Arrange.definition nested part) (Arrange.definition nested part') := by
  obtain ⟨t, x, ht, hpart⟩ := h
  cases hpart with
  | nil => exact .nil
  | name hdot => rcases ht with rfl | rfl <;> simp at hdot
  | @keep _ rest rest' u hrest =>
    -- no name follows a dot that is itself the name of the column
    have hown : Named [] [] rest rest' := by
      cases hrest with
      | nil => exact .nil
      | keep hrest => exact .keep (hrest.part (x := [_]) (.inl (by simp)))
      | name hdot hk =>
        obtain rfl : u = .dot := by simpa using hdot
        have := hk.column (by simp [hcreate]) t _ rfl
        rcases ht with rfl | rfl <;> simp at this
    have hstart : Starts .inline [] rest := by simp [Starts]
    rcases (hn hstart trivial hown).split with ⟨_, _, hx, hx'⟩ | ⟨body, body', hx, hx', hbody, -⟩
    · simp only [Arrange.definition, hx, hx']
      exact .cons fun flat => (Carries.echo ho hown 0 flat (Draft.even_blank.ready _)).toAkin
    · simp only [Arrange.definition, hx, hx']
      exact .cons fun flat => (hbody flat).toAkin

theorem NestedNamed.bracket (ho : o.functions = []) (hn : NestedNamed o nested)
    {tail before before' ts ts' : List Token} (h : Named tail (.openParen :: before') ts ts')
    (hintroducer : Place.afterIntroducer before = Place.afterIntroducer before') {b : Bracket}
    (hcreate : b = .columns → .keyword .CREATE ∈ before') (indent : Nat) :
    Carries o Draft.Even (Arrange.bracket nested b indent before ts)
      (Arrange.bracket nested b indent before' ts') (Draft.Ends .closeParen) := by
  have hown : Named [] [] ts ts' := h.part (x := []) (.inr (by simp))
  have hquery := h.startsQuery_eq (by simp)
  have hinline : ∀ {part part'}, Named [] [] part part' →
      Carries o Draft.Even (Arrange.inset nested false .inline indent part)
        (Arrange.inset nested false .inline indent part') Draft.Akin :=
    fun hpart => hn.inset ho (p := .inline) (by simp) trivial hpart false indent
  unfold Arrange.bracket
  rw [hintroducer, hquery, h.isEmpty_eq, h.any_isComment, h.splitCommas.length_eq]
  cases b with
  | expression =>
    dsimp only
    split
    · exact carries_brackets (hn.query ho hown indent)
    · split
      · have hparts : List.Forall₂ (fun part part' => Carries o Draft.Even part part' Draft.Akin)
            ((splitCommas ts).map (Arrange.inset nested false .inline indent))
            ((splitCommas ts').map (Arrange.inset nested false .inline indent)) := by
          rw [List.forall₂_map_left_iff, List.forall₂_map_right_iff]
          refine h.splitCommas.imp fun part part' hpart => ?_
          obtain ⟨t, x, ht, hpart⟩ := hpart
          refine hinline (hpart.part (x := []) (.inr ?_))
          rcases ht with rfl | rfl <;> simp
        exact carries_brackets (carries_elements hparts)
      · exact carries_brackets (hinline hown)
  | pairs =>
    exact carries_brackets (hn.inset ho (p := .pairs 0) (by simp) trivial hown true indent)
  | row =>
    dsimp only
    split
    · exact carries_brackets (hn.query ho hown indent)
    · exact hn.block ho hown 2 indent
  | columns =>
    dsimp only
    split
    · exact hn.block ho hown 2 indent
    · refine carries_definitions ?_
      rw [List.forall₂_map_left_iff, List.forall₂_map_right_iff]
      exact h.splitCommas.imp fun part part' hpart => hn.definition ho hpart (hcreate rfl)
  | indexColumns =>
    dsimp only
    split
    · exact hn.block ho hown 7 indent
    · exact carries_brackets (hinline hown)

theorem carries_written {p next : Place} {before before' ts : List Token} {t : Token}
    {items : List Item} (hr : p.Reads before t (.write items next)) :
    Carries o (Draft.Ready before' (t :: ts)) items items (Draft.Ends t) := by
  cases hr with
  | @write s n f _ hs hf =>
    have hstart : Carries o (Draft.Ready before' (t :: ts)) s s (Draft.Ready before' (t :: ts)) := by
      rcases hs with rfl | rfl | ⟨-, m, rfl⟩
      · exact .nil
      · exact fun _ _ _ hd => hd.startLine 0
      · exact fun _ _ _ hd => hd.startLine m
    exact (hstart.append (.echo_token t n before' ts)).append (.breaks hf)

/-- Where the keywords that became names are not heard, tokens are arranged alike. -/
theorem run_named (ho : o.functions = []) (hn : NestedNamed o nested) {p : Place}
    {before before' ts ts' : List Token} (hs : Starts p before ts) (hopened : p.Opened before')
    (hp : Past before before' ts') (h : Named [] before' ts ts') :
    Both (fun items items' => Carries o (Draft.Ready before' ts') items items' (Draft.Through p))
      (run nested p before ts) (run nested p before' ts') := by
  have hfirst : ∀ {p : Place} {before ts : List Token}, Starts p before ts → p = .caseHead →
      before = [] := fun hs hc => (hs hc).1
  -- along the run with the keywords; the other run takes the same step each time
  fun_induction run nested p before ts generalizing before' ts' with
  | case1 p before =>
    cases h
    rw [run]
    unfold atEnd
    split
    · exact .error _ _
    · exact .ok (Carries.nil.behind fun hd => ⟨hd.toAkin, by simp_all⟩)
  | case2 p before t rest items next ha ih =>
    have hr : p.Reads before t (.write items next) := ha ▸ hs.reads
    have hstart : Starts next (t :: before) rest := .next hr rfl
    have hopen := hr.isOpen_next rfl
    cases h with
    | @keep _ _ rest' _ hrest =>
      have ha' := (hp.action_keep hrest).trans ha
      have hopened' : next.Opened (t :: before') := (ha' ▸ Place.leads_action hopened rest').opened
      rw [run_write ha']
      exact (ih hstart hopened' (.keep hp) hrest).map fun hmore =>
        (carries_written hr).append
          ((hmore.before fun hd => hd.ready before' rest').behind fun hd => hd.of_isOpen hopen)
    | @name _ _ rest' k hdot hk hrest =>
      obtain ⟨hkeyword, hasName, hopened', -⟩ := hp.action_name hdot hk hopened (hfirst hs)
      obtain ⟨rfl, rfl⟩ : [Item.word (.keyword k)] = items ∧ p.afterName = next := by
        simpa using hkeyword.symm.trans ha
      have hk' : Unheard before' k rest' := by simpa using hk
      rw [run_write hasName]
      exact (ih hstart hopened' (.name hdot hk' hp) hrest).map fun hmore =>
        (Carries.name ho hdot hk').append (hmore.behind fun hd => hd.of_isOpen hopen)
  | case3 p before t rest b next ha e hg =>
    obtain ⟨rest', rfl, hrest, hsame⟩ := hp.kept h hopened (hfirst hs) (by simp [ha])
    obtain ⟨_, e', -, hg'⟩ | ⟨_, _, hgroup, -⟩ := (hrest.group 0).split
    · rw [run_unclosed (hsame.trans ha) hg']
      exact .error _ _
    · cases hg.symm.trans hgroup
  | case4 p before t rest b next ha inner after hg _ ih =>
    obtain ⟨rest', rfl, hrest, hsame⟩ := hp.kept h hopened (hfirst hs) (by simp [ha])
    have ha' := hsame.trans ha
    have hr : p.Reads before t (.openBracket b next) := ha ▸ hs.reads
    have hleads : Place.Leads before' t (.openBracket b next) :=
      ha' ▸ Place.leads_action hopened rest'
    obtain ⟨_, _, hgroup, -⟩ | ⟨_, ⟨inner', after'⟩, hgroup, hg', rfl, hinner, hafter⟩ :=
      (hrest.group 0).split
    · cases hg.symm.trans hgroup
    obtain rfl := Except.ok.inj (hg.symm.trans hgroup)
    rw [run_openBracket ha' hg']
    obtain rfl := hr.eq_openParen
    have hpast := hinner.past (by simpa using hp.keep)
    have hcolumns : b = .columns → .keyword .CREATE ∈ before' := by
      rintro rfl
      exact hleads.of_columns
    have hbracket := hn.bracket ho hinner hp.afterIntroducer_eq hcolumns p.indent
    refine (ih (.next hr rfl) (hleads.opened_group hg') (.keep ?_) hafter).map fun hmore => ?_
    · simpa using hpast
    · exact (hbracket.before fun hd => ⟨hd.toAkin, hd.level rfl⟩).append
        ((hmore.before fun hd => hd.ready _ after').behind fun hd =>
          hd.of_isOpen (hr.isOpen_next rfl))
  | case5 p before t rest next ha hc =>
    obtain ⟨rest', rfl, hrest, hsame⟩ := hp.kept h hopened (hfirst hs) (by simp [ha])
    have hr : p.Reads before t (.openCase next) := ha ▸ hs.reads
    have hopen := hr.isOpen_next rfl
    obtain rfl := hr.eq_case
    rw [run_looseCase (hsame.trans ha) (Named.rel_none (hc ▸ hrest.caseEnd? .here))]
    unfold atEnd
    split
    · exact .error _ _
    · -- no `END`, so that the rest is written without layout
      rename_i hclosed
      have hecho := (Carries.echo ho hrest.keep p.indent).behind
        fun hd => (⟨hd.toAkin, by simp_all⟩ : Draft.Through p _ _)
      rw [List.append_nil] at hecho
      exact .ok (hecho.append .nil)
  | case6 p before t rest next ha inner after hc _ ih =>
    obtain ⟨rest', rfl, hrest, hsame⟩ := hp.kept h hopened (hfirst hs) (by simp [ha])
    have ha' := hsame.trans ha
    have hr : p.Reads before t (.openCase next) := ha ▸ hs.reads
    have hleads : Place.Leads before' t (.openCase next) := ha' ▸ Place.leads_action hopened rest'
    obtain rfl := hr.eq_case
    obtain ⟨⟨inner', after'⟩, hc', rfl, hinner, hafter⟩ :=
      Named.rel_some (hc ▸ hrest.caseEnd? .here)
    rw [run_openCase ha' hc']
    have hpast := hinner.past (by simpa using hp.keep)
    have hcase := hn.insetCase ho hinner (caseEnd?_getLast hc') p.indent
    refine (ih (.next hr rfl) (hleads.opened_case hc') ?_ hafter).map fun hmore => ?_
    · simpa using hpast
    · rw [List.nil_append, List.append_nil] at hcase
      exact hcase.append (hmore.behind fun hd => hd.of_isOpen (hr.isOpen_next rfl))
  | case7 p before t rest items ha =>
    obtain ⟨rest', rfl, hrest, hsame⟩ := hp.kept h hopened (hfirst hs) (by simp [ha])
    have hr : p.Reads before t (.finish items) := ha ▸ hs.reads
    rw [run_finish (hsame.trans ha)]
    cases hr with
    | finish _ ht =>
      subst ht
      refine .ok fun flat d e hd => ?_
      have hends : Draft.Ends (.keyword .END) (writeAll o flat [.startLine 0, .word (.keyword .END)] d)
        (writeAll o flat [.startLine 0, .word (.keyword .END)] e) := (hd.startLine 0).word (by simp)
      exact ⟨hends.toAkin, fun _ => hends⟩

theorem NestedNamed.run (ho : o.functions = []) (hn : NestedNamed o nested) :
    NestedNamed o fun p ts => run nested p [] ts := by
  intro p ts ts' hs hopened h
  rcases (run_named ho hn hs hopened .nil h).split with ⟨e, e', hx, hx'⟩ | ⟨body, body', hx, hx', hbody⟩
  · simp only [hx, hx']
    exact .error e e'
  · simp only [hx, hx']
    refine .ok ⟨fun flat => hbody flat (Draft.even_blank.ready ts'), fun hc => ?_⟩
    obtain ⟨-, rest, rfl⟩ := hs hc
    subst hc
    rw [run_write rfl] at hx
    obtain ⟨more, -, rfl⟩ := map_eq_ok hx
    exact ⟨more, rfl⟩

theorem nestedNamed_arrange (ho : o.functions = []) (limit room : Nat) :
    NestedNamed o (arrange limit room) := by
  apply arrange_induction (motive := NestedNamed o)
  case deep => exact fun _ _ _ => .error _ _
  case run => exact fun hn => hn.run ho

end Arrange

variable {o : Options} {tokens tokens' : List Token} {source : Text}

theorem formatTokens_named (ho : o.functions = []) (hc : isCommand (solid tokens) = false)
    (h : Named [] [] (solid tokens) (solid tokens')) :
    formatTokens o tokens' source = formatTokens o tokens source := by
  rw [formatTokens_statement hc, formatTokens_statement (h.isCommand_eq ▸ hc), h.isEmpty_eq,
    h.checkQuotes_eq, h.checkBalance_eq]
  split
  · rfl
  cases hquotes : checkQuotes (solid tokens') with
  | error => rfl
  | ok =>
    cases hbalance : checkBalance 0 (solid tokens') with
    | error => rfl
    | ok =>
      obtain ⟨nested, hrun⟩ := arrange_eq_run o.nestingLimit o.nestingLimit
      obtain ⟨items, hitems⟩ : ∃ items, arrange o.nestingLimit o.nestingLimit .statement
          (solid tokens') = .ok items := by
        rw [hrun]
        exact Arrange.run_of_closes rfl (closes_of_checkBalance hbalance)
      have hboth := Arrange.nestedNamed_arrange ho o.nestingLimit o.nestingLimit (p := .statement)
        (by simp [Arrange.Starts]) trivial h
      rcases hboth.split with ⟨e, e', hx, hx'⟩ | ⟨body, body', hx, hx', hbody, -⟩
      · simp [hx'] at hitems
      · rw [hx, hx']
        exact congrArg Except.ok (hbody false).toAkin.text.symm

theorem asName_isGap (t : Token) : t.asName.isGap = t.isGap := by
  cases t with
  | keyword k =>
    simp only [Token.asName]
    split <;> rfl
  | _ => rfl

theorem solid_namesFrom (dotted : Bool) (ts : List Token) :
    solid (namesFrom dotted ts) = namesFrom dotted (solid ts) := by
  induction ts generalizing dotted with
  | nil => rfl
  | cons t ts ih =>
    have hgap : (if dotted then t.asName else t).isGap = t.isGap := by
      cases dotted
      · rfl
      · exact asName_isGap t
    simp only [namesFrom, solid, List.filter_cons, hgap]
    cases ht : t.isGap with
    | true => exact ih dotted
    | false => simpa [namesFrom, ht, solid] using ih (t = .dot)

/-- A keyword of one word directly behind a dot can be written as a name in lower case, if there is no
list of functions and nothing listens for it where it stands. -/
theorem names_unheard (o : Options) (tokens : List Token) (source : Text) (ho : o.functions = [])
    (hc : isCommand (solid tokens) = false)
    (h : ∀ a k b, solid tokens = a ++ .dot :: .keyword k :: b → k ∈ Keyword.singleWords →
      Unheard (.dot :: (names a).reverse) k (names b)) :
    formatTokens o (names tokens) source = formatTokens o tokens source := by
  refine formatTokens_named ho hc ?_
  rw [names, solid_namesFrom]
  refine Named.of_unheard (fun t ht => ?_) (by simp) (by simp) fun a k b hts hk => ?_
  · simpa [solid] using (List.mem_filter.1 ht).2
  · simpa [names] using h a k b hts hk

/-- A condition listens for `OR`, behind a dot as well. -/
example : formatTokens {} (names (tokenize "select a from t where t.or=1".toList)) [] ≠
    formatTokens {} (tokenize "select a from t where t.or=1".toList) [] := by
  decide +kernel

/-- A `FROM` in the list of a `SELECT`, a `SELECT` in a condition and an `OR` behind the condition are
only the names of columns. -/
theorem names_unheard_columns : formatTokens {}
    (names (tokenize "select t.from from t where t.select=1 order by t.or".toList)) [] =
      .ok "SELECT t.from\nFROM t\nWHERE t.select = 1\nORDER BY t.or".toList := by
  have htokens : tokenize "select t.from from t where t.select=1 order by t.or".toList =
      [.keyword .SELECT, .gap [' '], .identifier ['t'], .dot, .keyword .FROM, .gap [' '],
        .keyword .FROM, .gap [' '], .identifier ['t'], .gap [' '], .keyword .WHERE, .gap [' '],
        .identifier ['t'], .dot, .keyword .SELECT, .operator ['='], .number ['1'], .gap [' '],
        .keyword .ORDER_BY, .gap [' '], .identifier ['t'], .dot, .keyword .OR] := by
    decide +kernel
  -- there is no `CASE`, no `CREATE` and no `AS`
  have hunheard : ∀ {before : List Token} {k : Keyword} {after : List Token},
      (.keyword .CASE ∉ before ∧ .keyword .CREATE ∉ before ∧ .keyword .AS ∉ after) →
      after.head? ≠ some .openParen → (∀ d, Span.condition.Within d before →
        k ≠ .BETWEEN ∧ (d = 0 → k ≠ .AND ∧ k ≠ .OR)) → Unheard before k after :=
    fun ⟨hcase, hcreate, has⟩ hcall hcondition =>
      ⟨fun h => absurd h hcall, fun _ h => absurd h.mem hcase, hcondition,
        fun h => absurd (Place.Opened.mem h) hcreate, fun h => absurd h has,
        fun h => absurd h hcreate⟩
  rw [htokens]
  refine (names_unheard {} _ [] rfl (by decide) fun a k b hsplit _ => ?_).trans (by decide +kernel)
  obtain ⟨x, rfl, ⟨rfl, rfl, rfl⟩ | ⟨y, rfl, ⟨rfl, rfl, rfl⟩ | ⟨rfl, rfl, rfl⟩⟩⟩ : ∃ x,
      a = .keyword .SELECT :: .identifier ['t'] :: x ∧
        (x = [] ∧ k = .FROM ∧ b = [.keyword .FROM, .identifier ['t'], .keyword .WHERE,
            .identifier ['t'], .dot, .keyword .SELECT, .operator ['='], .number ['1'],
            .keyword .ORDER_BY, .identifier ['t'], .dot, .keyword .OR] ∨
          ∃ y, x = .dot :: .keyword .FROM :: .keyword .FROM :: .identifier ['t'] ::
              .keyword .WHERE :: .identifier ['t'] :: y ∧
            (y = [] ∧ k = .SELECT ∧ b = [.operator ['='], .number ['1'], .keyword .ORDER_BY,
                .identifier ['t'], .dot, .keyword .OR] ∨
              y = [.dot, .keyword .SELECT, .operator ['='], .number ['1'], .keyword .ORDER_BY,
                .identifier ['t']] ∧ k = .OR ∧ b = [])) := by
    simpa [solid, Token.isGap, List.cons_eq_append_iff] using hsplit
  · exact hunheard (by decide +kernel) (by decide) fun _ _ => by simp
  · exact hunheard (by decide +kernel) (by decide) fun _ _ => by simp
  · refine hunheard (by decide +kernel) (by decide) fun d hwithin => ?_
    -- the condition is over behind `ORDER BY`
    have hover : ¬Span.condition.Within d ([.dot, .identifier ['t']] ++ .keyword .ORDER_BY ::
        [.number ['1'], .operator ['='], .identifier "select".toList, .dot, .identifier ['t'],
          .keyword .WHERE, .identifier ['t'], .keyword .FROM, .identifier "from".toList, .dot,
          .identifier ['t'], .keyword .SELECT]) :=
      Span.not_within (by decide) (by simp [Span.condition]) rfl
    exact absurd hwithin hover

end SqlLayout
