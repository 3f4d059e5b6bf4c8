import SqlLayout.Proofs.Spacing
import SqlLayout.Proofs.Tally

/-! What becomes of the text outside quotations. Lines are cleared, trimmed and joined by the blanks
of Unicode, and a name may hold such blanks: of a name only those at its ends are lost.
-/

set_option autoImplicit false

namespace SqlLayout

open Scan

def Token.unquoted? : Token → Option Text
  | .identifier t | .operator t => some t
  | _ => none

theorem Token.unquoted?_eq {t : Token} {x : Text} (h : t.unquoted? = some x) :
    t = .identifier x ∨ t = .operator x := by
  cases t <;> simp_all [Token.unquoted?]

def unquoted (ts : List Token) : List Text := ts.filterMap Token.unquoted?

/-- The parts stand in the text, in order and apart from each other. -/
inductive InOrder : List Text → Text → Prop where
  | nil {x : Text} : InOrder [] x
  | cons {t g x : Text} {ts : List Text} (h : InOrder ts x) : InOrder (t :: ts) (g ++ t ++ x)

namespace InOrder

variable {t x : Text} {ts : List Text}

theorem behind (h : InOrder ts x) (g : Text) : InOrder ts (g ++ x) := by
  cases h with
  | nil => exact .nil
  | @cons t k x ts h => simpa using InOrder.cons (g := g ++ k) (t := t) h

theorem infix_of_mem (h : InOrder ts x) (ht : t ∈ ts) : t <:+: x := by
  induction h with
  | nil => simp at ht
  | @cons u g x ts _ ih =>
    rcases List.mem_cons.1 ht with rfl | ht
    · exact ⟨g, x, rfl⟩
    · exact (ih ht).trans (List.suffix_append _ _).isInfix

end InOrder

namespace Arrange

def NestedWhole (nested : Nested) : Prop :=
  ∀ {p : Place} {ts : List Token} {body : List Item}, p.isOpen = false → .keyword .CASE ∉ ts →
    nested p ts = .ok body → Item.allTokens body = ts

variable {nested : Nested}

theorem NestedWhole.inset (hn : NestedWhole nested) {p : Place} {ts : List Token}
    (hp : p.isOpen = false) (hc : .keyword .CASE ∉ ts) (flat : Bool) (indent : Nat) :
    Item.allTokens (inset nested flat p indent ts) = ts :=
  allTokens_inset fun _ => hn hp hc

theorem NestedWhole.query (hn : NestedWhole nested) {ts : List Token} (hc : .keyword .CASE ∉ ts)
    (indent : Nat) : Item.allTokens (query nested indent ts) = ts := by
  unfold Arrange.query
  split
  · rename_i body hb
    simpa [Item.allTokens, Item.tokens] using hn (p := .statement) rfl hc hb
  · simp

theorem NestedWhole.definition (hn : NestedWhole nested) {ts : List Token}
    (hc : .keyword .CASE ∉ ts) : Item.allTokens (definition nested ts) = ts := by
  cases ts with
  | nil => rfl
  | cons name rest =>
    have hrest : .keyword .CASE ∉ rest := fun h => hc (List.mem_cons_of_mem _ h)
    simp only [Arrange.definition]
    split
    · rename_i body hb
      simpa [Item.allTokens, Item.tokens] using hn (p := .inline) rfl hrest hb
    · simp [Item.allTokens, Item.tokens]

theorem partTokens_map {f : List Token → List Item} {parts : List (List Token)}
    (h : ∀ part ∈ parts, Item.allTokens (f part) = part) :
    Item.partTokens (parts.map f) = [Token.comma].intercalate parts := by
  induction parts with
  | nil => rfl
  | cons part parts ih =>
    have hp := h part (by simp)
    have hrest := ih fun q hq => h q (by simp [hq])
    cases parts with
    | nil => simpa [Item.partTokens] using hp
    | cons next parts =>
      rw [List.map_cons, List.map_cons, Item.partTokens, ← List.map_cons, hp, hrest,
        List.intercalate_cons_cons]
      · simp
      · simp

theorem NestedWhole.bracket (hn : NestedWhole nested) {ts : List Token} (hc : .keyword .CASE ∉ ts)
    (b : Bracket) (indent : Nat) (before : List Token) :
    Item.allTokens (bracket nested b indent before ts) = .openParen :: ts ++ [.closeParen] := by
  have hpart : ∀ part ∈ splitCommas ts, .keyword .CASE ∉ part := fun part h hm =>
    hc ((infix_of_mem_splitCommas h).subset hm)
  have hform := form_bracket nested b indent before ts
  generalize Arrange.bracket nested b indent before ts = items at hform ⊢
  cases hform with
  | query => simp [Item.allTokens, Item.tokens, opening, closing, hn.query hc]
  | elements =>
    have hparts := partTokens_map fun part h =>
      hn.inset (p := .inline) rfl (hpart part h) false indent
    rw [intercalate_splitCommas] at hparts
    simp [Item.allTokens, Item.tokens, opening, closing, hparts]
  | «inline» => simp [Item.allTokens, Item.tokens, opening, closing, hn.inset (p := .inline) rfl hc]
  | pairs => simp [Item.allTokens, Item.tokens, opening, closing, hn.inset (p := .pairs 0) rfl hc]
  | empty he =>
    subst he
    rfl
  | lines => simp [Item.allTokens, Item.tokens, opening, closing, hn.inset (p := .block) rfl hc]
  | definitions =>
    have hparts := partTokens_map fun part h => hn.definition (hpart part h)
    rw [intercalate_splitCommas] at hparts
    simp [Item.allTokens, Item.tokens, hparts]

theorem Arranged.whole (hn : NestedWhole nested) {p : Place} {before ts : List Token}
    {items : List Item} (h : Arranged nested p before ts items) (hp : p.isOpen = false)
    (hc : .keyword .CASE ∉ ts) : Item.allTokens items = ts := by
  induction h with
  | done => rfl
  | @token p next before rest t items more hr _ ih =>
    have hrest := ih ((hr.isOpen_next rfl).trans hp) fun h => hc (List.mem_cons_of_mem _ h)
    have hwritten : Item.allTokens items = [t] := by
      rw [← Item.map_allMarked false, allMarked_written hr]
      rfl
    simp [hrest, hwritten]
  | @bracket p next before rest inner after b more hr hg _ ih =>
    obtain rfl := group_eq_append hg
    have hrest := ih ((hr.isOpen_next rfl).trans hp) fun h => hc (by simp [h])
    have hinner : .keyword .CASE ∉ inner := fun h => hc (by simp [h])
    simp [hrest, hn.bracket hinner]
  | looseCase => simp at hc
  | caseEnd => simp at hc
  | finish => simp [Place.isOpen] at hp

end Arrange

open Arrange in
theorem nestedWhole_arrange (limit room : Nat) : NestedWhole (arrange limit room) := by
  apply arrange_induction (motive := NestedWhole)
  case deep => exact fun _ _ h => by cases h
  case run =>
    intro nested hn p ts body hp hc hb
    refine (arranged_of_run (fun h => ?_) hb).whole hn hp hc
    subst h
    simp [Place.isOpen] at hp

theorem inOrder_of_line {o : Options} (ho : o.functions = []) {prev : Option Token}
    {ms : List (Bool × Token)} {cs : List Cell} {x : Text} (h : Line .loose prev (inked cs) x)
    (hr : List.Forall₂ (Rendered o) ms cs) :
    InOrder ((unquoted (ms.map Prod.snd)).map Text.trim) x := by
  induction hr generalizing prev x with
  | nil => exact .nil
  | @cons m c ms cs hm _ ih =>
    obtain ⟨-, p, hp⟩ := hm
    have hself : ∀ t, m.2.unquoted? = some t → c.2 = t := by
      intro t ht
      rw [hp]
      rcases Token.unquoted?_eq ht with hk | hk <;> simp [hk, Token.render, Options.isFunction, ho]
    cases hu : m.2.unquoted? with
    | none =>
      have hlist : unquoted ((m :: ms).map Prod.snd) = unquoted (ms.map Prod.snd) := by
        simp [unquoted, hu]
      rw [hlist]
      by_cases hb : Text.isBlankText c.2 = true
      · rw [show inked (c :: cs) = inked cs by simp [inked, hb]] at h
        exact ih h
      · rw [show inked (c :: cs) = (c.1, Text.trim c.2) :: inked cs by simp [inked, hb]] at h
        cases h with
        | cell _ _ h => exact (ih h).behind _
    | some t =>
      obtain rfl := hself t hu
      have hlist : unquoted ((m :: ms).map Prod.snd) = c.2 :: unquoted (ms.map Prod.snd) := by
        simp [unquoted, hu]
      rw [hlist, List.map_cons]
      by_cases hb : Text.isBlankText c.2 = true
      · rw [show inked (c :: cs) = inked cs by simp [inked, hb]] at h
        rw [Text.trim_of_blank hb]
        exact .cons (g := []) (ih h)
      · rw [show inked (c :: cs) = (c.1, Text.trim c.2) :: inked cs by simp [inked, hb]] at h
        cases h with
        | cell _ _ h => exact .cons (ih h)

/-- A statement with no `CASE`, no client command, laid out where no functions are known. -/
structure LaidOut (o : Options) (sql out : String) : Prop where
  functions : o.functions = []
  statement : isCommand (solid (tokenize sql.toList)) = false
  branchless : .keyword .CASE ∉ tokenize sql.toList
  text : tryFormat o sql = .ok out

theorem unquoted_solid (ts : List Token) : unquoted (solid ts) = unquoted ts := by
  rw [unquoted, solid, List.filterMap_filter, unquoted]
  refine List.filterMap_congr fun t _ => ?_
  cases t <;> rfl

theorem LaidOut.inOrder {o : Options} {sql out : String} (h : LaidOut o sql out) :
    InOrder ((unquoted (tokenize sql.toList)).map Text.trim) out.toList := by
  rw [← unquoted_solid]
  rcases formatTokens_ok (tryFormat_ok h.text) h.statement with
    ⟨hnil, -⟩ | ⟨-, -, -, items, hitems, hout⟩
  · rw [hnil]
    exact .nil
  · obtain ⟨-, cs, hr, hline⟩ := line_layout (o := o) hitems
    have hcase : .keyword .CASE ∉ solid (tokenize sql.toList) := fun hm =>
      h.branchless (List.mem_filter.1 hm).1
    have hwhole := nestedWhole_arrange _ _ (p := .statement) rfl hcase hitems
    have := inOrder_of_line h.functions hline hr
    rwa [Item.map_allMarked, hwhole, ← hout] at this

theorem shape_unquoted {y x : Text} {t : Token} (hm : t ∈ tokenize y) (ht : t.unquoted? = some x) :
    Shape t := by
  fun_induction tokenize y with
  | case1 => simp at hm
  | case2 c cs _ ih =>
    rcases List.mem_cons.1 hm with rfl | hm
    · refine shape_next c cs ?_ ?_
      · cases hn : (next c cs).1 <;> simp_all [Token.unquoted?, Token.isGap]
      · cases hn : (next c cs).1 <;> simp_all [Token.unquoted?, Token.Closed]
    · exact ih hm

theorem tokenize_append_unquoted {x rest : Text} {t : Token} (h : Shape t)
    (ht : t.unquoted? = some x) (hs : Stops t rest) :
    tokenize (x ++ rest) = t :: tokenize rest := by
  rcases Token.unquoted?_eq ht with rfl | rfl <;> exact (h.reads hs rfl (by simp)).tokenize

theorem tokenize_unquoted {x : Text} {t : Token} (h : Shape t) (ht : t.unquoted? = some x) :
    tokenize x = [t] := by
  have hreads : Stops t [] → tokenize x = [t] := fun hs => by
    simpa [tokenize] using tokenize_append_unquoted h ht hs
  cases h with
  | word | bound | parameter => exact hreads ⟨rfl, by simp⟩
  | operator h => exact hreads ⟨_, _, rfl, by simpa using h⟩
  | _ => simp [Token.unquoted?] at ht

/-- The one operator with a blank at an end is a single blank. -/
theorem operator_blank {c : Char} {w : Text} (h : next c w = (.operator (c :: w), []))
    (hs : ¬Text.Solid (c :: w)) : c = '\x0b' ∧ w = [] := by
  have hlong : ∀ o ∈ longOperators, Text.Solid o := by decide
  obtain rfl : w = [] := (operator_eq h).resolve_right fun hm => hs (hlong _ hm)
  refine ⟨?_, rfl⟩
  have hblank : Text.isBlank c = true := by
    by_contra hn
    exact hs (by simp [Text.Solid, hn])
  have hgap : Text.isGap c = false := by
    by_contra hn
    rw [Bool.not_eq_false] at hn
    simp [next, hn] at h
  have hstart : isWordStart c = false := by
    by_contra hn
    rw [next_word (by simpa using hn), word] at h
    simp [Reader.run, ofWord?_singleton] at h
  rw [← Bool.not_eq_true, isWordStart_iff] at hstart
  simp only [Text.isBlank, Text.isGap, Bool.or_eq_true, Bool.and_eq_true, Bool.or_eq_false_iff,
    beq_iff_eq, beq_eq_false_iff_ne, decide_eq_true_eq, ne_eq, ← Char.toNat_inj,
    Char.reduceToNat] at hblank hgap ⊢
  omega

theorem next_verticalTab (z : Text) : next '\x0b' (',' :: z) = (.operator ['\x0b'], ',' :: z) := by
  have hnone : longOperators.find? (fun o => o.isPrefixOf ('\x0b' :: ',' :: z)) = none := by
    simp [longOperators_eq, List.isPrefixOf]
  have hop : operator '\x0b' (',' :: z) = (.operator ['\x0b'], ',' :: z) := by
    rw [operator, hnone]
  rw [← hop]
  rfl

/-- A name or an operator with a blank at an end is read also in front of a comma, and the blank is
none of those that part tokens. -/
theorem shape_blank {x : Text} {t : Token} (h : Shape t) (ht : t.unquoted? = some x)
    (hs : ¬Text.Solid x) (z : Text) :
    tokenize (x ++ ',' :: z) = t :: .comma :: tokenize z ∧ ∀ c ∈ x, Text.isGap c = false := by
  have hcomma : tokenize (',' :: z) = .comma :: tokenize z := by rw [tokenize_cons]; rfl
  have hreads : Stops t (',' :: z) → tokenize (x ++ ',' :: z) = t :: .comma :: tokenize z :=
    fun hstops => by rw [tokenize_append_unquoted h ht hstops, hcomma]
  have hstart : ∀ {c : Char}, isWordStart c = true → Text.isGap c = false := fun hc =>
    isGap_of_isWordChar ((isWordChar_iff _).2 (.inr (.inr hc)))
  cases h with
  | word hc hw =>
    obtain rfl : _ = x := by simpa [Token.unquoted?] using ht
    refine ⟨hreads ⟨rfl, by simp⟩, fun d hd => ?_⟩
    rcases List.mem_cons.1 hd with rfl | hd
    · exact hstart hc
    · exact isGap_of_isWordChar (hw d hd)
  | bound hc hw =>
    obtain rfl : _ = x := by simpa [Token.unquoted?] using ht
    refine ⟨hreads ⟨rfl, by simp⟩, fun d hd => ?_⟩
    rcases List.mem_cons.1 hd with rfl | hd
    · rfl
    rcases List.mem_cons.1 hd with rfl | hd
    · exact hstart hc
    · exact isGap_of_isWordChar (hw d hd)
  | parameter _ hw =>
    obtain rfl : _ = x := by simpa [Token.unquoted?] using ht
    refine ⟨hreads ⟨rfl, by simp⟩, fun d hd => ?_⟩
    rcases List.mem_cons.1 hd with rfl | hd
    · rfl
    · exact isGap_of_isWordChar (hw d hd)
  | @operator c w h =>
    obtain rfl : _ = x := by simpa [Token.unquoted?] using ht
    obtain ⟨rfl, rfl⟩ := operator_blank h hs
    exact ⟨hreads ⟨'\x0b', [], rfl, next_verticalTab z⟩, by simp [Text.isGap]⟩
  | _ => simp [Token.unquoted?] at ht

def columnTokens (t : Token) : List Token :=
  [.keyword .CREATE, .keyword .TABLE, .openParen, t, .comma, .number ['0'], .closeParen]

def columnSource (x : Text) : String :=
  String.ofList ("create table (".toList ++ (x ++ [',', '0', ')']))

def columnLayout (name : Text) : Text :=
  "CREATE TABLE\n(\n  ".toList ++ name ++ [',', '\n', ' ', ' ', '0', '\n', ')']

theorem tokenize_createTable (y : Text) : tokenize ("create table (".toList ++ y) =
    .keyword .CREATE :: .gap [' '] :: .keyword .TABLE :: .gap [' '] :: .openParen ::
      tokenize y := by
  have hcreate : next 'c' ("reate table (".toList ++ y) =
    (.keyword .CREATE, " table (".toList ++ y) := rfl
  have hgap : next ' ' ("table (".toList ++ y) = (.gap [' '], "table (".toList ++ y) := rfl
  have htable : next 't' ("able (".toList ++ y) = (.keyword .TABLE, " (".toList ++ y) := rfl
  have hgap' : next ' ' ("(".toList ++ y) = (.gap [' '], "(".toList ++ y) := rfl
  have hopen : next '(' y = (.openParen, y) := rfl
  change tokenize ('c' :: ("reate table (".toList ++ y)) = _
  rw [tokenize_cons, hcreate]
  change _ :: tokenize (' ' :: ("table (".toList ++ y)) = _
  rw [tokenize_cons, hgap]
  change _ :: _ :: tokenize ('t' :: ("able (".toList ++ y)) = _
  rw [tokenize_cons, htable]
  change _ :: _ :: _ :: tokenize (' ' :: ("(".toList ++ y)) = _
  rw [tokenize_cons, hgap']
  change _ :: _ :: _ :: _ :: tokenize ('(' :: y) = _
  rw [tokenize_cons, hopen]

section Column

variable {x : Text} {t : Token}

theorem arrange_column (limit room : Nat) (ht : t.unquoted? = some x) :
    arrange limit (room + 1) .statement (columnTokens t) =
      .ok [.word (.keyword .CREATE), .word (.keyword .TABLE),
        .definitions [[.word t], [.word (.number ['0'])]]] := by
  have hcreate : Place.statement.action [] (.keyword .CREATE) [.keyword .TABLE, .openParen,
      t, .comma, .number ['0'], .closeParen] = .write [.word (.keyword .CREATE)] .create := rfl
  have htable : Place.create.action [.keyword .CREATE] (.keyword .TABLE) [.openParen, t, .comma,
      .number ['0'], .closeParen] = .write [.word (.keyword .TABLE)] .createObject := rfl
  have hopen : Place.createObject.action [.keyword .TABLE, .keyword .CREATE] .openParen
      [t, .comma, .number ['0'], .closeParen] = .openBracket .columns .statement := rfl
  have hgroup : group 0 [t, .comma, .number ['0'], .closeParen] =
      .ok ([t, .comma, .number ['0']], []) := by
    rcases Token.unquoted?_eq ht with rfl | rfl <;> rfl
  have hsplit : splitCommas [t, .comma, .number ['0']] = [[t], [.number ['0']]] := by
    rcases Token.unquoted?_eq ht with rfl | rfl <;> rfl
  have hplain : [t, .comma, .number ['0']].any Token.isComment = false := by
    rcases Token.unquoted?_eq ht with rfl | rfl <;> rfl
  have hnil : arrange limit room .inline [] = .ok [] := by
    cases room <;> simp [arrange, Arrange.run, Arrange.atEnd, Place.isOpen]
  have hbracket : Arrange.bracket (arrange limit room) .columns 0
      [.keyword .TABLE, .keyword .CREATE] [t, .comma, .number ['0']] =
        [.definitions [[.word t], [.word (.number ['0'])]]] := by
    simp only [Arrange.bracket, hsplit, hplain]
    simp [Arrange.definition, hnil]
  rw [arrange, columnTokens, Arrange.run_write hcreate, Arrange.run_write htable,
    Arrange.run_openBracket hopen hgroup, Arrange.run]
  simp [hbracket, Arrange.atEnd, Place.isOpen, Except.map, Place.indent]

theorem text_column (ht : t.unquoted? = some x) :
    (writeAll {} false [.word (.keyword .CREATE), .word (.keyword .TABLE),
      .definitions [[.word t], [.word (.number ['0'])]]] .blank).text =
      columnLayout (Text.trim (Text.trimEnd x)) := by
  unfold columnLayout
  have hrender : t.render {} false none = x := by
    rcases Token.unquoted?_eq ht with rfl | rfl <;> simp [Token.render, Options.isFunction]
  have hpage : (Draft.blank.word {} false t).page = ⟨[], x.reverse, Text.ink x⟩ := by
    simp [Draft.word, Draft.blank, Draft.spaceBefore, needsSpace, Page.push, Page.blank, hrender]
  have hlines : (Draft.blank.word {} false t).lines = [Text.trimEnd x] := by
    rw [Draft.lines, show (Draft.blank.word {} false t).last = some t from rfl]
    rcases Token.unquoted?_eq ht with rfl | rfl <;>
      simp [Page.trimmedLines, hpage, Page.dropBlank]
  have hname : collapse (Draft.blank.word {} false t).lines = Text.trim (Text.trimEnd x) := by
    rw [hlines]
    cases hx : Text.trim (Text.trimEnd x) <;> simp [collapse, hx, Text.join]
  have hzero : collapse (Draft.blank.word {} false (.number ['0'])).lines = ['0'] := by
    decide +kernel
  have hblank : collapse Draft.blank.lines = [] := by decide +kernel
  have hopened : (((Draft.blank.word {} false (.keyword .CREATE)).word {} false
      (.keyword .TABLE)).startLine 0).word {} false .openParen =
      ⟨⟨["CREATE TABLE".toList], ['('], 12⟩, some (.keyword .CREATE), some .openParen, false⟩ := by
    decide +kernel
  simp only [writeAll, Item.write, readDefinitions, hname]
  generalize Text.trim (Text.trimEnd x) = name
  have halign : Definition.align [⟨name, []⟩, ⟨['0'], []⟩] 2 =
      [[' ', ' '] ++ name ++ [','], [' ', ' ', '0']] := by
    simp [Definition.align, Definition.withCommas, Definition.line, Text.spaces]
  rw [hopened, hzero, hblank, halign]
  simp [Draft.word, Draft.spaceBefore, Draft.startLine, Draft.text,
    Page.pushBelow, Page.newline, Page.indent, Page.push, Page.startLine, Page.atLineStart,
    Page.text, Page.lines, Text.spaces, Text.isBlankText, Text.isBlank, Text.join, Text.trimEnd,
    Text.dropEndWhile, Token.render, needsSpace, Token.spaced]

theorem formatTokens_column {tokens : List Token} {source : Text} (ht : t.unquoted? = some x)
    (hs : solid tokens = columnTokens t) :
    formatTokens {} tokens source = .ok (columnLayout (Text.trim (Text.trimEnd x))) := by
  have hquotes : checkQuotes (columnTokens t) = .ok () := by
    rcases Token.unquoted?_eq ht with rfl | rfl <;> rfl
  have hbalance : checkBalance 0 (columnTokens t) = .ok () := by
    rcases Token.unquoted?_eq ht with rfl | rfl <;> rfl
  rw [formatTokens_statement (by rw [hs]; rfl), hs, hquotes, hbalance,
    show ({} : Options).nestingLimit = 63 + 1 from rfl, arrange_column _ _ ht, ← text_column ht]
  rfl

end Column

namespace Text

theorem trim_sublist (t : Text) : (trim t).Sublist t :=
  (Text.dropEndWhile_prefix _ _).sublist.trans (List.dropWhile_suffix _).sublist

theorem count_trim_lt {t : Text} (hne : t ≠ []) (hs : ¬Solid t) :
    ∃ b ∈ t, isBlank b = true ∧ (trim (trimEnd t)).count b < t.count b := by
  by_cases hlast : t.getLast?.any (!isBlank ·) = true
  · obtain ⟨b, a, rfl⟩ := List.exists_cons_of_ne_nil hne
    have hb : isBlank b = true := by
      by_contra hn
      exact hs ⟨by simpa using hn, hlast⟩
    refine ⟨b, by simp, hb, ?_⟩
    have hpre : trimEnd (b :: a) <+: b :: a := dropEndWhile_prefix _ _
    rcases hd : trimEnd (b :: a) with _ | ⟨c, u⟩
    · simp [trim, trimEnd, dropEndWhile]
    · rw [hd] at hpre
      obtain ⟨rfl, hrest⟩ := List.cons_prefix_cons.1 hpre
      have hsub : (trim (c :: u)).Sublist a := by
        have hdrop : trim (c :: u) = trim u := by simp [trim, hb]
        rw [hdrop]
        exact (trim_sublist u).trans hrest.sublist
      have := hsub.count_le c
      simp only [List.count_cons_self]
      omega
  · obtain ⟨a, b, rfl⟩ : ∃ a b, t = a ++ [b] := by
      rcases List.eq_nil_or_concat t with rfl | ⟨a, b, rfl⟩
      · exact absurd rfl hne
      · exact ⟨a, b, by simp⟩
    have hb : isBlank b = true := by simpa using hlast
    refine ⟨b, by simp, hb, ?_⟩
    have hsub : (trim (trimEnd (a ++ [b]))).Sublist a := by
      have hend : trimEnd (a ++ [b]) = trimEnd a := by simp [trimEnd, dropEndWhile, hb]
      rw [hend]
      exact (trim_sublist _).trans (Text.dropEndWhile_prefix _ _).sublist
    have := hsub.count_le b
    simp only [List.count_append, List.count_singleton_self]
    omega

end Text

theorem lost_column {x : Text} {t : Token} (h : Shape t) (ht : t.unquoted? = some x)
    (hs : ¬Text.Solid x) : ∃ out, LaidOut {} (columnSource x) out ∧
      unquoted (tokenize (columnSource x).toList) = [x] ∧ ¬InOrder [x] out.toList := by
  obtain ⟨hread, hgap⟩ := shape_blank h ht hs ['0', ')']
  have htokens : tokenize (columnSource x).toList = [.keyword .CREATE, .gap [' '],
      .keyword .TABLE, .gap [' '], .openParen, t, .comma, .number ['0'], .closeParen] := by
    have hzero : tokenize ['0', ')'] = [.number ['0'], .closeParen] := by decide +kernel
    unfold columnSource
    rw [String.toList_ofList, tokenize_createTable, hread, hzero]
  have hsolid : solid (tokenize (columnSource x).toList) = columnTokens t := by
    rw [htokens]
    rcases Token.unquoted?_eq ht with rfl | rfl <;> rfl
  have hcase : t ≠ .keyword .CASE := by
    rintro rfl
    simp [Token.unquoted?] at ht
  refine ⟨String.ofList (columnLayout (Text.trim (Text.trimEnd x))), ⟨rfl, ?_, ?_, ?_⟩, ?_,
    fun hin => ?_⟩
  · rw [hsolid]
    rfl
  · rw [htokens]
    simpa using hcase.symm
  · rw [tryFormat, formatTokens_column ht hsolid]
  · rw [htokens]
    rcases Token.unquoted?_eq ht with rfl | rfl <;> rfl
  · have hne : x ≠ [] := by
      rintro rfl
      cases h <;> simp [Token.unquoted?] at ht
    obtain ⟨b, hb, hblank, hlt⟩ := Text.count_trim_lt hne hs
    -- the layout brings no blank of this kind with it
    have hfixed : ("CREATE TABLE\n(\n  ".toList ++ [',', '\n', ' ', ' ', '0', '\n', ')']).all
        (fun c => !Text.isBlank c || Text.isGap c) = true := by decide +kernel
    have hzero := List.count_eq_zero.2 fun hm => by
      have := List.all_eq_true.1 hfixed b hm
      simp [hblank, hgap b hb] at this
    have hcount := (hin.infix_of_mem (List.mem_singleton_self x)).sublist.count_le b
    unfold columnLayout at hcount
    rw [String.toList_ofList] at hcount
    simp only [List.count_append] at hcount hzero
    omega

/-- Of names and operators housekeeping takes nothing away but blanks at their ends, and there it
does: exactly those that neither begin nor end with a blank are always kept as they are. -/
theorem unquoted_kept_iff (p : Text → Prop) :
    (∀ (o : Options) (sql out : String), LaidOut o sql out →
      InOrder ((unquoted (tokenize sql.toList)).map Text.trim) out.toList) ∧
    ((∀ (o : Options) (sql out : String), LaidOut o sql out →
        (∀ x ∈ unquoted (tokenize sql.toList), p x) →
          InOrder (unquoted (tokenize sql.toList)) out.toList) ↔
      ∀ x, p x → unquoted (tokenize x) = [x] → Text.Solid x) := by
  refine ⟨fun o sql out h => h.inOrder, fun h x hp hx => ?_, fun h o sql out hl hp => ?_⟩
  · by_contra hs
    obtain ⟨t, hm, ht⟩ : ∃ t ∈ tokenize x, t.unquoted? = some x :=
      List.mem_filterMap.1 (by rw [← unquoted, hx]; simp)
    obtain ⟨out, hl, hread, hlost⟩ := lost_column (shape_unquoted hm ht) ht hs
    refine hlost (hread ▸ h _ _ _ hl fun y hy => ?_)
    rw [hread] at hy
    obtain rfl := List.mem_singleton.1 hy
    exact hp
  · have hsolid : ∀ x ∈ unquoted (tokenize sql.toList), Text.trim x = x := by
      intro x hx
      obtain ⟨t, hm, ht⟩ := List.mem_filterMap.1 hx
      have hagain := tokenize_unquoted (shape_unquoted hm ht) ht
      exact (h x (hp x hx) (by simp [hagain, unquoted, ht])).trim
    have := hl.inOrder
    rwa [List.map_congr_left hsolid, List.map_id'] at this

/-- A name that is a single blank is lost at the end of its line. -/
theorem unquoted_kept_blank : LaidOut {} "select a,\u00a0 from t" "SELECT a,\nFROM t" ∧
    InOrder [['a'], [], ['t']] "SELECT a,\nFROM t".toList ∧
    ¬InOrder [['a'], ['\u00a0'], ['t']] "SELECT a,\nFROM t".toList := by
  have hl : LaidOut {} "select a,\u00a0 from t" "SELECT a,\nFROM t" :=
    ⟨rfl, by decide +kernel, by decide +kernel, by decide +kernel⟩
  have hread : (unquoted (tokenize "select a,\u00a0 from t".toList)).map Text.trim =
      [['a'], [], ['t']] := by decide +kernel
  refine ⟨hl, hread ▸ (unquoted_kept_iff Text.Solid).1 _ _ _ hl, fun hin => ?_⟩
  have hmem := (hin.infix_of_mem (t := ['\u00a0']) (by simp)).subset (List.mem_singleton_self _)
  revert hmem
  decide +kernel

end SqlLayout
