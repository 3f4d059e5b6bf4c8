import SqlLayout.Proofs.Failing

/-! Two layouts of the same items, side by side. What every step of the writing keeps between them is
kept between the whole pages, so that comparing two settings comes down to comparing their steps.
-/

set_option autoImplicit false

namespace SqlLayout

inductive Headed : List Item → Prop where
  | keyword {k : Keyword} {rest : List Item} : Headed (.word (.keyword k) :: rest)
  | comment {t : Text} {rest : List Item} : Headed (.word (.blockComment t) :: rest)
  | remark {t : Text} {n : Nat} {rest : List Item} : Headed (.remark t n :: rest)
  | startLine {rest : List Item} (h : Headed rest) : Headed (.startLine 0 :: rest)

theorem Headed.append {items : List Item} (h : Headed items) (more : List Item) :
    Headed (items ++ more) := by
  induction h with
  | keyword => exact .keyword
  | comment => exact .comment
  | remark => exact .remark
  | startLine _ ih => exact .startLine ih

namespace Item

mutual

def Led : Item → Prop
  | .word _ | .remark _ _ | .newline | .startLine _ => True
  | .inset _ body => AllLed body
  | .query body => Headed body ∧ AllLed body
  | .elements parts | .definitions parts => PartsLed parts

def AllLed : List Item → Prop
  | [] => True
  | i :: rest => i.Led ∧ AllLed rest

def PartsLed : List (List Item) → Prop
  | [] => True
  | part :: rest => AllLed part ∧ PartsLed rest

end

theorem allLed_append {a b : List Item} : AllLed (a ++ b) ↔ AllLed a ∧ AllLed b := by
  induction a with
  | nil => simp [AllLed]
  | cons i a ih => simp [AllLed, ih, and_assoc]

theorem allLed_echo (indent : Nat) (ts : List Token) : AllLed (echo indent ts) := by
  induction ts with
  | nil => trivial
  | cons t ts ih => cases t <;> exact ⟨trivial, ih⟩

theorem allLed_breaks {items : List Item} (h : ∀ i ∈ items, i.isBreak = true) : AllLed items := by
  induction items with
  | nil => trivial
  | cons i items ih =>
    have hi := h i (by simp)
    refine ⟨?_, ih fun j hj => h j (by simp [hj])⟩
    cases i <;> simp_all [isBreak, Led]

theorem partsLed_map {f : List Token → List Item} (h : ∀ part, AllLed (f part))
    (parts : List (List Token)) : PartsLed (parts.map f) := by
  induction parts with
  | nil => trivial
  | cons part parts ih => exact ⟨h part, ih⟩

end Item

namespace Arrange

open Item

def NestedLed (nested : Nested) : Prop :=
  ∀ {p : Place} {ts : List Token} {body : List Item}, Starts p [] ts → nested p ts = .ok body →
    AllLed body ∧ (p = .statement → startsQuery ts = true → Headed body)

variable {nested : Nested}

theorem NestedLed.inset (hn : NestedLed nested) {p : Place} {ts : List Token}
    (hs : Starts p [] ts) (flat : Bool) (indent : Nat) :
    AllLed (inset nested flat p indent ts) := by
  unfold Arrange.inset
  split
  · rename_i body hb
    exact ⟨(hn hs hb).1, trivial⟩
  · exact allLed_echo indent ts

theorem NestedLed.query (hn : NestedLed nested) {ts : List Token} (hq : startsQuery ts = true)
    (indent : Nat) : AllLed (query nested indent ts) := by
  unfold Arrange.query
  split
  · rename_i body hb
    obtain ⟨hled, hhead⟩ := hn (by simp [Starts]) hb
    exact ⟨⟨hhead rfl hq, hled⟩, trivial⟩
  · exact allLed_echo indent ts

theorem NestedLed.definition (hn : NestedLed nested) (ts : List Token) :
    AllLed (definition nested ts) := by
  cases ts with
  | nil => trivial
  | cons name rest =>
    refine ⟨trivial, ?_⟩
    split
    · rename_i body hb
      exact (hn (by simp [Starts]) hb).1
    · exact allLed_echo 0 rest

theorem NestedLed.bracket (hn : NestedLed nested) (b : Bracket) (indent : Nat)
    (before ts : List Token) : AllLed (bracket nested b indent before ts) := by
  have hround : ∀ {l : List Item}, AllLed l → AllLed (opening :: l ++ [closing]) :=
    fun h => ⟨trivial, allLed_append.2 ⟨h, trivial, trivial⟩⟩
  have hinline : ∀ part, AllLed (Arrange.inset nested false .inline indent part) :=
    fun part => hn.inset (by simp [Starts]) false indent
  have hform := form_bracket nested b indent before ts
  generalize Arrange.bracket nested b indent before ts = items at hform ⊢
  cases hform with
  | query hq => exact hround (hn.query hq indent)
  | elements => exact hround (l := [_]) ⟨partsLed_map hinline _, trivial⟩
  | «inline» => exact hround (hinline ts)
  | pairs => exact hround (hn.inset (p := .pairs 0) (by simp [Starts]) true indent)
  | empty => exact hround (l := []) trivial
  | lines =>
    have hbody : AllLed (Arrange.inset nested false .block indent ts) :=
      hn.inset (by simp [Starts]) false indent
    exact ⟨trivial, trivial, trivial, allLed_append.2 ⟨hbody, trivial, trivial, trivial⟩⟩
  | definitions => exact ⟨partsLed_map hn.definition _, trivial⟩

theorem Arranged.led (hn : NestedLed nested) {p : Place} {before ts : List Token}
    {items : List Item} (h : Arranged nested p before ts items) : AllLed items := by
  induction h with
  | done => trivial
  | token hr _ ih =>
    refine allLed_append.2 ⟨?_, ih⟩
    cases hr with
    | write hs hf =>
      refine allLed_append.2 ⟨allLed_append.2 ⟨?_, allLed_echo _ _⟩, allLed_breaks hf⟩
      rcases hs with rfl | rfl | ⟨-, n, rfl⟩
      · trivial
      · exact ⟨trivial, trivial⟩
      · exact ⟨trivial, trivial⟩
  | bracket _ _ _ ih => exact allLed_append.2 ⟨hn.bracket _ _ _ _, ih⟩
  | @looseCase p before rest => exact ⟨trivial, allLed_echo p.indent rest⟩
  | @caseEnd p next before rest inner after more _ _ _ ih =>
    exact allLed_append.2 ⟨hn.inset (fun _ => ⟨rfl, inner, rfl⟩) true p.indent, ih⟩
  | finish => exact ⟨trivial, trivial, trivial⟩

/-- The first token of a query is written first, and at the margin. -/
theorem Arranged.headed {before ts : List Token} {items : List Item}
    (h : Arranged nested .statement before ts items) (hq : startsQuery ts = true) :
    Headed items := by
  cases h with
  | done => simp [startsQuery] at hq
  | @token _ next _ rest t its more hr =>
    have hecho : ∀ n, Headed (Item.echo n [t]) := by
      intro n
      cases t with
      | keyword k => exact .keyword
      | blockComment t => exact .comment
      | lineComment t => exact .remark
      | _ => simp [startsQuery, Token.isComment] at hq
    cases hr with
    | @write s n f _ hs =>
      rcases hs with rfl | rfl | ⟨hp, -⟩
      · simpa using (hecho n).append (f ++ more)
      · simpa using Headed.startLine ((hecho n).append (f ++ more))
      · exact absurd rfl hp
  | bracket => simp [startsQuery, Token.isComment] at hq
  | looseCase => simp [startsQuery, Token.isComment] at hq
  | caseEnd => simp [startsQuery, Token.isComment] at hq

end Arrange

open Arrange in
theorem nestedLed_arrange (limit room : Nat) : NestedLed (arrange limit room) := by
  apply arrange_induction (motive := NestedLed)
  case deep => exact fun _ h => by cases h
  case run =>
    intro nested hn p ts body hs hb
    have ha := arranged_of_run hs hb
    refine ⟨ha.led hn, ?_⟩
    rintro rfl hq
    exact ha.headed hq

def Draft.define (o : Options) (flat : Bool) (defs : List Definition) (d : Draft) : Draft :=
  let opened := (d.startLine 0).word o flat .openParen
  (Draft.startLine 0 { opened with page := opened.page.pushBelow 0 (Definition.align defs 2) }).word
    o flat .closeParen

theorem write_definitions (o : Options) (flat : Bool) (parts : List (List Item)) (d : Draft) :
    (Item.definitions parts).write o flat d = d.define o flat (readDefinitions o flat parts) := by
  rw [Item.write]
  rfl

inductive Entries (R : List Token → Draft → Draft → Prop) :
    List (List Token) → List Definition → List Definition → Prop where
  | nil : Entries R [] [] []
  | cons {us vs : List Token} {a b i j : Draft} {tss : List (List Token)}
      {defs defs' : List Definition} (hname : R us a b) (hrest : R vs i j)
      (h : Entries R tss defs defs') :
      Entries R ((us ++ vs) :: tss) (⟨collapse a.lines, collapse i.lines⟩ :: defs)
        (⟨collapse b.lines, collapse j.lines⟩ :: defs')

theorem Entries.eq_of_collapse {R : List Token → Draft → Draft → Prop}
    {tss : List (List Token)} {defs defs' : List Definition} (h : Entries R tss defs defs')
    (hR : ∀ {ts : List Token} {d e : Draft}, R ts d e → collapse d.lines = collapse e.lines) :
    defs = defs' := by
  induction h with
  | nil => rfl
  | cons hname hrest _ ih => rw [hR hname, hR hrest, ih]

/-- A relation between two drafts of the same tokens that every step of the writing keeps, where the
one is written under `o` and the other under `o'`. -/
structure Follows (o o' : Options) (R : List Token → Draft → Draft → Prop) : Prop where
  blank : R [] .blank .blank
  word : ∀ {ts : List Token} {d e : Draft} (flat : Bool) {t : Token}, t.isRemark = false →
    R ts d e → R (ts ++ [t]) (d.word o flat t) (e.word o' flat t)
  remark : ∀ {ts : List Token} {d e : Draft} (flat : Bool) (t : Text) (n : Nat), R ts d e →
    R (ts ++ [.lineComment t]) (d.remark o flat t n) (e.remark o' flat t n)
  newline : ∀ {ts : List Token} {d e : Draft}, R ts d e → R ts d.newline e.newline
  startLine : ∀ {ts : List Token} {d e : Draft} (n : Nat), R ts d e →
    R ts (d.startLine n) (e.startLine n)
  /-- An element goes under the column where the first one started. -/
  wrap : ∀ {ts us : List Token} {d e a b : Draft} (flat : Bool), R us a b → R ts d e →
    R (ts ++ [.comma]) ((d.word o flat .comma).startLine a.page.column)
      ((e.word o' flat .comma).startLine b.page.column)
  setIn : ∀ {ts us : List Token} {d e i j : Draft}, R ts d e → R us i j →
    R (ts ++ us) (d.setIn i) (e.setIn j)
  query : ∀ {ts us : List Token} {d e : Draft} (flat : Bool) {body : List Item}, Headed body →
    R ts d e → R us (writeAll o flat body .blank) (writeAll o' flat body .blank) →
    R (ts ++ us) ((Item.query body).write o flat d) ((Item.query body).write o' flat e)
  define : ∀ {ts : List Token} {tss : List (List Token)} {d e : Draft}
    {defs defs' : List Definition} (flat : Bool), R ts d e → Entries R tss defs defs' →
    R (ts ++ (.openParen :: [Token.comma].intercalate tss ++ [.closeParen])) (d.define o flat defs)
      (e.define o' flat defs')

theorem Item.partTokens_eq (parts : List (List Item)) :
    partTokens parts = [Token.comma].intercalate (parts.map allTokens) := by
  induction parts with
  | nil => rfl
  | cons part parts ih => cases parts <;> simp_all [partTokens]

theorem Item.partTokens_cons (part : List Item) (parts : List (List Item)) :
    partTokens (part :: parts) =
      allTokens part ++ parts.flatMap fun q => .comma :: allTokens q := by
  induction parts generalizing part with
  | nil => simp [partTokens]
  | cons q parts ih => simp [partTokens, ih]

namespace Follows

variable {o o' : Options} {R : List Token → Draft → Draft → Prop}

def SameWrap (R : List Token → Draft → Draft → Prop) (w w' : Option Nat) : Prop :=
  w = none ∧ w' = none ∨
    ∃ us a b, R us a b ∧ w = some a.page.column ∧ w' = some b.page.column

open Item

mutual

theorem write (h : Follows o o' R) : ∀ (i : Item) (flat : Bool) {ts : List Token} {d e : Draft},
    i.Proper → i.Led → R ts d e → R (ts ++ i.tokens) (i.write o flat d) (i.write o' flat e)
  | .word t, flat, ts, d, e, hp, _, hd => by
    simpa [Item.write, Item.tokens] using h.word flat hp hd
  | .remark t n, flat, ts, d, e, _, _, hd => by
    simpa [Item.write, Item.tokens] using h.remark flat t n hd
  | .newline, _, _, _, _, _, _, hd => by simpa [Item.write, Item.tokens] using h.newline hd
  | .startLine n, _, _, _, _, _, _, hd => by
    simpa [Item.write, Item.tokens] using h.startLine n hd
  | .inset f body, flat, ts, d, e, hp, hl, hd => by
    have hbody := writeAll h body (flat || f) hp hl h.blank
    simpa [Item.write, Item.tokens] using h.setIn hd hbody
  | .query body, flat, ts, d, e, hp, hl, hd => by
    have hbody := writeAll h body flat hp hl.2 h.blank
    simpa [Item.tokens] using h.query flat hl.1 hd hbody
  | .elements [], _, _, _, _, _, _, hd => by
    simpa [Item.write, Item.tokens, partTokens] using hd
  | .elements (part :: rest), flat, ts, d, e, hp, hl, hd => by
    have hpart := writeAll h part flat hp.1 hl.1 hd
    have hwrap : SameWrap R (if elementLimit < (part :: rest).length then some d.page.column else none)
        (if elementLimit < (part :: rest).length then some e.page.column else none) := by
      split
      · exact .inr ⟨ts, d, e, hd, rfl, rfl⟩
      · exact .inl ⟨rfl, rfl⟩
    have hrest := writeElements h rest flat hwrap hp.2 hl.2 hpart
    simpa [Item.write, Item.tokens, partTokens_cons] using hrest
  | .definitions parts, flat, ts, d, e, hp, hl, hd => by
    rw [write_definitions, write_definitions, Item.tokens, partTokens_eq]
    exact h.define flat hd (readDefinitions h parts flat hp.1 hl)

theorem writeAll (h : Follows o o' R) : ∀ (items : List Item) (flat : Bool) {ts : List Token}
    {d e : Draft}, AllProper items → AllLed items → R ts d e →
    R (ts ++ allTokens items) (writeAll o flat items d) (writeAll o' flat items e)
  | [], _, _, _, _, _, _, hd => by simpa [SqlLayout.writeAll, allTokens] using hd
  | i :: rest, flat, ts, d, e, hp, hl, hd => by
    have hrest := writeAll h rest flat hp.2 hl.2 (write h i flat hp.1 hl.1 hd)
    simpa [SqlLayout.writeAll, allTokens] using hrest

theorem writeElements (h : Follows o o' R) : ∀ (parts : List (List Item)) (flat : Bool)
    {w w' : Option Nat} {ts : List Token} {d e : Draft}, SameWrap R w w' → PartsProper parts →
    PartsLed parts → R ts d e →
    R (ts ++ parts.flatMap fun q => .comma :: allTokens q) (writeElements o flat w parts d)
      (writeElements o' flat w' parts e)
  | [], _, _, _, _, _, _, _, _, _, hd => by simpa [SqlLayout.writeElements] using hd
  | part :: rest, flat, w, w', ts, d, e, hw, hp, hl, hd => by
    have hstart : R (ts ++ [.comma])
        (w.elim (d.word o flat .comma) fun n => (d.word o flat .comma).startLine n)
        (w'.elim (e.word o' flat .comma) fun n => (e.word o' flat .comma).startLine n) := by
      rcases hw with ⟨rfl, rfl⟩ | ⟨us, a, b, hab, rfl, rfl⟩
      · exact h.word flat rfl hd
      · exact h.wrap flat hab hd
    have hpart := writeAll h part flat hp.1 hl.1 hstart
    have hrest := writeElements h rest flat hw hp.2 hl.2 hpart
    simpa [SqlLayout.writeElements] using hrest

theorem readDefinitions (h : Follows o o' R) : ∀ (parts : List (List Item)) (flat : Bool),
    PartsProper parts → PartsLed parts →
    Entries R (parts.map allTokens) (readDefinitions o flat parts) (readDefinitions o' flat parts)
  | [], _, _, _ => .nil
  | [] :: rest, flat, hp, hl => by
    have hrest := readDefinitions h rest flat hp.2 hl.2
    -- nothing is read from a draft on which nothing was written
    exact Entries.cons h.blank h.blank hrest
  | (name :: more) :: rest, flat, hp, hl => by
    have hname := write h name flat hp.1.1 hl.1.1 h.blank
    have hmore := writeAll h more flat hp.1.2 hl.1.2 h.blank
    have hrest := readDefinitions h rest flat hp.2 hl.2
    exact .cons hname hmore hrest

end

end Follows

def onOneLine (o : Options) (flat : Bool) (body : List Item) : Bool :=
  (writeAll o flat body .blank).page.ink < o.subselectLimit &&
    !(writeAll o flat body .blank).remarked

theorem write_query (o : Options) (flat : Bool) (body : List Item) (d : Draft) :
    (Item.query body).write o flat d =
      if onOneLine o flat body then d.setOnLine (writeAll o flat body .blank)
      else d.setIn (writeAll o flat body .blank) := by
  rw [Item.write]
  rfl

namespace Item

mutual

/-- For every query in the item, an outer one before those in it, whether it goes on one line. -/
def choices (o : Options) (flat : Bool) : Item → List Bool
  | .word _ | .remark _ _ | .newline | .startLine _ => []
  | .inset f body => allChoices o (flat || f) body
  | .query body => onOneLine o flat body :: allChoices o flat body
  | .elements parts | .definitions parts => partChoices o flat parts

def allChoices (o : Options) (flat : Bool) : List Item → List Bool
  | [] => []
  | i :: rest => i.choices o flat ++ allChoices o flat rest

def partChoices (o : Options) (flat : Bool) : List (List Item) → List Bool
  | [] => []
  | part :: rest => allChoices o flat part ++ partChoices o flat rest

end

end Item

namespace Follows

open Item

/-- Where the drafts of a query are related, `P` holds of the two choices for it. -/
def Compares (o o' : Options) (R : List Token → Draft → Draft → Prop) (P : Bool → Bool → Prop) :
    Prop :=
  ∀ {flat : Bool} {us : List Token} {body : List Item},
    R us (SqlLayout.writeAll o flat body .blank) (SqlLayout.writeAll o' flat body .blank) →
    P (onOneLine o flat body) (onOneLine o' flat body)

variable {o o' : Options} {R : List Token → Draft → Draft → Prop} {P : Bool → Bool → Prop}

mutual

theorem choices (h : Follows o o' R) (hP : Compares o o' R P) :
    ∀ (i : Item) (flat : Bool), i.Proper → i.Led →
    List.Forall₂ P (i.choices o flat) (i.choices o' flat)
  | .word _, _, _, _ | .remark _ _, _, _, _ | .newline, _, _, _ | .startLine _, _, _, _ => .nil
  | .inset f body, flat, hp, hl => allChoices h hP body (flat || f) hp hl
  | .query body, flat, hp, hl =>
    .cons (hP (h.writeAll body flat hp hl.2 h.blank)) (allChoices h hP body flat hp hl.2)
  | .elements parts, flat, hp, hl => partChoices h hP parts flat hp hl
  | .definitions parts, flat, hp, hl => partChoices h hP parts flat hp.1 hl

theorem allChoices (h : Follows o o' R) (hP : Compares o o' R P) :
    ∀ (items : List Item) (flat : Bool), AllProper items → AllLed items →
    List.Forall₂ P (Item.allChoices o flat items) (Item.allChoices o' flat items)
  | [], _, _, _ => .nil
  | i :: rest, flat, hp, hl =>
    List.rel_append (choices h hP i flat hp.1 hl.1) (allChoices h hP rest flat hp.2 hl.2)

theorem partChoices (h : Follows o o' R) (hP : Compares o o' R P) :
    ∀ (parts : List (List Item)) (flat : Bool), PartsProper parts → PartsLed parts →
    List.Forall₂ P (Item.partChoices o flat parts) (Item.partChoices o' flat parts)
  | [], _, _, _ => .nil
  | part :: rest, flat, hp, hl =>
    List.rel_append (allChoices h hP part flat hp.1 hl.1) (partChoices h hP rest flat hp.2 hl.2)

end

theorem arranged_choices (h : Follows o o' R) (hP : Compares o o' R P)
    {limit room : Nat} {ts : List Token} {items : List Item}
    (hitems : arrange limit room .statement ts = .ok items) :
    List.Forall₂ P (Item.allChoices o false items) (Item.allChoices o' false items) :=
  h.allChoices hP items false (sane_arrange hitems).proper
    (nestedLed_arrange _ _ (by simp [Arrange.Starts]) hitems).1

end Follows

theorem formatCommand_congr (o o' : Options) (ts : List Token) (source : Text) :
    formatCommand o ts source = formatCommand o' ts source := rfl

/-- Under two settings that arrange a statement alike it fails with the same error, or is no matter
of layout, or has two layouts that follow each other. -/
theorem formatTokens_follow {o o' : Options} {R : List Token → Draft → Draft → Prop}
    (h : Follows o o' R) {tokens : List Token}
    (harrange : arrange o.nestingLimit o.nestingLimit .statement (solid tokens) =
      arrange o'.nestingLimit o'.nestingLimit .statement (solid tokens)) (source : Text) :
    (∃ e, formatTokens o tokens source = .error e ∧ formatTokens o' tokens source = .error e) ∨
    (∃ t, formatTokens o tokens source = .ok t ∧ formatTokens o' tokens source = .ok t) ∨
    ∃ items, arrange o.nestingLimit o.nestingLimit .statement (solid tokens) = .ok items ∧
      formatTokens o tokens source = .ok (writeAll o false items .blank).text ∧
      formatTokens o' tokens source = .ok (writeAll o' false items .blank).text ∧
      R (Item.allTokens items) (writeAll o false items .blank) (writeAll o' false items .blank) := by
  cases he : formatTokens o tokens source with
  | error e =>
    rw [formatTokens_fault_iff] at he
    exact .inl ⟨e, rfl, formatTokens_fault_iff.2 he⟩
  | ok out =>
    right
    cases hc : isCommand (solid tokens) with
    | true =>
      rw [formatTokens_command hc] at he
      refine .inl ⟨out, rfl, ?_⟩
      rw [formatTokens_command hc, formatCommand_congr o' o, he]
    | false =>
      rcases formatTokens_ok he hc with ⟨hnil, rfl⟩ | ⟨hne, hq, hb, items, hitems, rfl⟩
      · refine .inl ⟨[], rfl, ?_⟩
        rw [formatTokens_statement hc, hnil]
        rfl
      · refine .inr ⟨items, hitems, rfl, ?_, ?_⟩
        · rw [formatTokens_statement hc, if_neg (by simpa using hne), hq, hb, ← harrange, hitems]
          rfl
        · have hled := (nestedLed_arrange _ _ (by simp [Arrange.Starts]) hitems).1
          exact h.writeAll items false (sane_arrange hitems).proper hled h.blank

end SqlLayout
