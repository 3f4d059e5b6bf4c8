import SqlLayout.Proofs.Arrangement

/-! Names, strings and comments may change their text: the layout of a statement is arranged by
the kinds of its tokens, not by what they say.
-/

set_option autoImplicit false

namespace SqlLayout

/-- New texts for names, strings and line comments. A name of `DECODE` stays one. -/
structure Renaming where
  name : Text → Text
  string : Text → Text
  comment : Text → Text
  decode : ∀ t, Text.sameLetters (name t) "decode".toList = Text.sameLetters t "decode".toList

def Token.rename (g : Renaming) : Token → Token
  | .identifier t => .identifier (g.name t)
  | .string t => .string (g.string t)
  | .lineComment t => .lineComment (g.comment t)
  | t => t

namespace Item

mutual

def rename (g : Renaming) : Item → Item
  | .word t => .word (t.rename g)
  | .remark t n => .remark (g.comment t) n
  | .newline => .newline
  | .startLine n => .startLine n
  | .inset f body => .inset f (renameAll g body)
  | .query body => .query (renameAll g body)
  | .elements parts => .elements (renameParts g parts)
  | .definitions parts => .definitions (renameParts g parts)

def renameAll (g : Renaming) : List Item → List Item
  | [] => []
  | i :: rest => i.rename g :: renameAll g rest

def renameParts (g : Renaming) : List (List Item) → List (List Item)
  | [] => []
  | part :: rest => renameAll g part :: renameParts g rest

end

variable (g : Renaming)

theorem renameAll_eq (items : List Item) : renameAll g items = items.map (rename g) := by
  induction items with
  | nil => rfl
  | cons i rest ih => simp [renameAll, ih]

theorem renameParts_eq (parts : List (List Item)) :
    renameParts g parts = parts.map (renameAll g) := by
  induction parts with
  | nil => rfl
  | cons part rest ih => simp [renameParts, ih]

@[simp] theorem renameAll_append (a b : List Item) :
    renameAll g (a ++ b) = renameAll g a ++ renameAll g b := by
  simp [renameAll_eq]

@[simp] theorem renameAll_cons (i : Item) (rest : List Item) :
    renameAll g (i :: rest) = i.rename g :: renameAll g rest := rfl

@[simp] theorem renameAll_nil : renameAll g [] = [] := rfl

theorem renameAll_echo (n : Nat) (ts : List Token) :
    renameAll g (echo n ts) = echo n (ts.map (Token.rename g)) := by
  induction ts with
  | nil => rfl
  | cons t ts ih => cases t <;> simpa [echo, rename, Token.rename] using ih

end Item

namespace Token

variable (g : Renaming) (t : Token)

@[simp] theorem rename_isComment : (t.rename g).isComment = t.isComment := by cases t <;> rfl

@[simp] theorem rename_isDecode : (t.rename g).isDecode = t.isDecode := by
  cases t with
  | identifier t => exact g.decode t
  | _ => rfl

@[simp] theorem rename_introducesSubselect :
    (t.rename g).introducesSubselect = t.introducesSubselect := by
  cases t <;> rfl

@[simp] theorem rename_breaksBefore : (t.rename g).breaksBefore = t.breaksBefore := by
  cases t <;> rfl

@[simp] theorem rename_ends (c : Clause) : (t.rename g).ends c = t.ends c := by cases t <;> rfl

theorem rename_eq_dot : t.rename g = .dot ↔ t = .dot := by cases t <;> simp [rename]

theorem rename_eq_openParen : t.rename g = .openParen ↔ t = .openParen := by
  cases t <;> simp [rename]

theorem rename_eq_comma : t.rename g = .comma ↔ t = .comma := by cases t <;> simp [rename]

end Token

section Brackets

variable (g : Renaming)

abbrev renamed (ts : List Token) : List Token := ts.map (Token.rename g)

theorem group_rename (d : Nat) (ts : List Token) : group d (renamed g ts) =
    (group d ts).map fun r => (renamed g r.1, renamed g r.2) := by
  induction ts generalizing d with
  | nil => rfl
  | cons t ts ih =>
    have hstep : ∀ d, (group d (renamed g ts)).map (fun r => (t.rename g :: r.1, r.2)) =
        ((group d ts).map fun r => (t :: r.1, r.2)).map fun r => (renamed g r.1, renamed g r.2) := by
      intro d
      rw [ih, map_map, map_map]
      rfl
    cases t with
    | closeParen =>
      cases d with
      | zero => rfl
      | succ d => exact hstep d
    | openParen => exact hstep (d + 1)
    | _ => exact hstep d

theorem caseEnd?_rename (d : Nat) (ts : List Token) : caseEnd? d (renamed g ts) =
    (caseEnd? d ts).map fun r => (renamed g r.1, renamed g r.2) := by
  induction ts generalizing d with
  | nil => rfl
  | cons t ts ih =>
    rcases t with k | _ | _ | _ | _ | _ | _ | _ | _ | _ | _ | _ | _ | _
    · cases k <;> cases d <;> simp_all [caseEnd?, Token.rename, Option.map_map, Function.comp_def]
    all_goals simp_all [caseEnd?, Token.rename, Option.map_map, Function.comp_def]

theorem splitFrom_rename (d : Nat) (ts : List Token) : splitFrom d (renamed g ts) =
    (renamed g (splitFrom d ts).1, (splitFrom d ts).2.map (renamed g)) := by
  induction ts generalizing d with
  | nil => rfl
  | cons t ts ih => cases t <;> cases d <;> simp_all [splitFrom, Token.rename]

theorem splitCommas_rename (ts : List Token) :
    splitCommas (renamed g ts) = (splitCommas ts).map (renamed g) := by
  cases ts with
  | nil => rfl
  | cons t ts =>
    simp only [splitCommas, List.map_cons, List.isEmpty_cons, Bool.false_eq_true, if_false]
    rw [← List.map_cons, splitFrom_rename]

theorem startsQuery_rename (ts : List Token) : startsQuery (renamed g ts) = startsQuery ts := by
  unfold startsQuery
  rw [List.find?_map]
  simp only [Function.comp_def, Token.rename_isComment]
  cases ts.find? fun t => !t.isComment with
  | none => rfl
  | some t => cases t <;> rfl

end Brackets

def Action.rename (g : Renaming) : Action → Action
  | .write items next => .write (Item.renameAll g items) next
  | .openBracket b next => .openBracket b next
  | .openCase next => .openCase next
  | .finish items => .finish (Item.renameAll g items)

theorem Action.ite_rename {g : Renaming} {c c' : Bool} {a a' b b' : Action} (hc : c' = c)
    (ha : a' = a.rename g) (hb : b' = b.rename g) :
    (if c' = true then a' else b') = (if c = true then a else b).rename g := by
  subst hc ha hb
  split <;> rfl

namespace Place

variable (g : Renaming) (before : List Token) (t : Token)

@[simp] theorem afterDot_rename : afterDot (renamed g before) = afterDot before := by
  cases before with
  | nil => rfl
  | cons u before => cases u <;> rfl

@[simp] theorem afterIntroducer_rename :
    afterIntroducer (renamed g before) = afterIntroducer before := by
  cases before <;> simp [afterIntroducer]

@[simp] theorem inWith_rename (d : Int) : inWith d (renamed g before) = inWith d before := by
  induction before generalizing d with
  | nil => rfl
  | cons u before ih => cases u <;> simp_all [inWith, Token.rename]

theorem clauseKeyword_rename (k : Keyword) :
    Item.renameAll g (clauseKeyword k) = clauseKeyword k := by
  unfold clauseKeyword
  split <;> split <;> rfl

theorem inExpression_rename (p : Place) :
    inExpression p (renamed g before) (t.rename g) = (inExpression p before t).rename g := by
  unfold inExpression
  have hecho : ∀ u : Token, Item.renameAll g (Item.echo p.indent [u]) =
      Item.echo p.indent [u.rename g] := fun u => Item.renameAll_echo g p.indent [u]
  rcases t with k | _ | _ | _ | _ | _ | _ | _ | _ | _ | _ | _ | _ | _
  · by_cases hk : k = .CASE
    · subst hk
      simp only [Token.rename, afterDot_rename]
      split <;> rfl
    · simp only [Token.rename]
      split <;> simp_all [Action.rename, Token.rename]
  all_goals simp [Action.rename, hecho, Token.rename]

theorem inStatement_rename :
    inStatement (renamed g before) (t.rename g) = (inStatement before t).rename g := by
  have hexpr := inExpression_rename g before t .statement
  unfold inStatement
  rw [afterDot_rename]
  split
  · exact hexpr
  rcases t with k | _ | _ | _ | _ | _ | _ | _ | _ | _ | _ | _ | _ | _
  · simp only [Token.rename] at hexpr ⊢
    split <;> try simp [Action.rename, clauseKeyword_rename]; done
    · rw [inWith_rename]
      split <;> simp [Action.rename, clauseKeyword_rename, Item.rename, Token.rename]
    · split
      · simp [Action.rename, clauseKeyword_rename]
      · exact hexpr
  all_goals first | exact hexpr | rfl

theorem inList_rename (c : Clause) :
    inList c (renamed g before) (t.rename g) = (inList c before t).rename g := by
  have hexpr := inExpression_rename g before t (.list c)
  unfold inList
  rw [afterDot_rename, Token.rename_ends]
  split
  · exact inStatement_rename g before t
  cases t with
  | comma => rfl
  | keyword k =>
    simp only [Token.rename] at hexpr ⊢
    split
    · rfl
    · exact hexpr
  | _ => exact hexpr

theorem inCondition_rename (depth : Nat) (between : Bool) (rest : List Token) :
    inCondition depth between (renamed g before) (t.rename g) (renamed g rest) =
      (inCondition depth between before t rest).rename g := by
  have hexpr := inExpression_rename g before t (.condition depth between)
  unfold inCondition
  simp only [afterDot_rename, Token.rename_ends, afterIntroducer_rename, startsQuery_rename]
  split
  · exact inStatement_rename g before t
  cases t with
  | keyword k =>
    simp only [Token.rename] at hexpr ⊢
    split
    · rfl
    · split
      · split <;> rfl
      · exact hexpr
    · split
      · rfl
      · exact hexpr
    · simp_all
    · simp_all
    · exact hexpr
  | openParen =>
    simp only [Token.rename] at hexpr ⊢
    split
    · exact hexpr
    · rfl
  | closeParen => rfl
  | _ => exact hexpr

theorem breaks_rename : ((t.rename g).breaksBefore && !afterDot (renamed g before)) =
    (t.breaksBefore && !afterDot before) := by
  rw [Token.rename_breaksBefore, afterDot_rename]

theorem inInto_rename : inInto (renamed g before) (t.rename g) = (inInto before t).rename g := by
  have hrest := Action.ite_rename (breaks_rename g before t) (inStatement_rename g before t)
    (inExpression_rename g before t .into)
  cases t with
  | openParen => rfl
  | semicolon | comma => exact inStatement_rename g before _
  | _ => exact hrest

theorem inValues_rename :
    inValues (renamed g before) (t.rename g) = (inValues before t).rename g := by
  have hstatement := inStatement_rename g before t
  unfold inValues
  cases t <;> first | exact hstatement | rfl

theorem inCreate_rename :
    inCreate (renamed g before) (t.rename g) = (inCreate before t).rename g := by
  have hrest := Action.ite_rename (t.rename_breaksBefore g) (inStatement_rename g before t)
    (inExpression_rename g before t .create)
  cases t with
  | semicolon | openParen => exact inStatement_rename g before _
  | keyword k =>
    by_cases hk : k = .TABLE ∨ k = .VIEW ∨ k = .INDEX
    · rcases hk with rfl | rfl | rfl <;> rfl
    · simp only [not_or] at hk
      simpa [inCreate, Token.rename, hk] using hrest
  | _ => exact hrest

theorem inCreateObject_rename :
    inCreateObject (renamed g before) (t.rename g) = (inCreateObject before t).rename g := by
  have hrest := Action.ite_rename (breaks_rename g before t) (inStatement_rename g before t)
    (inExpression_rename g before t .createObject)
  cases t with
  | openParen => rfl
  | semicolon => exact inStatement_rename g before _
  | _ => exact hrest

theorem inCreateIndex_rename :
    inCreateIndex (renamed g before) (t.rename g) = (inCreateIndex before t).rename g := by
  have hrest := Action.ite_rename (t.rename_breaksBefore g) (inStatement_rename g before t)
    (inExpression_rename g before t .createIndex)
  cases t with
  | openParen => rfl
  | semicolon => exact inStatement_rename g before _
  | keyword k =>
    by_cases hk : k = .ON
    · subst hk
      rfl
    · simpa [inCreateIndex, Token.rename, hk] using hrest
  | _ => exact hrest

theorem inBranches_rename :
    inBranches (renamed g before) (t.rename g) = (inBranches before t).rename g := by
  have hexpr := inExpression_rename g before t .branches
  unfold inBranches
  rw [afterDot_rename]
  split
  · exact hexpr
  cases t with
  | keyword k =>
    by_cases hk : k = .WHEN ∨ k = .ELSE ∨ k = .END
    · rcases hk with rfl | rfl | rfl <;> rfl
    · simp only [not_or] at hk
      simpa [Token.rename, hk] using hexpr
  | _ => exact hexpr

theorem action_rename (p : Place) (rest : List Token) :
    p.action (renamed g before) (t.rename g) (renamed g rest) =
      (p.action before t rest).rename g := by
  have hdecode : (renamed g before).head?.any Token.isDecode = before.head?.any Token.isDecode := by
    cases before <;> simp
  unfold action
  simp only [hdecode, Token.rename_eq_openParen]
  split
  · rfl
  have hcomma := Token.rename_eq_comma g t
  cases p with
  | statement => exact inStatement_rename g before t
  | list c => exact inList_rename g before t c
  | condition depth between => exact inCondition_rename g before t depth between rest
  | into => exact inInto_rename g before t
  | values => exact inValues_rename g before t
  | create => exact inCreate_rename g before t
  | createObject => exact inCreateObject_rename g before t
  | createIndex => exact inCreateIndex_rename g before t
  | inline => exact inExpression_rename g before t .inline
  | block =>
    simp only [hcomma]
    split
    · rfl
    · exact inExpression_rename g before t .block
  | pairs n =>
    simp only [hcomma]
    split
    · simp only [Action.rename, Item.renameAll_cons, Item.rename]
      split <;> rfl
    · exact inExpression_rename g before t (.pairs n)
  | caseHead => rfl
  | branches => exact inBranches_rename g before t

end Place

namespace Arrange

variable {g : Renaming} {nested : Nested}

def Natural (g : Renaming) (nested : Nested) : Prop :=
  ∀ p ts, nested p (renamed g ts) = (nested p ts).map (Item.renameAll g)

theorem Natural.inset (h : Natural g nested) (flat : Bool) (p : Place) (indent : Nat)
    (ts : List Token) : inset nested flat p indent (renamed g ts) =
      Item.renameAll g (inset nested flat p indent ts) := by
  unfold Arrange.inset
  rw [h]
  cases nested p ts with
  | error e => simp [Except.map, Item.renameAll_echo]
  | ok body => rfl

theorem Natural.query (h : Natural g nested) (indent : Nat) (ts : List Token) :
    query nested indent (renamed g ts) = Item.renameAll g (query nested indent ts) := by
  unfold Arrange.query
  rw [h]
  cases nested .statement ts with
  | error e => simp [Except.map, Item.renameAll_echo]
  | ok body => rfl

theorem Natural.block (h : Natural g nested) (width indent : Nat) (ts : List Token) :
    block nested width indent (renamed g ts) = Item.renameAll g (block nested width indent ts) := by
  unfold Arrange.block
  rw [List.isEmpty_map, h.inset]
  split
  · rfl
  · simp [opening, closing, Item.rename, Token.rename]

theorem Natural.definition (h : Natural g nested) (ts : List Token) :
    definition nested (renamed g ts) = Item.renameAll g (definition nested ts) := by
  cases ts with
  | nil => rfl
  | cons name rest =>
    simp only [Arrange.definition, List.map_cons]
    rw [show nested .inline (rest.map (Token.rename g)) = _ from h .inline rest]
    cases nested .inline rest with
    | error e => simp [Except.map, Item.renameAll_echo, Item.rename]
    | ok body => rfl

theorem Natural.parts {f : List Token → List Item}
    (h : ∀ ts, f (renamed g ts) = Item.renameAll g (f ts)) (ts : List Token) :
    (splitCommas (renamed g ts)).map f = Item.renameParts g ((splitCommas ts).map f) := by
  rw [splitCommas_rename, Item.renameParts_eq, List.map_map, List.map_map]
  exact List.map_congr_left fun part _ => h part

theorem Natural.bracket (h : Natural g nested) (b : Bracket) (indent : Nat)
    (before ts : List Token) : bracket nested b indent (renamed g before) (renamed g ts) =
      Item.renameAll g (bracket nested b indent before ts) := by
  have hround : ∀ items : List Item, Item.renameAll g (opening :: items ++ [closing]) =
      opening :: Item.renameAll g items ++ [closing] := by
    intro items
    simp [opening, closing, Item.rename, Token.rename]
  unfold Arrange.bracket
  simp only [startsQuery_rename, Place.afterIntroducer_rename, h.query, h.inset, h.block]
  cases b with
  | expression =>
    simp only
    split
    · rw [hround]
    · split
      · rw [Natural.parts fun ts => h.inset false .inline indent ts]
        rfl
      · rw [hround]
  | pairs => simp only [hround]
  | row =>
    simp only
    split
    · rw [hround]
    · rfl
  | columns =>
    have hcomment : (renamed g ts).any Token.isComment = ts.any Token.isComment := by
      simp [List.any_map, Function.comp_def]
    simp only [List.isEmpty_map, hcomment]
    split
    · rfl
    · rw [Natural.parts h.definition]
      rfl
  | indexColumns =>
    simp only [splitCommas_rename, List.length_map]
    split
    · rfl
    · rw [hround]

/-- What a run makes of its tokens does not depend on their texts. -/
theorem run_rename (h : Natural g nested) (p : Place) (before ts : List Token) :
    run nested p (renamed g before) (renamed g ts) =
      (run nested p before ts).map (Item.renameAll g) := by
  have hmap : ∀ {items more : List Item} {x y : Except FormatError (List Item)},
      y = x.map (Item.renameAll g) → more = Item.renameAll g items →
      y.map (more ++ ·) = (x.map (items ++ ·)).map (Item.renameAll g) := by
    rintro items _ x _ rfl rfl
    cases x <;> simp [Except.map]
  fun_induction run nested p before ts with
  | case1 p before =>
    change run nested p _ [] = _
    rw [run]
    unfold atEnd
    split <;> rfl
  | case2 p before t rest items next ha ih =>
    have ha' := ha ▸ Place.action_rename g before t p rest
    exact (run_write ha').trans (hmap ih rfl)
  | case3 p before t rest b next ha e hg =>
    have ha' := ha ▸ Place.action_rename g before t p rest
    exact run_unclosed ha' (by rw [group_rename, hg]; rfl)
  | case4 p before t rest b next ha inner after hg _ ih =>
    have ha' := ha ▸ Place.action_rename g before t p rest
    have hg' : group 0 (renamed g rest) = .ok (renamed g inner, renamed g after) := by
      rw [group_rename, hg]
      rfl
    refine (run_openBracket ha' hg').trans (hmap ?_ (h.bracket b p.indent before inner))
    simpa [Token.rename] using ih
  | case5 p before t rest next ha hc =>
    have ha' := ha ▸ Place.action_rename g before t p rest
    refine (run_looseCase ha' (by rw [caseEnd?_rename, hc]; rfl)).trans (hmap ?_ ?_)
    · unfold atEnd
      split <;> rfl
    · simp [Item.renameAll_echo, Item.rename]
  | case6 p before t rest next ha inner after hc _ ih =>
    have ha' := ha ▸ Place.action_rename g before t p rest
    have hc' : caseEnd? 0 (renamed g rest) = some (renamed g inner, renamed g after) := by
      rw [caseEnd?_rename, hc]
      rfl
    refine (run_openCase ha' hc').trans (hmap ?_ (h.inset true .caseHead p.indent (t :: inner)))
    simpa using ih
  | case7 p before t rest items ha =>
    have ha' := ha ▸ Place.action_rename g before t p rest
    exact run_finish ha'

end Arrange

open Arrange in
/-- The arrangement of a statement does not depend on the texts of its names, strings and
comments. -/
theorem arrange_rename (g : Renaming) (limit room : Nat) : Natural g (arrange limit room) := by
  apply arrange_induction (motive := Natural g)
  case deep => exact fun _ _ => rfl
  case run => exact fun hn p ts => run_rename hn p [] ts

namespace Item

variable (g : Renaming)

mutual

theorem marked_rename (flat : Bool) : ∀ i : Item,
    (i.rename g).marked flat = (i.marked flat).map fun m => (m.1, m.2.rename g)
  | .word _ | .remark _ _ | .newline | .startLine _ => rfl
  | .inset f body => allMarked_rename (flat || f) body
  | .query body => allMarked_rename flat body
  | .elements parts => partMarked_rename flat parts
  | .definitions parts => by
    simp [rename, marked, partMarked_rename flat parts, Token.rename]

theorem allMarked_rename (flat : Bool) : ∀ items : List Item,
    allMarked flat (renameAll g items) =
      (allMarked flat items).map fun m => (m.1, m.2.rename g)
  | [] => rfl
  | i :: rest => by
    simp [allMarked, marked_rename flat i, allMarked_rename flat rest]

theorem partMarked_rename (flat : Bool) : ∀ parts : List (List Item),
    partMarked flat (renameParts g parts) =
      (partMarked flat parts).map fun m => (m.1, m.2.rename g)
  | [] => rfl
  | [part] => by simp [renameParts, partMarked, allMarked_rename flat part]
  | part :: next :: rest => by
    have hrest := partMarked_rename flat (next :: rest)
    simp only [renameParts] at hrest
    simp [renameParts, partMarked, allMarked_rename flat part, hrest, Token.rename]

end

end Item

end SqlLayout
