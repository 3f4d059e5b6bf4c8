import SqlLayout.Layout.Place

/-! Arranging tokens into items, in one pass. The inside of a bracket or of a `CASE` is arranged
for itself; where that fails, or nesting goes too deep, it is written without layout.
-/

set_option autoImplicit false

namespace SqlLayout

namespace Arrange

/-- Arranges the inside of a bracket or of a `CASE`. -/
abbrev Nested := Place → List Token → Except FormatError (List Item)

/-- `ts` set in, or written without layout when they cannot be arranged. -/
def inset (nested : Nested) (flat : Bool) (p : Place) (indent : Nat) (ts : List Token) :
    List Item :=
  match nested p ts with
  | .ok body => [.inset flat body]
  | .error _ => Item.echo indent ts

def query (nested : Nested) (indent : Nat) (ts : List Token) : List Item :=
  match nested .statement ts with
  | .ok body => [.query body]
  | .error _ => Item.echo indent ts

def opening : Item := .word .openParen

def closing : Item := .word .closeParen

def block (nested : Nested) (width indent : Nat) (ts : List Token) : List Item :=
  if ts.isEmpty then [opening, closing]
  else [.startLine 0, opening, .startLine width] ++ inset nested false .block indent ts ++
    [.startLine 0, closing]

def definition (nested : Nested) : List Token → List Item
  | [] => []
  | name :: rest =>
    .word name ::
      match nested .inline rest with
      | .ok body => body
      | .error _ => Item.echo 0 rest

def bracket (nested : Nested) (b : Bracket) (indent : Nat) (before ts : List Token) : List Item :=
  match b with
  | .expression =>
    if startsQuery ts then opening :: query nested indent ts ++ [closing]
    else if Place.afterIntroducer before then
      [opening, .elements ((splitCommas ts).map (inset nested false .inline indent)), closing]
    else opening :: inset nested false .inline indent ts ++ [closing]
  | .pairs => opening :: inset nested true (.pairs 0) indent ts ++ [closing]
  | .row =>
    if startsQuery ts then opening :: query nested indent ts ++ [closing]
    else block nested 2 indent ts
  | .columns =>
    if ts.isEmpty || ts.any Token.isComment then block nested 2 indent ts
    else [.definitions ((splitCommas ts).map (definition nested))]
  | .indexColumns =>
    if 5 < (splitCommas ts).length then block nested 7 indent ts
    else opening :: inset nested false .inline indent ts ++ [closing]

def atEnd (p : Place) : Except FormatError (List Item) :=
  if p.isOpen then .error (.unterminated .caseExpression) else .ok []

/-- Arranges `ts`, read after `before`, at the place `p`. A `CASE` without its `END` takes all
that follows, and nothing of it is laid out. -/
def run (nested : Nested) (p : Place) (before : List Token) (ts : List Token) :
    Except FormatError (List Item) :=
  match ts with
  | [] => atEnd p
  | t :: rest =>
    match p.action before t rest with
    | .write items next =>
      (run nested next (t :: before) rest).map (items ++ ·)
    | .openBracket b next =>
      match h : group 0 rest with
      | .error e => .error e
      | .ok (inner, after) =>
        have : after.length < rest.length + 1 := by
          have := congrArg List.length (group_eq_append h)
          simp only [List.length_append, List.length_cons] at this
          omega
        (run nested next (.closeParen :: (inner.reverse ++ t :: before)) after).map
          (bracket nested b p.indent before inner ++ ·)
    | .openCase next =>
      match h : caseEnd? 0 rest with
      | none => (atEnd next).map (.word t :: Item.echo p.indent rest ++ ·)
      | some (inner, after) =>
        have : after.length < rest.length + 1 := by
          have := congrArg List.length (caseEnd?_eq_append h)
          simp only [List.length_append] at this
          omega
        (run nested next (inner.reverse ++ t :: before) after).map
          (inset nested true .caseHead p.indent (t :: inner) ++ ·)
    | .finish items => .ok items
termination_by ts.length

end Arrange

/-- Arranges tokens with `room` levels of nesting left of the `limit`. -/
def arrange (limit : Nat) : Nat → Place → List Token → Except FormatError (List Item)
  | 0, p, ts => Arrange.run (fun _ _ => .error (.tooDeeplyNested limit)) p [] ts
  | room + 1, p, ts => Arrange.run (arrange limit room) p [] ts

end SqlLayout
