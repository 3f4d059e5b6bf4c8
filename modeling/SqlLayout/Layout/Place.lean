import SqlLayout.Layout.Item
import SqlLayout.Token.Bracket

/-! The places of a statement, and what is done at each with the next token: it is written, with
the line ends that belong to it, or it opens a bracket or a `CASE`.
-/

set_option autoImplicit false

namespace SqlLayout

/-- The place in a statement that decides how the next token is arranged. -/
inductive Place where
  | statement
  /-- The elements of a clause, which commas divide. -/
  | list (c : Clause)
  /-- A condition, with the brackets open in it, and whether a `BETWEEN` awaits its `AND`. -/
  | condition (depth : Nat) (between : Bool)
  | into
  | values
  | create
  | createObject
  | createIndex
  /-- Inside brackets that stay on the line. -/
  | inline
  /-- Inside brackets with an element on each line. -/
  | block
  /-- Inside the brackets of `DECODE`, after a number of commas. -/
  | pairs (commas : Nat)
  | caseHead
  | branches
  deriving DecidableEq, Repr

namespace Place

def indent : Place → Nat
  | .list c => c.indent
  | .branches => 2
  | _ => 0

def isOpen : Place → Bool
  | .caseHead | .branches => true
  | _ => false

end Place

inductive Bracket where
  | expression
  | pairs
  | row
  | columns
  | indexColumns
  deriving DecidableEq, Repr

inductive Action where
  | write (items : List Item) (next : Place)
  | openBracket (b : Bracket) (next : Place)
  | openCase (next : Place)
  /-- Nothing that follows is arranged. -/
  | finish (items : List Item)

namespace Place

def afterDot (before : List Token) : Bool := before.head? == some .dot

def afterIntroducer (before : List Token) : Bool :=
  before.head?.any Token.introducesSubselect

/-- The innermost clause opened so far is `WITH`. `depth` counts the brackets passed over. -/
def inWith (depth : Int) : List Token → Bool
  | [] => false
  | .closeParen :: rest => inWith (depth + 1) rest
  | .openParen :: rest => inWith (depth - 1) rest
  | .keyword k :: rest =>
    if depth = 0 && k = .WITH then true
    else if depth = 0 && k ≠ .AS && (k.breaksBefore || k = .CREATE) then false
    else inWith depth rest
  | _ :: rest => inWith depth rest

def clauseKeyword (k : Keyword) : List Item :=
  (if k.breaksBefore then [.startLine 0] else []) ++ [.word (.keyword k)] ++
    if k.breaksAfter then [.newline] else []

def inExpression (p : Place) (before : List Token) (t : Token) : Action :=
  match t with
  | .openParen => .openBracket .expression p
  | .keyword .CASE => if afterDot before then .write [.word t] p else .openCase p
  | _ => .write (Item.echo p.indent [t]) p

def inStatement (before : List Token) (t : Token) : Action :=
  if afterDot before then inExpression .statement before t
  else
    match t with
    | .keyword k =>
      match k with
      | .SELECT => .write (clauseKeyword k) (.list .select)
      | .SET => .write (clauseKeyword k) (.list .set)
      | .GROUP_BY => .write (clauseKeyword k) (.list .groupBy)
      | .FROM => .write (clauseKeyword k) (.list .source)
      | .WHERE | .HAVING => .write (clauseKeyword k) (.condition 0 false)
      | .CREATE => .write (clauseKeyword k) .create
      | .VALUES => .write (clauseKeyword k) .values
      | .INTO => .write (clauseKeyword k) .into
      | .AS => .write (if inWith 0 before then [.word t] else clauseKeyword k) .statement
      | _ =>
        if k.breaksBefore || k.breaksAfter then .write (clauseKeyword k) .statement
        else inExpression .statement before t
    | .semicolon => .write [.word t, .newline, .newline] .statement
    | _ => inExpression .statement before t

def inList (c : Clause) (before : List Token) (t : Token) : Action :=
  if !afterDot before && t.ends c then inStatement before t
  else
    match t with
    | .comma => .write [.word t, .startLine c.indent] (.list c)
    | .keyword k =>
      if c = .source && k.isJoin && !afterDot before then
        .write [.word t, .startLine c.indent] (.list c)
      else inExpression (.list c) before t
    | _ => inExpression (.list c) before t

/-- A token of a condition. `AND` and `OR` outside brackets start a line, `OR` one column in; the
`AND` of a `BETWEEN` does not. -/
def inCondition (depth : Nat) (between : Bool) (before : List Token) (t : Token)
    (rest : List Token) : Action :=
  let stay := Place.condition depth between
  if depth = 0 && !afterDot before && t.ends .condition then inStatement before t
  else
    match t with
    | .keyword .BETWEEN => .write [.word t] (.condition depth (depth = 0))
    | .keyword .AND =>
      if depth = 0 then
        if between then .write [.word t] (.condition depth false)
        else .write [.startLine 0, .word t] stay
      else inExpression stay before t
    | .keyword .OR =>
      if depth = 0 then .write [.startLine 1, .word t] stay else inExpression stay before t
    | .openParen =>
      if afterIntroducer before || startsQuery rest then inExpression stay before t
      else .write [.word t] (.condition (depth + 1) between)
    | .closeParen => .write [.word t] (.condition (depth - 1) between)
    | _ => inExpression stay before t

def inInto (before : List Token) (t : Token) : Action :=
  match t with
  | .openParen => .openBracket .row .statement
  | .semicolon | .comma => inStatement before t
  | _ =>
    if t.breaksBefore && !afterDot before then inStatement before t
    else inExpression .into before t

def inValues (before : List Token) (t : Token) : Action :=
  match t with
  | .openParen => .openBracket .row .values
  | .comma | .lineComment _ | .blockComment _ => .write (Item.echo 0 [t]) .values
  | _ => inStatement before t

/-- A token between `CREATE` and the kind of object created. -/
def inCreate (before : List Token) (t : Token) : Action :=
  match t with
  | .keyword .TABLE | .keyword .VIEW => .write [.word t] .createObject
  | .keyword .INDEX => .write [.word t] .createIndex
  | .semicolon | .openParen => inStatement before t
  | _ => if t.breaksBefore then inStatement before t else inExpression .create before t

def inCreateObject (before : List Token) (t : Token) : Action :=
  match t with
  | .openParen => .openBracket .columns .statement
  | .semicolon => inStatement before t
  | _ =>
    if t.breaksBefore && !afterDot before then inStatement before t
    else inExpression .createObject before t

def inCreateIndex (before : List Token) (t : Token) : Action :=
  match t with
  | .keyword .ON => .write [.startLine 0, .word t] .createIndex
  | .openParen => .openBracket .indexColumns .statement
  | .semicolon => inStatement before t
  | _ => if t.breaksBefore then inStatement before t else inExpression .createIndex before t

def inBranches (before : List Token) (t : Token) : Action :=
  if afterDot before then inExpression .branches before t
  else
    match t with
    | .keyword .WHEN | .keyword .ELSE => .write [.startLine 2, .word t] .branches
    | .keyword .END => .finish [.startLine 0, .word t]
    | _ => inExpression .branches before t

/-- What is done with `t`, where `before` are the tokens read so far, the last one first, and
`rest` are those to come. -/
def action (p : Place) (before : List Token) (t : Token) (rest : List Token) : Action :=
  if t = .openParen && before.head?.any Token.isDecode then .openBracket .pairs p
  else
    match p with
    | .statement => inStatement before t
    | .list c => inList c before t
    | .condition depth between => inCondition depth between before t rest
    | .into => inInto before t
    | .values => inValues before t
    | .create => inCreate before t
    | .createObject => inCreateObject before t
    | .createIndex => inCreateIndex before t
    | .inline => inExpression .inline before t
    | .block =>
      if t = .comma then .write [.word t, .newline] .block else inExpression .block before t
    | .pairs n =>
      if t = .comma then .write (.word t :: if n % 2 = 0 then [.newline] else []) (.pairs (n + 1))
      else inExpression (.pairs n) before t
    | .caseHead => .write [.word t] .branches
    | .branches => inBranches before t

end Place

end SqlLayout
