import SqlLayout.Columns
import SqlLayout.Layout.Item
import SqlLayout.Layout.Page
import SqlLayout.Options
import SqlLayout.Token.Spacing

/-! Writing items on a page. A passage is first written on a page of its own, so that its lines
can go under the column where it starts, or all on one line.
-/

set_option autoImplicit false

namespace SqlLayout

/-- The text of a token that follows `prev`. A keyword after a dot is only a name. -/
def Token.render (o : Options) (flat : Bool) (prev : Option Token) : Token → Text
  | .keyword k =>
    if !o.uppercase || prev = some .dot then k.text.map Char.toLower else k.text
  | .identifier t => if o.isFunction t then Text.upper t else t
  | .string t => if flat then t.filter fun c => c != '\n' && c != '\r' else t
  | .quotedName t | .number t | .operator t | .gap t => t
  | .comma => [',']
  | .semicolon => [';']
  | .dot => ['.']
  | .openParen => ['(']
  | .closeParen => [')']
  | .lineComment t => ['-', '-'] ++ Text.trimEnd t
  | .blockComment t => ['/', '*'] ++ t ++ ['*', '/']

structure Draft where
  page : Page
  first : Option Token
  last : Option Token
  remarked : Bool
  deriving DecidableEq, Repr

namespace Draft

def blank : Draft := ⟨Page.blank, none, none, false⟩

def spaceBefore (t : Token) (d : Draft) : Page :=
  if needsSpace d.last t d.page.atLineStart then d.page.push [' '] else d.page

def word (o : Options) (flat : Bool) (t : Token) (d : Draft) : Draft :=
  { d with
    page := (d.spaceBefore t).push (t.render o flat d.last)
    first := d.first <|> some t
    last := some t }

def remark (o : Options) (flat : Bool) (t : Text) (indent : Nat) (d : Draft) : Draft :=
  let c := Token.lineComment t
  let start := if d.page.atLineStart then d.page else d.page.newline.indent indent
  { page := (start.push (c.render o flat d.last)).newline.indent indent
    first := d.first <|> some c
    last := some c
    remarked := true }

def newline (d : Draft) : Draft := { d with page := d.page.newline }

def startLine (n : Nat) (d : Draft) : Draft := { d with page := d.page.startLine n }

/-- The lines of a passage. Behind a line comment comes an empty one, so that nothing is written
into the comment. -/
def lines (d : Draft) : List Text :=
  match d.last with
  | some (.lineComment _) => d.page.trimmedLines ++ [[]]
  | _ => d.page.trimmedLines

def setIn (d inner : Draft) : Draft :=
  let start := inner.first.elim d.page fun t => d.spaceBefore t
  { page := start.pushLines start.column inner.lines
    first := d.first <|> inner.first
    last := inner.last <|> d.last
    remarked := d.remarked || inner.remarked }

def setOnLine (d inner : Draft) : Draft :=
  let start := inner.first.elim d.page fun t => d.spaceBefore t
  { page := start.push (collapse inner.lines)
    first := d.first <|> inner.first
    last := inner.last <|> d.last
    remarked := d.remarked || inner.remarked }

def text (d : Draft) : Text :=
  d.page.text ++ if d.last = some .semicolon then ['\n', '\n'] else []

end Draft

/-- More elements than this go on lines of their own. -/
def elementLimit : Nat := 10

mutual

def Item.write (o : Options) (flat : Bool) : Item → Draft → Draft
  | .word t, d => d.word o flat t
  | .remark t n, d => d.remark o flat t n
  | .newline, d => d.newline
  | .startLine n, d => d.startLine n
  | .inset f body, d => d.setIn (writeAll o (flat || f) body Draft.blank)
  | .query body, d =>
    let inner := writeAll o flat body Draft.blank
    if inner.page.ink < o.subselectLimit && !inner.remarked then d.setOnLine inner
    else d.setIn inner
  | .elements parts, d =>
    let wrap := if elementLimit < parts.length then some d.page.column else none
    match parts with
    | [] => d
    | part :: rest => writeElements o flat wrap rest (writeAll o flat part d)
  | .definitions parts, d =>
    let opened := (d.startLine 0).word o flat .openParen
    let lines := Definition.align (readDefinitions o flat parts) 2
    let filled := { opened with page := opened.page.pushBelow 0 lines }
    (filled.startLine 0).word o flat .closeParen

def writeAll (o : Options) (flat : Bool) : List Item → Draft → Draft
  | [], d => d
  | i :: rest, d => writeAll o flat rest (i.write o flat d)

def writeElements (o : Options) (flat : Bool) (wrap : Option Nat) :
    List (List Item) → Draft → Draft
  | [], d => d
  | part :: rest, d =>
    let afterComma := d.word o flat .comma
    let start := wrap.elim afterComma fun n => afterComma.startLine n
    writeElements o flat wrap rest (writeAll o flat part start)

def readDefinitions (o : Options) (flat : Bool) : List (List Item) → List Definition
  | [] => []
  | [] :: rest => ⟨[], []⟩ :: readDefinitions o flat rest
  | (name :: more) :: rest =>
    ⟨collapse (name.write o flat Draft.blank).lines,
      collapse (writeAll o flat more Draft.blank).lines⟩ :: readDefinitions o flat rest

end

theorem writeAll_append (o : Options) (flat : Bool) (a b : List Item) (d : Draft) :
    writeAll o flat (a ++ b) d = writeAll o flat b (writeAll o flat a d) := by
  induction a generalizing d with
  | nil => rfl
  | cons i a ih => simp [writeAll, ih]

end SqlLayout
