import SqlLayout.Text.Blank

/-! A page that is written line by line. Only a line end made by the layout divides lines; a line
break inside a token stays inside its line.
-/

set_option autoImplicit false

namespace SqlLayout

structure Page where
  /-- The finished lines, the last one first. -/
  above : List Text
  /-- The line being written, reversed. -/
  current : Text
  /-- How many characters that are not blank were written. -/
  ink : Nat
  deriving DecidableEq, Repr

namespace Page

def blank : Page := ⟨[], [], 0⟩

def push (t : Text) (p : Page) : Page :=
  { p with current := t.reverse ++ p.current, ink := p.ink + Text.ink t }

def indent (n : Nat) (p : Page) : Page := { p with current := Text.spaces n ++ p.current }

def newline (p : Page) : Page :=
  { p with above := (p.current.dropWhile (· == ' ')).reverse :: p.above, current := [] }

def atLineStart (p : Page) : Bool := Text.isBlankText p.current

def clearLine (p : Page) : Page := if p.atLineStart then { p with current := [] } else p

/-- A line at `n`; one that is still blank is used again. -/
def startLine (n : Nat) (p : Page) : Page :=
  (if p.atLineStart then p.clearLine else p.newline).indent n

def column (p : Page) : Nat := (p.current.takeWhile (· != '\n')).length

def pushBelow (column : Nat) (lines : List Text) (p : Page) : Page :=
  lines.foldl (fun p t => (p.newline.indent column).push t) p

/-- The first line where the page stands, the others below it at `column`. -/
def pushLines (column : Nat) (lines : List Text) (p : Page) : Page :=
  match lines with
  | [] => p
  | t :: rest => pushBelow column rest (p.push t)

def lines (p : Page) : List Text := (p.current.reverse :: p.above).reverse

/-- The lines, the last one first, without the blank ones at the end. One line remains. -/
def dropBlank : List Text → List Text
  | t :: u :: rest => if Text.isBlankText t then dropBlank (u :: rest) else t :: u :: rest
  | ts => ts

def trimmedLines (p : Page) : List Text :=
  match dropBlank (p.current.reverse :: p.above) with
  | [] => []
  | t :: rest => (Text.trimEnd t :: rest).reverse

def text (p : Page) : Text := Text.trimEnd (Text.join ['\n'] p.lines)

end Page

/-- The lines as one, with single spaces between those that are not blank. -/
def collapse (lines : List Text) : Text :=
  Text.join [' '] ((lines.map Text.trim).filter fun t => !t.isEmpty)

end SqlLayout
