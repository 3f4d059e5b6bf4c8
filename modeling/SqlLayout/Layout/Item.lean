import SqlLayout.Token

/-! What a page is made of: words, remarks, line ends, and passages that are laid out on a page
of their own and then set into the text.
-/

set_option autoImplicit false

namespace SqlLayout

inductive Item where
  | word (t : Token)
  /-- A line comment, on a line of its own; the next line starts at `indent`. -/
  | remark (t : Text) (indent : Nat)
  | newline
  /-- A new line at `indent`, unless the present one is still blank. -/
  | startLine (indent : Nat)
  /-- A passage whose lines go under its first character. Strings in a `flat` one lose their
  line ends. -/
  | inset (flat : Bool) (body : List Item)
  /-- A passage that goes on one line when it is short. -/
  | query (body : List Item)
  /-- Elements with commas between them, one on a line when there are many. -/
  | elements (parts : List (List Item))
  /-- Bracketed definitions, one on a line, each headed by its name. -/
  | definitions (parts : List (List Item))

namespace Item

mutual

def tokens : Item → List Token
  | .word t => [t]
  | .remark t _ => [.lineComment t]
  | .newline | .startLine _ => []
  | .inset _ body | .query body => allTokens body
  | .elements parts => partTokens parts
  | .definitions parts => .openParen :: partTokens parts ++ [.closeParen]

def allTokens : List Item → List Token
  | [] => []
  | i :: rest => i.tokens ++ allTokens rest

def partTokens : List (List Item) → List Token
  | [] => []
  | [part] => allTokens part
  | part :: rest => allTokens part ++ .comma :: partTokens rest

end

/-- Tokens with single spaces and nothing else: what is written where no layout was found. -/
def echo (indent : Nat) (ts : List Token) : List Item :=
  ts.map fun
    | .lineComment t => .remark t indent
    | t => .word t

@[simp] theorem allTokens_append (a b : List Item) :
    allTokens (a ++ b) = allTokens a ++ allTokens b := by
  induction a with
  | nil => rfl
  | cons i a ih => simp [allTokens, ih]

@[simp] theorem allTokens_echo (indent : Nat) (ts : List Token) :
    allTokens (echo indent ts) = ts := by
  induction ts with
  | nil => rfl
  | cons t ts ih => cases t <;> simp_all [echo, allTokens, tokens]

end Item

end SqlLayout
