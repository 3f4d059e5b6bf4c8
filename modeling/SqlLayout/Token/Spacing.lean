import SqlLayout.Token

/-! The one space that is or is not written between two tokens on a line. -/

set_option autoImplicit false

namespace SqlLayout

namespace Token

def isTight : Token → Bool
  | .operator t => t == [':', ':'] || t == ['-', '>'] || t == ['-', '>', '>']
  | _ => false

/-- The two characters of a comparison that are written as one. -/
def joinsComparison : Token → Token → Bool
  | .operator p, .operator c =>
    (p == ['<'] || p == ['>']) && (c == ['='] || c == ['<'] || c == ['>'])
  | _, _ => false

/-- One space stands between `p` and `c` when they share a line. The first rule that speaks of
the pair decides. -/
def spaced (p c : Token) : Bool :=
  if joinsComparison p c then false
  else if p = .operator ['='] || c = .operator ['='] then true
  else if p.isTight || c.isTight then false
  else if p = .dot || c = .dot then false
  else if p = .openParen || c = .closeParen then false
  else if c = .comma || c = .semicolon then false
  else if p = .closeParen then true
  else match p, c with
    | .identifier _, .openParen | .quotedName _, .openParen => false
    | .keyword k, .openParen => !k.isCallable
    | _, _ => true

end Token

/-- A space goes before `c`, which follows `prev`; never at the start of a line. -/
def needsSpace (prev : Option Token) (c : Token) (lineStart : Bool) : Bool :=
  match prev with
  | none => false
  | some p => !lineStart && p.spaced c

end SqlLayout
