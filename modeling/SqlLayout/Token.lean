import SqlLayout.Clause

/-! Tokens and what the layout asks about a single one. -/

set_option autoImplicit false

namespace SqlLayout

/-- Quoted tokens keep their quotes; the text of a comment is what its marks enclose. -/
inductive Token where
  | keyword (k : Keyword)
  | identifier (t : Text)
  | quotedName (t : Text)
  | string (t : Text)
  | number (t : Text)
  | operator (t : Text)
  | comma
  | semicolon
  | dot
  | openParen
  | closeParen
  | lineComment (t : Text)
  | blockComment (t : Text)
  | gap (t : Text)
  deriving DecidableEq, Repr

namespace Token

def isGap : Token → Bool
  | .gap _ => true
  | _ => false

def isComment : Token → Bool
  | .lineComment _ | .blockComment _ => true
  | _ => false

def ends (c : Clause) : Token → Bool
  | .keyword k => c.ends k
  | .semicolon => true
  | _ => false

def breaksBefore : Token → Bool
  | .keyword k => k.breaksBefore
  | _ => false

def introducesSubselect : Token → Bool
  | .keyword k => k.introducesSubselect
  | _ => false

def isDecode : Token → Bool
  | .identifier t => Text.sameLetters t "decode".toList
  | _ => false

end Token

end SqlLayout
