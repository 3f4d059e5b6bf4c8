import SqlLayout.Token

/-! Quoted text: where a quotation ends, and whether a quoted token is complete. -/

set_option autoImplicit false

namespace SqlLayout.Quoted

/-- Splits the text after an opening quote behind the closing one. A doubled quote does not
close, nor does a character after a backslash where `escapes` holds. -/
def close? (quote : Char) (escapes : Bool) : Text → Option (Text × Text)
  | [] => none
  | [c] => if (escapes && c == '\\') || c != quote then none else some ([c], [])
  | c :: d :: rest =>
    if escapes && c == '\\' then
      (close? quote escapes rest).map fun (body, after) => (c :: d :: body, after)
    else if c != quote then
      (close? quote escapes (d :: rest)).map fun (body, after) => (c :: body, after)
    else if d == quote then
      (close? quote escapes rest).map fun (body, after) => (c :: d :: body, after)
    else some ([c], d :: rest)

theorem close?_append {quote : Char} {escapes : Bool} {t body after : Text}
    (h : close? quote escapes t = some (body, after)) : body ++ after = t := by
  fun_induction close? quote escapes t generalizing body after <;>
    simp_all [Option.map_eq_some_iff] <;> grind

/-- The letters that may stand before a string: national, escaped, hexadecimal and bit text. -/
def isMark (c : Char) : Bool :=
  c == 'N' || c == 'n' || c == 'E' || c == 'e' || c == 'X' || c == 'x' || c == 'B' || c == 'b'

def marksEscapes (c : Char) : Bool := c == 'E' || c == 'e'

def isTagChar (c : Char) : Bool := c.isAlpha || c == '_'

def delimiter? : Text → Option Text
  | '$' :: rest =>
    match rest.dropWhile isTagChar with
    | '$' :: _ => some ('$' :: rest.takeWhile isTagChar ++ ['$'])
    | _ => none
  | _ => none

def around? (d : Text) : Text → Option (Text × Text)
  | [] => if d.isEmpty then some ([], []) else none
  | c :: rest =>
    if d.isPrefixOf (c :: rest) then some ([], (c :: rest).drop d.length)
    else (around? d rest).map fun (body, after) => (c :: body, after)

theorem around?_append {d t body after : Text} (h : around? d t = some (body, after)) :
    body ++ d ++ after = t := by
  fun_induction around? d t generalizing body after with
  | case1 hd => simp_all
  | case2 => simp at h
  | case3 c rest hd =>
    obtain ⟨tail, ht⟩ := List.isPrefixOf_iff_prefix.1 hd
    simp only [Option.some.injEq, Prod.mk.injEq] at h
    obtain ⟨rfl, rfl⟩ := h
    simp [← ht]
  | case4 c rest hd ih =>
    obtain ⟨⟨b, a⟩, hb, he⟩ := Option.map_eq_some_iff.1 h
    simp only [Prod.mk.injEq] at he
    obtain ⟨rfl, rfl⟩ := he
    simp [← ih hb]

/-- The first character is a quote and the quotation closes exactly at the end. A character
outside ASCII is no quote. -/
def closesAtEnd (escapes : Bool) : Text → Bool
  | [] => false
  | q :: rest =>
    match close? q escapes rest with
    | some (_, []) => Text.isAscii q
    | _ => false

def isClosed (t : Text) : Bool :=
  match delimiter? t with
  | some d => 2 * d.length ≤ t.length && d.isSuffixOf t
  | none =>
    match t with
    | [] => false
    | c :: rest => if isMark c then closesAtEnd (marksEscapes c) rest else closesAtEnd false t

end SqlLayout.Quoted
