import SqlLayout.Token.Quoted

/-! Reading a statement into tokens. Every reader splits its text: what it takes and what it
leaves make up the text again, so nothing is lost and reading comes to an end.
-/

set_option autoImplicit false

namespace SqlLayout.Scan

def isWordStart (c : Char) : Bool :=
  c.isAlpha || c == '_' || c == '@' || c == '#' || !Text.isAscii c

def isWordChar (c : Char) : Bool :=
  c.isAlphanum || c == '_' || c == '$' || c == '#' || c == '@' || !Text.isAscii c

/-- Takes a beginning of a text and leaves the rest. -/
abbrev Reader := Text → Text × Text

namespace Reader

def Splits (f : Reader) : Prop := ∀ cs, (f cs).1 ++ (f cs).2 = cs

def run (p : Char → Bool) : Reader := fun cs => (cs.takeWhile p, cs.dropWhile p)

theorem splits_run (p : Char → Bool) : Splits (run p) := fun _ =>
  List.takeWhile_append_dropWhile

def andThen (f g : Reader) : Reader := fun cs =>
  let (a, r) := f cs
  let (b, r) := g r
  (a ++ b, r)

theorem Splits.andThen {f g : Reader} (hf : f.Splits) (hg : g.Splits) :
    (f.andThen g).Splits := fun cs => by
  simp only [Reader.andThen, List.append_assoc, hg (f cs).2, hf cs]

end Reader

open Reader

def digits : Reader := run Char.isDigit

def startsWithDigit : Text → Bool
  | c :: _ => c.isDigit
  | [] => false

def fraction : Reader
  | '.' :: rest => if startsWithDigit rest then ('.' :: (digits rest).1, (digits rest).2)
    else ([], '.' :: rest)
  | cs => ([], cs)

def sign : Reader
  | c :: rest => if c == '+' || c == '-' then ([c], rest) else ([], c :: rest)
  | [] => ([], [])

def exponent : Reader
  | c :: rest =>
    let (s, r) := sign rest
    if (c == 'e' || c == 'E') && startsWithDigit r then (c :: s ++ (digits r).1, (digits r).2)
    else ([], c :: rest)
  | [] => ([], [])

def numberEnding : Reader := run fun c => c.isAlphanum || c == '_'

def afterDigit : Reader := ((digits.andThen fraction).andThen exponent).andThen numberEnding

def afterPoint : Reader := (digits.andThen exponent).andThen numberEnding

/-- The rest of a quotation, with its closing quote; without one, everything. -/
def quotation (quote : Char) (escapes : Bool) : Reader := fun cs =>
  (Quoted.close? quote escapes cs).getD (cs, [])

theorem splits_fraction : fraction.Splits := fun cs => by
  unfold fraction
  split
  · split
    · exact congrArg ('.' :: ·) (splits_run Char.isDigit _)
    · rfl
  · rfl

theorem splits_sign : sign.Splits := fun cs => by
  unfold sign
  split <;> try split
  all_goals rfl

theorem splits_exponent : exponent.Splits := fun cs => by
  unfold exponent
  split
  · rename_i c rest
    simp only
    split
    · have hd : (digits (sign rest).2).1 ++ (digits (sign rest).2).2 = (sign rest).2 :=
        splits_run Char.isDigit _
      simp only [List.cons_append, List.append_assoc, hd, splits_sign rest]
    · rfl
  · rfl

theorem splits_afterDigit : afterDigit.Splits :=
  (((splits_run _).andThen splits_fraction).andThen splits_exponent).andThen (splits_run _)

theorem splits_afterPoint : afterPoint.Splits :=
  ((splits_run _).andThen splits_exponent).andThen (splits_run _)

theorem splits_quotation (quote : Char) (escapes : Bool) : (quotation quote escapes).Splits :=
  fun cs => by
    unfold quotation
    cases h : Quoted.close? quote escapes cs with
    | none => simp
    | some r => exact Quoted.close?_append h

/-- The text behind the given words, each after blanks and in any letter case. -/
def afterWords? : List String → Text → Option Text
  | [], cs => some cs
  | w :: ws, cs =>
    let start := cs.dropWhile Text.isGap
    if Text.sameLetters (start.takeWhile isWordChar) w.toList then
      afterWords? ws (start.dropWhile isWordChar)
    else none

theorem afterWords?_suffix {ws : List String} {cs rest : Text}
    (h : afterWords? ws cs = some rest) : rest <:+ cs := by
  fun_induction afterWords? ws cs with
  | case1 => simp_all
  | case2 cs w ws start _ ih =>
    exact (ih h).trans ((List.dropWhile_suffix _).trans (List.dropWhile_suffix _))
  | case3 => simp at h

def keyword (k : Keyword) (cs : Text) : Token × Text :=
  match k.continuations.findSome? fun (ws, long) => (afterWords? ws cs).map (long, ·) with
  | some (long, rest) => (.keyword long, rest)
  | none => (.keyword k, cs)

/-- A word from its first letter `c` on: a keyword, a name, or a marked string. -/
def word (c : Char) (cs : Text) : Token × Text :=
  match run isWordChar cs with
  | ([], '\'' :: rest) =>
    if Quoted.isMark c then
      let (body, after) := quotation '\'' (Quoted.marksEscapes c) rest
      (.string (c :: '\'' :: body), after)
    else (.identifier [c], '\'' :: rest)
  | (w, rest) =>
    match Keyword.ofWord? (c :: w) with
    | some k => keyword k rest
    | none => (.identifier (c :: w), rest)

/-- After a dollar sign: a dollar-quoted string, a parameter, or the sign itself. -/
def dollar (cs : Text) : Token × Text :=
  match Quoted.delimiter? ('$' :: cs) with
  | some d =>
    match Quoted.around? d (cs.drop (d.length - 1)) with
    | some (body, after) => (.string (d ++ body ++ d), after)
    | none => (.string ('$' :: cs), [])
  | none =>
    match run isWordChar cs with
    | ([], rest) => (.operator ['$'], rest)
    | (w, rest) => (.identifier ('$' :: w), rest)

def blockComment (cs : Text) : Token × Text :=
  match Quoted.around? ['*', '/'] cs with
  | some (body, after) => (.blockComment body, after)
  | none => (.blockComment cs, [])

def longOperators : List Text :=
  ["->>", "<>", "!=", "<=", ">=", "||", "::", ":=", "=>", "->"].map String.toList

def operator (c : Char) (cs : Text) : Token × Text :=
  match longOperators.find? fun o => o.isPrefixOf (c :: cs) with
  | some o => (.operator o, cs.drop (o.length - 1))
  | none => (.operator [c], cs)

def startsWord : Text → Bool
  | c :: _ => isWordStart c
  | [] => false

def next (c : Char) (cs : Text) : Token × Text :=
  if Text.isGap c then (.gap (c :: cs.takeWhile Text.isGap), cs.dropWhile Text.isGap)
  else if c == '-' && cs.head? == some '-' then
    (.lineComment (cs.tail.takeWhile (· != '\n')), cs.tail.dropWhile (· != '\n'))
  else if c == '/' && cs.head? == some '*' then blockComment cs.tail
  else if c == '\'' then (.string (c :: (quotation c false cs).1), (quotation c false cs).2)
  else if c == '"' || c == '\x60' then
    (.quotedName (c :: (quotation c false cs).1), (quotation c false cs).2)
  else if c == '$' then dollar cs
  else if c.isDigit then (.number (c :: (afterDigit cs).1), (afterDigit cs).2)
  else if c == '.' && startsWithDigit cs then
    (.number (c :: (afterPoint cs).1), (afterPoint cs).2)
  else if c == ',' then (.comma, cs)
  else if c == ';' then (.semicolon, cs)
  else if c == '.' then (.dot, cs)
  else if c == '(' then (.openParen, cs)
  else if c == ')' then (.closeParen, cs)
  else if c == ':' && startsWord cs then
    (.identifier (c :: cs.takeWhile isWordChar), cs.dropWhile isWordChar)
  else if isWordStart c then word c cs
  else operator c cs

theorem Reader.Splits.suffix {f : Reader} (hf : f.Splits) (cs : Text) : (f cs).2 <:+ cs :=
  ⟨(f cs).1, hf cs⟩

theorem keyword_suffix (k : Keyword) (cs : Text) : (keyword k cs).2 <:+ cs := by
  unfold keyword
  split
  · rename_i long rest h
    obtain ⟨⟨ws, l⟩, _, hr⟩ := List.exists_of_findSome?_eq_some h
    obtain ⟨r, hw, he⟩ := Option.map_eq_some_iff.1 hr
    cases he
    exact afterWords?_suffix hw
  · exact List.suffix_rfl

theorem word_suffix (c : Char) (cs : Text) : (word c cs).2 <:+ cs := by
  unfold word
  have hr : (run isWordChar cs).2 <:+ cs := (splits_run isWordChar).suffix cs
  split
  · rename_i rest h
    rw [h] at hr
    split
    · exact ((splits_quotation _ _).suffix rest).trans ((List.suffix_cons _ _).trans hr)
    · exact hr
  · rename_i w rest _ h
    rw [h] at hr
    split
    · exact (keyword_suffix _ _).trans hr
    · exact hr

theorem around?_suffix {d t body after : Text}
    (h : Quoted.around? d t = some (body, after)) : after <:+ t :=
  ⟨body ++ d, Quoted.around?_append h⟩

theorem dollar_suffix (cs : Text) : (dollar cs).2 <:+ cs := by
  unfold dollar
  split
  · split
    · rename_i h
      exact (around?_suffix h).trans (List.drop_suffix _ _)
    · exact List.nil_suffix
  · have hr : (run isWordChar cs).2 <:+ cs := (splits_run isWordChar).suffix cs
    split <;> simp_all

theorem blockComment_suffix (cs : Text) : (blockComment cs).2 <:+ cs := by
  unfold blockComment
  split
  · rename_i h
    exact around?_suffix h
  · exact List.nil_suffix

theorem operator_suffix (c : Char) (cs : Text) : (operator c cs).2 <:+ cs := by
  unfold operator
  split
  · exact List.drop_suffix _ _
  · exact List.suffix_rfl

theorem next_suffix (c : Char) (cs : Text) : (next c cs).2 <:+ cs := by
  have htail : cs.tail <:+ cs := List.tail_suffix cs
  fun_cases next c cs
  · exact List.dropWhile_suffix _
  · exact (List.dropWhile_suffix _).trans htail
  · exact (blockComment_suffix _).trans htail
  · exact (splits_quotation _ _).suffix cs
  · exact (splits_quotation _ _).suffix cs
  · exact dollar_suffix cs
  · exact splits_afterDigit.suffix cs
  · exact splits_afterPoint.suffix cs
  · exact List.suffix_rfl
  · exact List.suffix_rfl
  · exact List.suffix_rfl
  · exact List.suffix_rfl
  · exact List.suffix_rfl
  · exact List.dropWhile_suffix _
  · exact word_suffix c cs
  · exact operator_suffix c cs

end SqlLayout.Scan

namespace SqlLayout

open Scan in
def tokenize : Text → List Token
  | [] => []
  | c :: cs =>
    have := (next_suffix c cs).length_le
    (next c cs).1 :: tokenize (next c cs).2
termination_by t => t.length
decreasing_by simp only [List.length_cons]; omega

end SqlLayout
