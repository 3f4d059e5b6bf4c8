import SqlLayout.Text.Case

/-! Client commands such as `WbExport -type=text`. They are no statements of the query language:
a verb, its arguments, and options that each get a line of their own.
-/

set_option autoImplicit false

namespace SqlLayout

/-- The letters `wb` in any case and at least one more letter. -/
def isVerb : Text → Bool
  | w :: b :: c :: rest =>
    (w == 'w' || w == 'W') && (b == 'b' || b == 'B') && (c :: rest).all Char.isAlpha
  | _ => false

namespace Command

/-- An option word, its value behind an equals sign, and the words that follow it. -/
structure Setting where
  name : Text
  assigned : Option Text
  values : List Text
  deriving DecidableEq, Repr

end Command

structure Command where
  verb : Text
  arguments : List Text
  settings : List Command.Setting
  deriving DecidableEq, Repr

namespace Command

/-- The words of a text, which blanks outside quotes divide. `current` is the word being read,
reversed, and `quote` the quote that it has open. -/
def wordsFrom (current : Text) (quote : Option Char) : Text → List Text
  | [] => if current.isEmpty then [] else [current.reverse]
  | c :: rest =>
    match quote with
    | some q => wordsFrom (c :: current) (if c = q then none else some q) rest
    | none =>
      if Text.isBlank c then
        if current.isEmpty then wordsFrom [] none rest
        else current.reverse :: wordsFrom [] none rest
      else wordsFrom (c :: current) (if c = '\'' || c = '"' then some c else none) rest

def words (t : Text) : List Text := wordsFrom [] none t

def isSetting : Text → Bool
  | '-' :: _ :: _ => true
  | _ => false

def Setting.ofWord (w : Text) (values : List Text) : Setting :=
  match w.dropWhile (· != '=') with
  | _ :: value => ⟨w.takeWhile (· != '='), some value, values⟩
  | [] => ⟨w, none, values⟩

def group : List Text → List Text × List Setting
  | [] => ([], [])
  | w :: rest =>
    let (free, settings) := group rest
    if isSetting w then ([], Setting.ofWord w free :: settings) else (w :: free, settings)

def parse (t : Text) : Command :=
  match words t with
  | [] => ⟨[], [], []⟩
  | verb :: rest => ⟨verb, (group rest).1, (group rest).2⟩

/-- The first two bytes of the verb are raised and the rest is lowered. A verb that has no
character boundary there stays as it is. -/
def verbText (v : Text) : Text :=
  match v with
  | c :: rest =>
    if c.utf8Size = 2 then Text.upper [c] ++ Text.lower rest
    else
      match rest with
      | d :: rest =>
        if c.utf8Size = 1 && d.utf8Size = 1 then Text.upper [c, d] ++ Text.lower rest else v
      | [] => v
  | [] => v

def isQuoted : Text → Bool
  | c :: _ => c == '\'' || c == '"'
  | [] => false

def valueText (v : Text) : Text := if isQuoted v then v else Text.lower v

def Setting.line (s : Setting) : Text :=
  Text.spaces 2 ++ s.name ++ (s.assigned.elim [] fun v => '=' :: valueText v) ++
    s.values.flatMap fun v => ' ' :: valueText v

def lines (c : Command) : List Text :=
  (verbText c.verb ++ c.arguments.flatMap fun a => ' ' :: a) :: c.settings.map Setting.line

end Command

end SqlLayout
