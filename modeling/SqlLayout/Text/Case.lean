import SqlLayout.Text.Blank
import SqlLayout.Text.CaseTable

/-! Upper and lower case of a text by the full Unicode mappings. A letter may become several
(`ß` is raised to `SS`), and a capital sigma is lowered by its place in the word.
-/

set_option autoImplicit false

namespace SqlLayout.Text

def Run.has (r : Run) (n : Nat) : Bool :=
  r.first ≤ n && n ≤ r.last && (n - r.first) % r.step == 0

def Run.apply (r : Run) (n : Nat) : Char := Char.ofNat (Int.toNat (n + r.shift))

def mapped (expansions : List (Nat × List Nat)) (runs : List Run) (c : Char) : Text :=
  match expansions.lookup c.toNat with
  | some ns => ns.map Char.ofNat
  | none =>
    match runs.find? fun r => r.has c.toNat with
    | some r => [r.apply c.toNat]
    | none => [c]

def upperChar (c : Char) : Text :=
  if isAscii c then [c.toUpper] else mapped upperExpansions upperRuns c

def lowerChar (c : Char) : Text :=
  if isAscii c then [c.toLower] else mapped lowerExpansions lowerRuns c

def upper (t : Text) : Text := t.flatMap upperChar

def inRanges (ranges : List (Nat × Nat)) (c : Char) : Bool :=
  ranges.any fun r => r.1 ≤ c.toNat && c.toNat ≤ r.2

def isIgnorable (c : Char) : Bool := inRanges ignorableRanges c

def isCased (c : Char) : Bool := inRanges casedRanges c

def meetsLetter (t : Text) : Bool :=
  match t.dropWhile isIgnorable with
  | c :: _ => isCased c
  | [] => false

/-- Lowers `t`, which stands after the reversed text `before`. A capital sigma at the end of a
word, with a letter before it and none after, becomes the final form. -/
def lowerAfter (before : Text) : Text → Text
  | [] => []
  | c :: rest =>
    (if c == 'Σ' then
      if meetsLetter before && !meetsLetter rest then ['ς'] else ['σ']
    else lowerChar c) ++ lowerAfter (c :: before) rest

def lower (t : Text) : Text := lowerAfter [] t

end SqlLayout.Text
