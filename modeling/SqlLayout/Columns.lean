import SqlLayout.Text.Blank

/-! Column definitions under each other: names to the left, the rest aligned behind them. -/

set_option autoImplicit false

namespace SqlLayout

/-- A name and what is said about it. -/
structure Definition where
  name : Text
  rest : Text
  deriving DecidableEq, Repr

namespace Definition

def width (ds : List Definition) : Nat := (ds.map fun d => d.name.length).foldl max 0 + 2

def line (indent width : Nat) (d : Definition) : Text :=
  Text.spaces indent ++ d.name ++
    if d.rest.isEmpty then [] else Text.spaces (width - d.name.length) ++ d.rest

def withCommas : List Text → List Text
  | [] => []
  | [t] => [t]
  | t :: rest => (t ++ [',']) :: withCommas rest

def align (ds : List Definition) (indent : Nat) : List Text :=
  withCommas (ds.map (line indent (width ds)))

end Definition

end SqlLayout
