import SqlLayout.Text.Case

/-! The settings of a layout. -/

set_option autoImplicit false

namespace SqlLayout

def insertName (t : Text) : List Text → List Text
  | [] => [t]
  | u :: rest => if t = u then u :: rest else if t < u then t :: u :: rest else u :: insertName t rest

structure Options where
  /-- Keywords are written in upper case. -/
  uppercase : Bool := true
  /-- A subselect with fewer characters than this, blanks not counted, goes on one line. -/
  subselectLimit : Nat := 60
  /-- Functions of the database, in upper case, ascending and without repetition. -/
  functions : List Text := []
  /-- Constructs nested more deeply than this are written without layout. -/
  nestingLimit : Nat := 64
  deriving DecidableEq, Repr

namespace Options

/-- Replaces the functions by those named: blanks around a name, its letter case, and names that
are blank do not count. -/
def withFunctions (o : Options) (names : List Text) : Options :=
  let written := (names.map fun n => Text.upper (Text.trim n)).filter fun n => !n.isEmpty
  { o with functions := written.foldr insertName [] }

def isFunction (o : Options) (name : Text) : Bool :=
  !o.functions.isEmpty && o.functions.contains (Text.upper name)

end Options

end SqlLayout
