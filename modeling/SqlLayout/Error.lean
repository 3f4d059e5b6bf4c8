/-! Why a statement or a part of it cannot be laid out. -/

set_option autoImplicit false

namespace SqlLayout

inductive Construct where
  | string
  | quotedName
  | caseExpression
  deriving DecidableEq, Repr

def Construct.name : Construct → String
  | .string => "string literal"
  | .quotedName => "quoted identifier"
  | .caseExpression => "CASE"

inductive FormatError where
  /-- Brackets opened less brackets closed; negative when one closes too many. -/
  | unbalancedBracket (depth : Int)
  | unterminated (what : Construct)
  | tooDeeplyNested (limit : Nat)
  deriving DecidableEq, Repr

def FormatError.message : FormatError → String
  | .unbalancedBracket depth => "unbalanced bracket (net depth " ++ toString depth ++ ")"
  | .unterminated what => "unterminated " ++ what.name
  | .tooDeeplyNested limit => "nesting exceeds the limit of " ++ toString limit ++ " levels"

/-- A statement that could not be laid out, with its text untouched. -/
structure Failure where
  error : FormatError
  source : String
  deriving DecidableEq, Repr

def Failure.message (f : Failure) : String := "cannot format statement: " ++ f.error.message

end SqlLayout
