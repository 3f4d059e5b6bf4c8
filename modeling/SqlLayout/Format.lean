import SqlLayout.Command
import SqlLayout.Layout.Arrange
import SqlLayout.Layout.Write
import SqlLayout.Token.Scan

/-! Laying out a statement, from its tokens or from its text. -/

set_option autoImplicit false

namespace SqlLayout

def isCommand : List Token → Bool
  | .identifier t :: _ => isVerb t
  | _ => false

def commandText (source : Text) : Text :=
  let t := Text.trim source
  if t.getLast? = some ';' then t.dropLast else t

/-- A client command, laid out from its text. Of its tokens only a closing semicolon counts. -/
def formatCommand (o : Options) (ts : List Token) (source : Text) : Text :=
  let page := Page.blank.pushLines 0 (Command.parse (commandText source)).lines
  let d := { Draft.blank with page }
  (if ts.getLast? = some .semicolon then d.word o false .semicolon else d).text

/-- Lays out a statement that is given by its tokens and, for a client command, by its text. -/
def formatTokens (o : Options) (tokens : List Token) (source : Text) : Except FormatError Text :=
  let ts := tokens.filter fun t => !t.isGap
  if ts.isEmpty then .ok []
  else if isCommand ts then .ok (formatCommand o ts source)
  else do
    checkQuotes ts
    checkBalance 0 ts
    let items ← arrange o.nestingLimit o.nestingLimit .statement ts
    return (writeAll o false items Draft.blank).text

/-- Lays out one statement; a failure gives back its text. -/
def tryFormat (o : Options) (sql : String) : Except Failure String :=
  match formatTokens o (tokenize sql.toList) sql.toList with
  | .ok t => .ok (String.ofList t)
  | .error e => .error ⟨e, sql⟩

def format (o : Options) (sql : String) : String :=
  match tryFormat o sql with
  | .ok t => t
  | .error f => f.source

/-- Lays out one statement with a limit for subselects and the functions of the database. -/
def formatStatement (sql : String) (subselectLimit : Nat) (functions : List String) :
    Except Failure String :=
  tryFormat ({ subselectLimit : Options }.withFunctions (functions.map String.toList)) sql

end SqlLayout
