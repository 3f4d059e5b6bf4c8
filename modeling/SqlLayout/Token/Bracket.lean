import SqlLayout.Error
import SqlLayout.Token.Quoted

/-! Brackets, `CASE … END` and commas in a list of tokens: finding the end of what was opened,
dividing a list, and the two checks that a statement has to pass.
-/

set_option autoImplicit false

namespace SqlLayout

/-- What stands between an opening bracket and the one that closes it, and what follows.
`depth` counts the brackets opened in between; where the tokens end too early, it is reported. -/
def group (depth : Nat) : List Token → Except FormatError (List Token × List Token)
  | [] => .error (.unbalancedBracket (depth + 1))
  | t :: rest =>
    match t, depth with
    | .closeParen, 0 => .ok ([], rest)
    | .closeParen, d + 1 => (group d rest).map fun (inner, after) => (t :: inner, after)
    | .openParen, d => (group (d + 1) rest).map fun (inner, after) => (t :: inner, after)
    | _, d => (group d rest).map fun (inner, after) => (t :: inner, after)

/-- What stands behind `CASE` up to and including its `END`, and what follows. `depth` counts the
`CASE`s opened in between. -/
def caseEnd? (depth : Nat) : List Token → Option (List Token × List Token)
  | [] => none
  | t :: rest =>
    match t, depth with
    | .keyword .END, 0 => some ([t], rest)
    | .keyword .END, d + 1 => (caseEnd? d rest).map fun (inner, after) => (t :: inner, after)
    | .keyword .CASE, d => (caseEnd? (d + 1) rest).map fun (inner, after) => (t :: inner, after)
    | _, d => (caseEnd? d rest).map fun (inner, after) => (t :: inner, after)

/-- Every bracket pairs up, `depth` of them being open already. -/
def checkBalance (depth : Nat) : List Token → Except FormatError Unit
  | [] => if depth = 0 then .ok () else .error (.unbalancedBracket depth)
  | t :: rest =>
    match t, depth with
    | .openParen, d => checkBalance (d + 1) rest
    | .closeParen, 0 => .error (.unbalancedBracket (-1))
    | .closeParen, d + 1 => checkBalance d rest
    | _, d => checkBalance d rest

def checkQuotes : List Token → Except FormatError Unit
  | [] => .ok ()
  | .string t :: rest =>
    if Quoted.isClosed t then checkQuotes rest else .error (.unterminated .string)
  | .quotedName t :: rest =>
    if Quoted.isClosed t then checkQuotes rest else .error (.unterminated .quotedName)
  | _ :: rest => checkQuotes rest

def splitFrom (depth : Nat) : List Token → List Token × List (List Token)
  | [] => ([], [])
  | t :: rest =>
    match t, depth with
    | .comma, 0 =>
      let (part, parts) := splitFrom 0 rest
      ([], part :: parts)
    | .openParen, d =>
      let (part, parts) := splitFrom (d + 1) rest
      (t :: part, parts)
    | .closeParen, d =>
      let (part, parts) := splitFrom (d - 1) rest
      (t :: part, parts)
    | _, d =>
      let (part, parts) := splitFrom d rest
      (t :: part, parts)

def splitCommas (ts : List Token) : List (List Token) :=
  if ts.isEmpty then []
  else
    let (part, parts) := splitFrom 0 ts
    part :: parts

def startsQuery (ts : List Token) : Bool :=
  match ts.find? fun t => !t.isComment with
  | some (.keyword .SELECT) | some (.keyword .WITH) => true
  | _ => false

theorem map_map {ε α β γ : Type} (x : Except ε α) (f : α → β) (g : β → γ) :
    (x.map f).map g = x.map fun a => g (f a) := by
  cases x <;> rfl

theorem map_eq_ok {ε α β : Type} {f : α → β} {x : Except ε α} {y : β}
    (h : x.map f = .ok y) : ∃ a, x = .ok a ∧ f a = y := by
  cases x with
  | error e => cases h
  | ok a => exact ⟨a, rfl, by injection h⟩

theorem group_eq_append {depth : Nat} {ts inner after : List Token}
    (h : group depth ts = .ok (inner, after)) : ts = inner ++ .closeParen :: after := by
  fun_induction group depth ts generalizing inner with
  | case1 => cases h
  | case2 => cases h; rfl
  | case3 _ _ ih | case4 _ _ ih | case5 _ _ _ _ _ _ ih =>
    obtain ⟨⟨x, y⟩, hrest, heq⟩ := map_eq_ok h
    cases heq
    rw [ih hrest]
    rfl

theorem caseEnd?_eq_append {depth : Nat} {ts inner after : List Token}
    (h : caseEnd? depth ts = some (inner, after)) : ts = inner ++ after := by
  fun_induction caseEnd? depth ts generalizing inner <;> simp_all [Option.map_eq_some_iff] <;> grind

end SqlLayout
