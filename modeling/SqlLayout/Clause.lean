import SqlLayout.Keyword

/-! Clauses: the keywords that end each, and the column where its lines go on. -/

set_option autoImplicit false

namespace SqlLayout

inductive Clause where
  | select
  | set
  | groupBy
  | condition
  | source
  deriving DecidableEq, Repr

namespace Clause

def ends : Clause → Keyword → Bool
  | .select => fun
    | .FROM | .INTO | .WHERE | .GROUP_BY | .ORDER_BY | .HAVING | .UNION | .UNION_ALL | .MINUS
    | .INTERSECT | .EXCEPT => true
    | _ => false
  | .set => fun
    | .FROM | .WHERE | .RETURNING => true
    | _ => false
  | .groupBy => fun
    | .ORDER_BY | .HAVING | .UNION | .UNION_ALL | .MINUS | .INTERSECT | .EXCEPT | .FOR => true
    | _ => false
  | .condition => fun
    | .ORDER_BY | .GROUP_BY | .HAVING | .UNION | .UNION_ALL | .MINUS | .INTERSECT | .EXCEPT
    | .FOR => true
    | _ => false
  | .source => fun
    | .WHERE | .ORDER_BY | .GROUP_BY | .HAVING | .UNION | .UNION_ALL | .MINUS | .INTERSECT
    | .EXCEPT | .FOR => true
    | _ => false

def indent : Clause → Nat
  | .select => 7
  | .set => 4
  | .groupBy => 9
  | .condition => 0
  | .source => 5

end Clause

end SqlLayout
