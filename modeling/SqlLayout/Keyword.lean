import SqlLayout.Text.Blank

/-! The keywords of the language and the part that each plays in the layout of a statement. -/

set_option autoImplicit false

namespace SqlLayout

inductive Keyword where
  | SELECT | FROM | WHERE | HAVING | INTO | VALUES | SET | UNION | MINUS | INTERSECT | EXCEPT
  | FOR | REFRESH | LIMIT | OFFSET | RETURNING | WITH | AND | OR | NOT | IN | EXISTS | BETWEEN
  | LIKE | IS | NULL | AS | ON | JOIN | DISTINCT | ALL | ANY | ASC | DESC | CASE | WHEN | THEN
  | ELSE | END | USING | NATURAL | TRUE | FALSE | INSERT | UPDATE | DELETE | MERGE | CREATE
  | ALTER | DROP | TRUNCATE | GRANT | REVOKE | COMMIT | ROLLBACK | TABLE | VIEW | INDEX
  | MATERIALIZED | TEMPORARY | UNIQUE | REPLACE | CONSTRAINT | REFERENCES | DEFAULT | CHECK
  | CASCADE | ORDER | GROUP | LEFT | RIGHT | INNER | OUTER | FULL | CROSS | PRIMARY | FOREIGN | IF
  | ORDER_BY | GROUP_BY | UNION_ALL | LEFT_JOIN | LEFT_OUTER_JOIN | RIGHT_JOIN | RIGHT_OUTER_JOIN
  | FULL_JOIN | FULL_OUTER_JOIN | INNER_JOIN | OUTER_JOIN | CROSS_JOIN | PRIMARY_KEY | FOREIGN_KEY
  | IF_EXISTS | IF_NOT_EXISTS
  deriving DecidableEq, Repr

namespace Keyword

def spelling : Keyword → String
  | .SELECT => "SELECT"
  | .FROM => "FROM"
  | .WHERE => "WHERE"
  | .HAVING => "HAVING"
  | .INTO => "INTO"
  | .VALUES => "VALUES"
  | .SET => "SET"
  | .UNION => "UNION"
  | .MINUS => "MINUS"
  | .INTERSECT => "INTERSECT"
  | .EXCEPT => "EXCEPT"
  | .FOR => "FOR"
  | .REFRESH => "REFRESH"
  | .LIMIT => "LIMIT"
  | .OFFSET => "OFFSET"
  | .RETURNING => "RETURNING"
  | .WITH => "WITH"
  | .AND => "AND"
  | .OR => "OR"
  | .NOT => "NOT"
  | .IN => "IN"
  | .EXISTS => "EXISTS"
  | .BETWEEN => "BETWEEN"
  | .LIKE => "LIKE"
  | .IS => "IS"
  | .NULL => "NULL"
  | .AS => "AS"
  | .ON => "ON"
  | .JOIN => "JOIN"
  | .DISTINCT => "DISTINCT"
  | .ALL => "ALL"
  | .ANY => "ANY"
  | .ASC => "ASC"
  | .DESC => "DESC"
  | .CASE => "CASE"
  | .WHEN => "WHEN"
  | .THEN => "THEN"
  | .ELSE => "ELSE"
  | .END => "END"
  | .USING => "USING"
  | .NATURAL => "NATURAL"
  | .TRUE => "TRUE"
  | .FALSE => "FALSE"
  | .INSERT => "INSERT"
  | .UPDATE => "UPDATE"
  | .DELETE => "DELETE"
  | .MERGE => "MERGE"
  | .CREATE => "CREATE"
  | .ALTER => "ALTER"
  | .DROP => "DROP"
  | .TRUNCATE => "TRUNCATE"
  | .GRANT => "GRANT"
  | .REVOKE => "REVOKE"
  | .COMMIT => "COMMIT"
  | .ROLLBACK => "ROLLBACK"
  | .TABLE => "TABLE"
  | .VIEW => "VIEW"
  | .INDEX => "INDEX"
  | .MATERIALIZED => "MATERIALIZED"
  | .TEMPORARY => "TEMPORARY"
  | .UNIQUE => "UNIQUE"
  | .REPLACE => "REPLACE"
  | .CONSTRAINT => "CONSTRAINT"
  | .REFERENCES => "REFERENCES"
  | .DEFAULT => "DEFAULT"
  | .CHECK => "CHECK"
  | .CASCADE => "CASCADE"
  | .ORDER => "ORDER"
  | .GROUP => "GROUP"
  | .LEFT => "LEFT"
  | .RIGHT => "RIGHT"
  | .INNER => "INNER"
  | .OUTER => "OUTER"
  | .FULL => "FULL"
  | .CROSS => "CROSS"
  | .PRIMARY => "PRIMARY"
  | .FOREIGN => "FOREIGN"
  | .IF => "IF"
  | .ORDER_BY => "ORDER BY"
  | .GROUP_BY => "GROUP BY"
  | .UNION_ALL => "UNION ALL"
  | .LEFT_JOIN => "LEFT JOIN"
  | .LEFT_OUTER_JOIN => "LEFT OUTER JOIN"
  | .RIGHT_JOIN => "RIGHT JOIN"
  | .RIGHT_OUTER_JOIN => "RIGHT OUTER JOIN"
  | .FULL_JOIN => "FULL JOIN"
  | .FULL_OUTER_JOIN => "FULL OUTER JOIN"
  | .INNER_JOIN => "INNER JOIN"
  | .OUTER_JOIN => "OUTER JOIN"
  | .CROSS_JOIN => "CROSS JOIN"
  | .PRIMARY_KEY => "PRIMARY KEY"
  | .FOREIGN_KEY => "FOREIGN KEY"
  | .IF_EXISTS => "IF EXISTS"
  | .IF_NOT_EXISTS => "IF NOT EXISTS"

def text (k : Keyword) : Text := k.spelling.toList

def singleWords : List Keyword :=
  [.SELECT, .FROM, .WHERE, .HAVING, .INTO, .VALUES, .SET, .UNION, .MINUS, .INTERSECT, .EXCEPT,
   .FOR, .REFRESH, .LIMIT, .OFFSET, .RETURNING, .WITH, .AND, .OR, .NOT, .IN, .EXISTS, .BETWEEN,
   .LIKE, .IS, .NULL, .AS, .ON, .JOIN, .DISTINCT, .ALL, .ANY, .ASC, .DESC, .CASE, .WHEN, .THEN,
   .ELSE, .END, .USING, .NATURAL, .TRUE, .FALSE, .INSERT, .UPDATE, .DELETE, .MERGE, .CREATE,
   .ALTER, .DROP, .TRUNCATE, .GRANT, .REVOKE, .COMMIT, .ROLLBACK, .TABLE, .VIEW, .INDEX,
   .MATERIALIZED, .TEMPORARY, .UNIQUE, .REPLACE, .CONSTRAINT, .REFERENCES, .DEFAULT, .CHECK,
   .CASCADE, .ORDER, .GROUP, .LEFT, .RIGHT, .INNER, .OUTER, .FULL, .CROSS, .PRIMARY, .FOREIGN, .IF]

def ofWord? (w : Text) : Option Keyword :=
  singleWords.find? fun k => Text.sameLetters k.text w

/-- The further words that may follow a keyword, and what they make of it. -/
def continuations : Keyword → List (List String × Keyword)
  | .ORDER => [(["BY"], .ORDER_BY)]
  | .GROUP => [(["BY"], .GROUP_BY)]
  | .UNION => [(["ALL"], .UNION_ALL)]
  | .INNER => [(["JOIN"], .INNER_JOIN)]
  | .OUTER => [(["JOIN"], .OUTER_JOIN)]
  | .CROSS => [(["JOIN"], .CROSS_JOIN)]
  | .LEFT => [(["JOIN"], .LEFT_JOIN), (["OUTER", "JOIN"], .LEFT_OUTER_JOIN)]
  | .RIGHT => [(["JOIN"], .RIGHT_JOIN), (["OUTER", "JOIN"], .RIGHT_OUTER_JOIN)]
  | .FULL => [(["JOIN"], .FULL_JOIN), (["OUTER", "JOIN"], .FULL_OUTER_JOIN)]
  | .PRIMARY => [(["KEY"], .PRIMARY_KEY)]
  | .FOREIGN => [(["KEY"], .FOREIGN_KEY)]
  | .IF => [(["EXISTS"], .IF_EXISTS), (["NOT", "EXISTS"], .IF_NOT_EXISTS)]
  | _ => []

def breaksBefore : Keyword → Bool
  | .SELECT | .FROM | .WHERE | .ORDER_BY | .GROUP_BY | .HAVING | .VALUES | .UNION | .UNION_ALL
  | .MINUS | .INTERSECT | .EXCEPT | .AS | .FOR | .SET | .REFRESH => true
  | _ => false

def breaksAfter : Keyword → Bool
  | .AS | .FOR | .JOIN => true
  | _ => false

def introducesSubselect : Keyword → Bool
  | .IN | .EXISTS => true
  | _ => false

/-- Doubles as the name of a function, as in `LEFT(name, 3)`. -/
def isCallable : Keyword → Bool
  | .LEFT | .RIGHT | .REPLACE | .IF => true
  | _ => false

def isJoin : Keyword → Bool
  | .JOIN | .LEFT_JOIN | .LEFT_OUTER_JOIN | .RIGHT_JOIN | .RIGHT_OUTER_JOIN | .FULL_JOIN
  | .FULL_OUTER_JOIN | .INNER_JOIN | .OUTER_JOIN | .CROSS_JOIN => true
  | _ => false

end Keyword

end SqlLayout
