import QueryExpr.Expr

/-!
# Writing expressions

An operand stands in parentheses where the tree would be another one without them:
on the left if it binds less tightly than its operator, on the right also if it
binds as tightly, and behind unary minus unless it is a member or a call, since
`-5` is a literal (specification, 4.3).

* `Expr.text`: the expression as it is written in a query.
-/

namespace QueryExpr.Expr

/-- The precedence of what is no operator. -/
def tightest : Nat := 8

/-- How tightly the parts of an expression hold together (`precedence`); a larger number is
    tighter. -/
def precedence : Expr → Nat
  | binary _ op _ | unary op _ => op.precedence
  | _ => tightest

/-- Whether unary minus can stand in front of the expression without parentheses. -/
def isReference : Expr → Bool
  | member _ | call _ _ => true
  | _ => false

/-- Whether the expression has to stand in parentheses left of an operator. -/
def wrapsLeft (e : Expr) (op : Operator) : Bool := e.precedence < op.precedence

/-- Whether the expression has to stand in parentheses right of an operator. -/
def wrapsRight (e : Expr) (op : Operator) : Bool := e.precedence ≤ op.precedence

/-- Whether the expression has to stand in parentheses behind a unary operator. -/
def wrapsBehind (e : Expr) (op : Operator) : Bool :=
  if op = .neg then !e.isReference else e.precedence < op.precedence

/-- An operand, in parentheses if it has to be (`write_operand`). -/
def operand (wraps : Bool) (text : String) : String :=
  if wraps then "(" ++ text ++ ")" else text

/-- A unary operator and the space behind it, if there is one. -/
def opening (op : Operator) : String :=
  if op = .neg then op.keyword else op.keyword ++ " "

/-- The expression as it is written in a query (the `Display` of `Expr`). -/
def text : Expr → String
  | member m => m.text
  | literal l => l.text
  | call name args => name ++ "(" ++ commaSeparated args ++ ")"
  | binary left op right =>
    operand (left.wrapsLeft op) left.text ++ " " ++ op.keyword ++ " " ++
      operand (right.wrapsRight op) right.text
  | unary op inner => opening op ++ operand (inner.wrapsBehind op) inner.text
  | collection items => "(" ++ commaSeparated items ++ ")"
where
  /-- Expressions with commas between them. -/
  commaSeparated : List Expr → String
    | [] => ""
    | [e] => e.text
    | e :: f :: es => e.text ++ "," ++ commaSeparated (f :: es)

end QueryExpr.Expr
