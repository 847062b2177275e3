import QueryExpr.Expr

/-!
# The nodes of an expression

* `Expr.walk`: the expression and all its parts, each before its own parts.
* `Expr.members`: the members among them, in the order of the query.
-/

namespace QueryExpr.Expr

/-- The expression and all its parts, each before its own parts, from left to right (`walk`). -/
def walk : Expr → List Expr
  | member m => [member m]
  | literal l => [literal l]
  | call name args => call name args :: walkAll args
  | binary left op right => binary left op right :: (left.walk ++ right.walk)
  | unary op inner => unary op inner :: inner.walk
  | collection items => collection items :: walkAll items
where
  /-- The parts of several expressions, one after the other. -/
  walkAll : List Expr → List Expr
    | [] => []
    | e :: es => e.walk ++ walkAll es

/-- The member that an expression is. -/
def member? : Expr → Option Member
  | member m => some m
  | _ => none

/-- All members of the expression, in the order of the query (`members`). -/
def members (e : Expr) : List Member := e.walk.filterMap member?

end QueryExpr.Expr
