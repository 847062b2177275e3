import QueryExpr.Expr.Json

/-!
# What a query text stands for

A filter is an expression, or nothing at all. An ordering is a list of expressions
with directions, a selection a list of expressions with optional names
(specification, 3).
-/

namespace QueryExpr

/-- The direction of an ordering (`OrderDirection`). -/
inductive Direction where
  | asc
  | desc
  deriving DecidableEq, Repr, Inhabited

namespace Direction

/-- The word for a direction (`as_str`). -/
def keyword : Direction → String
  | asc => "asc"
  | desc => "desc"

/-- The direction that a word stands for (`from_keyword`). -/
def ofKeyword? (word : String) : Option Direction :=
  match word with
  | "asc" => some asc
  | "desc" => some desc
  | _ => none

/-- The direction of an item that names none. -/
def standard : Direction := asc

end Direction

/-- An item of an ordering (`OrderByItem`). -/
structure OrderItem where
  expr : Expr
  direction : Direction

/-- The JSON form of an item of an ordering. -/
def OrderItem.json (item : OrderItem) : Json :=
  .object [("expr", item.expr.json), ("direction", .string item.direction.keyword)]

/-- An item of a selection (`SelectItem`). -/
structure SelectItem where
  expr : Expr
  /-- The name given to the item. -/
  alias? : Option String

/-- The JSON form of an item of a selection. -/
def SelectItem.json (item : SelectItem) : Json :=
  .object [("expr", item.expr.json), ("alias", (item.alias?.map .string).getD .null)]

end QueryExpr
