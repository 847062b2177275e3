import QueryExpr.Expr
import QueryExpr.Json

/-!
# Expressions in JSON

Each node is an object with one field, named for its kind, as it is serialised
(specification, 3 and 10.4).

* `Literal.json`, `Member.json`, `Expr.json`: the JSON form of each.
-/

namespace QueryExpr

/-- The form of a moment, which names it in JSON. -/
def Temporal.Moment.formName : Temporal.Moment → String
  | .date _ => "date"
  | .time _ => "time"
  | .civil _ _ => "local"
  | .zoned _ => "offset"

/-- The JSON form of a moment. -/
def Temporal.Moment.json (m : Temporal.Moment) : Json := .tagged m.formName (.string m.isoText)

/-- The JSON form of a literal. -/
def Literal.json : Literal → Json
  | null => .string "null"
  | string s => .tagged "string" (.string s)
  | boolean b => .tagged "boolean" (.boolean b)
  | single v => .tagged "single" (.ofFloating .single v)
  | double v => .tagged "double" (.ofFloating .double v)
  | decimal d => .tagged "decimal" (.string d.text)
  | int n => .tagged "int" (.integer n.toInt)
  | long n => .tagged "long" (.integer n.toInt)
  | binary bytes => .tagged "binary" (.array (bytes.map fun b => .integer b.toNat))
  | dateTime m => .tagged "dateTime" m.json
  | guid g => .tagged "guid" (.string g.text)
  | duration d => .tagged "duration" (.string d.text)

/-- The JSON form of a member. -/
def Member.json (m : Member) : Json := .object [("path", .array (m.path.map .string))]

namespace Expr

/-- The JSON form of an expression. -/
def json : Expr → Json
  | member m => .tagged "member" m.json
  | literal l => .tagged "literal" l.json
  | call name args =>
    .tagged "methodCall" (.object [("name", .string name), ("args", .array (jsonAll args))])
  | binary left op right =>
    .tagged "binary"
      (.object [("left", left.json), ("op", .string op.canonical), ("right", right.json)])
  | unary op inner =>
    .tagged "unary" (.object [("op", .string op.canonical), ("operand", inner.json)])
  | collection items => .tagged "collection" (.array (jsonAll items))
where
  /-- The JSON forms of several expressions. -/
  jsonAll : List Expr → List Json
    | [] => []
    | e :: es => e.json :: jsonAll es

end Expr

end QueryExpr
