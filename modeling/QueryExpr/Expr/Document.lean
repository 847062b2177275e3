import QueryExpr.Expr

/-!
# Filter documents

A filter document writes an expression as nested objects with one field, named for
the operator or function: `\x7b$and: [.., ..]\x7d`. It is written by a visitor of the
nodes (specification, 4.3).
-/

namespace QueryExpr.Expr

/-- An object with one field. -/
def documentField (name value : String) : String := s!"\x7b{name}: {value}\x7d"

/-- The expression as a filter document (`DocumentRenderer`). -/
def document : Expr → String
  | member m => "\"" ++ Text.Segments.join '.' m.path ++ "\""
  | literal l => l.text
  | call name args => documentField ("$" ++ name) ("[" ++ elements args ++ "]")
  | binary left op right =>
    documentField op.canonical ("[" ++ left.document ++ ", " ++ right.document ++ "]")
  | unary op inner => documentField op.canonical inner.document
  | collection items => "[" ++ elements items ++ "]"
where
  /-- The elements of a list. -/
  elements : List Expr → String
    | [] => ""
    | [e] => e.document
    | e :: f :: es => e.document ++ ", " ++ elements (f :: es)

end QueryExpr.Expr
