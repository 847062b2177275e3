/-!
# Kinds of literals

The types of literal tokens (specification, 3).
-/

namespace QueryExpr

/-- The type of a literal, which its notation tells (`LiteralType`). -/
inductive Literal.Kind where
  | null
  | string
  | boolean
  | single
  | double
  | decimal
  | int
  | long
  | binary
  | dateTime
  | guid
  | duration
  deriving DecidableEq, Repr, Inhabited

namespace Literal.Kind

/-- The name by which messages call the kind (`as_str`). -/
def name : Kind → String
  | null => "Null"
  | string => "String"
  | boolean => "Boolean"
  | single => "Single"
  | double => "Double"
  | decimal => "Decimal"
  | int => "Int"
  | long => "Long"
  | binary => "Binary"
  | dateTime => "DateTime"
  | guid => "Guid"
  | duration => "Duration"

/-- Whether literals of the kind are numbers (`is_numeric`). -/
def isNumeric : Kind → Bool
  | single | double | decimal | int | long => true
  | _ => false

end Literal.Kind

end QueryExpr
