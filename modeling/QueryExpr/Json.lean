import QueryExpr.Number.Floating

/-!
# JSON values

Objects keep their fields in the order of writing. Numbers are whole numbers or
values of a binary floating-point format.
-/

namespace QueryExpr

/-- A JSON value. -/
inductive Json where
  | null
  | boolean (b : Bool)
  | integer (n : Int)
  | floating (f : Number.Floating.Format) (v : Number.Floating)
  | string (s : String)
  | array (elements : List Json)
  | object (fields : List (String × Json))
  deriving Inhabited

namespace Json

/-- An object with one field. -/
def tagged (tag : String) (value : Json) : Json := object [(tag, value)]

/-- A floating-point number, null if it is none or infinite. -/
def ofFloating (f : Number.Floating.Format) (v : Number.Floating) : Json :=
  if v.isFinite then floating f v else null

end Json

end QueryExpr
