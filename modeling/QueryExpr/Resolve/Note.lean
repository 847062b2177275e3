/-!
# What resolvers have to say while they are asked
-/

namespace QueryExpr

/-- A remark that a resolver makes for whoever follows a reading (the events that `resolve_member`
    and `resolve_method` log). -/
inductive Note where
  /-- A member that no field is known for is passed through. -/
  | passedThrough (member : String)
  /-- A method is resolved by the strategy of the given name. -/
  | strategyChosen (method strategy : String)
  deriving DecidableEq, Repr

end QueryExpr
