/-!
# Why a name is not resolved

The errors of resolvers and their messages (specification, 7).

* `ResolutionError`: a member or a call is refused.
* `UnknownMethod`: no method of that name is known.
* `MethodError`: either of them, for a call.
-/

namespace QueryExpr

/-- Why a member or a call is refused (`unknown_member`, `arity` and `new`). -/
inductive ResolutionError.Cause where
  | unknownMember
  /-- The number of arguments is none of the expected ones. -/
  | arity (expected : String) (found : Nat)
  /-- Any other reason, in words. -/
  | refused (reason : String)
  deriving DecidableEq, Repr

/-- The reason, in words. -/
def ResolutionError.Cause.message : ResolutionError.Cause → String
  | unknownMember => "field does not exist"
  | arity expected found => s!"expected {expected} argument(s), found {found}"
  | refused reason => reason

/-- A member or a call that is refused (`ResolutionError`). -/
structure ResolutionError where
  /-- The name of the member or the method. -/
  target : String
  cause : ResolutionError.Cause
  deriving DecidableEq, Repr

/-- What is refused and why, in words (the `Display` of `ResolutionError`). -/
def ResolutionError.message (e : ResolutionError) : String :=
  s!"cannot resolve '{e.target}': {e.cause.message}"

/-- A method that nobody knows (`UnknownMethodError`). -/
structure UnknownMethod where
  method : String
  /-- The names of the strategies that were asked. -/
  strategies : List String
  deriving DecidableEq, Repr

/-- What is unknown, in words (the `Display` of `UnknownMethodError`). -/
def UnknownMethod.message (e : UnknownMethod) : String :=
  let names := ", ".intercalate e.strategies
  s!"unknown method '{e.method}' (strategies: {names})"

/-- Why a call is not resolved (`MethodError`). -/
inductive MethodError where
  | unknown (e : UnknownMethod)
  | resolution (e : ResolutionError)
  deriving DecidableEq, Repr

end QueryExpr
