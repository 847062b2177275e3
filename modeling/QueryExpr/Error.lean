import QueryExpr.Resolve.Fault
import QueryExpr.Token.Fault

/-!
# Why a query is not read

The errors of a reading and their messages (specification, 7).

* `SyntaxError`: the tokens are no query.
* `ParseError`: whatever keeps a text from being read as a query.
-/

namespace QueryExpr

/-- What is wrong with the tokens of a query (`unexpected`, `unexpected_end` and `new`). -/
inductive SyntaxError.Cause where
  /-- A token other than the expected ones. -/
  | unexpected (expected found : String)
  /-- The tokens end too early. -/
  | ended (expected : String)
  /-- A closing parenthesis that closes nothing. -/
  | unmatchedClose
  /-- Expressions within expressions beyond the limit. -/
  | tooDeep (limit : Nat)
  /-- Anything else, in words. -/
  | stated (message : String)
  deriving DecidableEq, Repr

namespace SyntaxError.Cause

/-- What is wrong, in words. -/
def message : Cause → String
  | unexpected expected found => s!"unexpected token: expected {expected}, found '{found}'"
  | ended expected => s!"unexpected end of input: expected {expected}"
  | unmatchedClose => "unmatched ')'"
  | tooDeep limit => s!"expression nested deeper than {limit}"
  | stated message => message

/-- What was expected. -/
def expected? : Cause → Option String
  | unexpected expected _ => some expected
  | ended expected => some expected
  | _ => none

/-- What was found in its place. -/
def found? : Cause → Option String
  | unexpected _ found => some found
  | _ => none

end SyntaxError.Cause

/-- What is wrong with the tokens of a query, and at which of them, counted from zero
    (`ParseSyntaxError`). -/
structure SyntaxError where
  cause : SyntaxError.Cause
  tokenIndex : Nat
  deriving DecidableEq, Repr

/-- What is wrong and where, in words (the `Display` of `ParseSyntaxError`). -/
def SyntaxError.message (e : SyntaxError) : String := s!"{e.cause.message} at token {e.tokenIndex}"

/-- Why a text is not read as a query (`ParseError`). -/
inductive ParseError where
  | lex (e : LexError)
  | grammar (e : SyntaxError)
  | unknownMethod (e : UnknownMethod)
  | resolution (e : ResolutionError)
  deriving DecidableEq, Repr

namespace ParseError

/-- The error of a call that is not resolved. -/
def ofMethodError : MethodError → ParseError
  | .unknown e => unknownMethod e
  | .resolution e => resolution e

/-- What is wrong, in words (the `Display` of `ParseError`). -/
def message : ParseError → String
  | lex e => e.message
  | grammar e => e.message
  | unknownMethod e => e.message
  | resolution e => e.message

/-- Whether the query is to blame, which it always is (`is_client_error`). -/
def isClientError (_ : ParseError) : Bool := true

/-- The error in the tokens, if it is one (`as_syntax`). -/
def asSyntax? : ParseError → Option SyntaxError
  | grammar e => some e
  | _ => none

/-- The error in the text, if it is one (`as_lex`). -/
def asLex? : ParseError → Option LexError
  | lex e => some e
  | _ => none

end ParseError

end QueryExpr
