import QueryExpr.Literal.Raw

/-!
# Faults in the text of a query

The errors of the lexer and their messages (specification, 7).

* `LexFault`: what is wrong.
* `LexError`: what is wrong, and where.
-/

namespace QueryExpr

/-- Why a text has no tokens (`LexErrorKind`). -/
inductive LexFault where
  /-- A character that begins no token, or may not stand where it does. -/
  | unexpectedChar (c : Char)
  /-- A literal whose closing quote is missing. -/
  | unterminated (kind : Literal.Kind)
  /-- A literal whose body has no value. -/
  | malformed (raw : Literal.Raw) (reason : Literal.Reason)
  /-- A text of more than `limit` characters. -/
  | tooLong (limit : Nat)
  deriving DecidableEq, Repr

/-- What is wrong, in words (the `Display` of `LexErrorKind`). -/
def LexFault.message : LexFault → String
  | unexpectedChar c => s!"unexpected character '{c}'"
  | unterminated kind => s!"unterminated {kind.name} literal"
  | malformed raw reason => s!"malformed {raw.kind.name} literal '{raw.body}': {reason.message}"
  | tooLong limit => s!"query exceeds {limit} characters"

/-- A fault and the number of characters before it (`LexError`). -/
structure LexError where
  fault : LexFault
  position : Nat
  deriving DecidableEq, Repr

/-- What is wrong and where, in words (the `Display` of `LexError`). -/
def LexError.message (e : LexError) : String :=
  s!"{e.fault.message} at position {e.position}"

end QueryExpr
