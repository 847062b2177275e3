import QueryExpr.Error
import QueryExpr.Token

/-!
# Faults of a reading

A fault tells its place by the number of tokens left, which does not depend on what
was read before. Once all tokens are known, it becomes a `ParseError`, which counts
from the start. These are the errors that a `ParseSession` returns.

* `Fault.toError`: the error that a fault is.
-/

namespace QueryExpr.Reading

/-- What a query would have to go on with (the `expected` of a `ParseSyntaxError`). -/
inductive Wanted where
  | operand
  /-- The parenthesis that opens a value list. -/
  | openParen
  /-- A comma, or the parenthesis that closes a list. -/
  | separator
  /-- The parenthesis that closes the one with which `left` tokens were left. -/
  | closeParen (left : Nat)
  | inputEnd
  /-- The name of an item of a selection. -/
  | itemName
  deriving DecidableEq, Repr

/-- What is wrong with the tokens of a query (`unexpected`, `unexpected_end` and the two texts given
    to `new`). -/
inductive Problem where
  | unexpected (wanted : Wanted) (found : Token.Kind)
  | ended (wanted : Wanted)
  | unmatchedClose
  | tooDeep
  deriving DecidableEq, Repr

/-- Why a reading ends early (`ParseError`). -/
inductive Fault where
  /-- The tokens are no query; `left` of them were left. -/
  | grammar (problem : Problem) (left : Nat)
  /-- A literal has no value. -/
  | literal (raw : Literal.Raw) (reason : Literal.Reason) (span : Span)
  /-- The member resolver refuses a path. -/
  | member (e : ResolutionError)
  /-- The method resolver refuses a call. -/
  | method (e : MethodError)
  deriving DecidableEq, Repr

/-- What is wanted, in words, in front of a token that is something else. -/
def Wanted.text : Wanted → String
  | operand => "an operand"
  | openParen => "'('"
  | separator => "',' or ')'"
  | closeParen _ => "')'"
  | inputEnd => "end of input"
  | itemName => "an alias"

/-- What is wanted, in words, behind the last of `count` tokens. -/
def Wanted.textAtEnd (count : Nat) : Wanted → String
  | closeParen left => s!"')' to close '(' at token {count - left}"
  | w => w.text

/-- The cause of the error among `count` tokens, where `limit` expressions may be nested. -/
def Problem.toCause (count limit : Nat) : Problem → SyntaxError.Cause
  | unexpected wanted found => .unexpected wanted.text found.text
  | ended wanted => .ended (wanted.textAtEnd count)
  | unmatchedClose => .unmatchedClose
  | tooDeep => .tooDeep limit

/-- The error in a text of `count` tokens, where `limit` expressions may be nested. -/
def Fault.toError (text : String) (count limit : Nat) : Fault → ParseError
  | grammar problem left => .grammar ⟨problem.toCause count limit, count - left⟩
  | literal raw reason span => .lex ⟨.malformed raw reason, span.charStart text⟩
  | member e => .resolution e
  | method e => .ofMethodError e

end QueryExpr.Reading
