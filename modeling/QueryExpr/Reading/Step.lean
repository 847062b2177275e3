import QueryExpr.Expr
import QueryExpr.Resolve.Note

/-!
# The steps of a reading

The phases of a `ParseSession`, and what it asks of its resolvers (specification, 4.5).

* `Phase`: what a reading is doing.
* `Request`: what it puts to a resolver, with all arguments.
* `Question`: what is told of a request, with the number of arguments only.
* `Step`: what can be told of it while it goes on.
-/

namespace QueryExpr.Reading

/-- What a reading is doing (`ParserState`). -/
inductive Phase where
  /-- Nothing yet. -/
  | atStart
  /-- Looking at the tokens as a whole. -/
  | scanning
  /-- Inside an operand or a chain of operators. -/
  | expression
  /-- Between the parentheses of a call or a value list. -/
  | arguments
  /-- Waiting for the member resolver. -/
  | member
  /-- Nothing any more: it has succeeded. -/
  | atEnd
  /-- Nothing any more: it has failed. -/
  | failed
  deriving DecidableEq, Repr, Inhabited

/-- The name by which a trace calls the phase. -/
def Phase.name : Phase → String
  | atStart => "AtStart"
  | scanning => "Scanning"
  | expression => "ParsingExpression"
  | arguments => "ParsingMethodArguments"
  | member => "ParsingMember"
  | atEnd => "AtEnd"
  | failed => "Error"

/-- What is told of a request. -/
inductive Question where
  | member (path : List String)
  | method (name : String) (count : Nat)
  deriving DecidableEq, Repr

/-- What a reading puts to a resolver. -/
inductive Request where
  | member (path : List String)
  | method (name : String) (args : List Expr)

/-- What is told of the request. -/
def Request.question : Request → Question
  | member path => .member path
  | method name args => .method name args.length

/-- What can be told of a reading while it goes on. -/
inductive Step where
  | enter (p : Phase)
  | ask (q : Request)
  | note (n : Note)

/-- The request that a step is. -/
def Step.request? : Step → Option Request
  | ask q => some q
  | _ => none

end QueryExpr.Reading
