import QueryExpr.Reading.Query
import QueryExpr.Reading.Trace
import QueryExpr.Token.Lexer

/-!
# Reading a query text

A parser has resolvers for the names of a query and limits on its size
(specification, 4.5 and 6).

Here and in the modules below, a name in parentheses behind what a definition does is
that of the function or type that it models.

* `Parser.parse`, `Parser.parseOrderBy`, `Parser.parseSelect`: read a text as a
  filter, an ordering or a selection.
* `Report`: what a reading gives, with the requests it made and its trace.
-/

namespace QueryExpr

/-- Limits on the size of a query (`ParserOptions`). -/
structure Limits where
  /-- How many expressions may be nested. -/
  maxDepth : Nat
  /-- How many characters a text may have. -/
  maxLength : Nat
  deriving DecidableEq, Repr

/-- The limits of a parser that is given none (`ParserOptions.default`). -/
def Limits.standard : Limits := ⟨64, 8192⟩

/-- Resolvers for the names of a query and limits on its size (`OpenDataParser`). -/
structure Parser where
  resolvers : Resolvers
  limits : Limits

/-- What a reading gives. -/
structure Report (α : Type) where
  outcome : Except ParseError α
  /-- What was put to the resolvers, in order. -/
  requests : List Reading.Request
  trace : List Reading.Event

/-- What was asked of the resolvers, in order. -/
def Report.questions {α : Type} (r : Report α) : List Reading.Question :=
  r.requests.map Reading.Request.question

namespace Parser

/-- A parser that passes every member through and knows the standard methods
    (`OpenDataParser.new`). -/
def standard : Parser := ⟨⟨.passThrough, Registry.standard.resolver⟩, .standard⟩

/-- The tokens of a text, unless it is too long (`OpenDataParser.tokenize`). -/
def tokens (p : Parser) (text : String) : Except LexError (List Token) :=
  if p.limits.maxLength < text.toList.length then
    .error ⟨.tooLong p.limits.maxLength, p.limits.maxLength⟩
  else Lexer.tokenize text

/-- The error of a run over tokens, if there is one. -/
def outcomeOf {α : Type} (p : Parser) (text : String) (ts : List Token)
    (run : Reading.Run α) : Except ParseError α :=
  run.outcome.mapError (Reading.Fault.toError text ts.length p.limits.maxDepth)

/-- The error that an outcome is. -/
def errorOf? {α : Type} : Except ParseError α → Option ParseError
  | .ok _ => none
  | .error e => some e

/-- Reads the tokens of a text with a reader of whole lists of tokens. -/
def report {α : Type} (p : Parser) (mode : Reading.Mode)
    (read : Resolvers → Nat → List Token → Reading.Run α) (text : String) : Report α :=
  match p.tokens text with
  | .error e => ⟨.error (.lex e), [], []⟩
  | .ok ts =>
    let run := read p.resolvers p.limits.maxDepth ts
    let outcome := p.outcomeOf text ts run
    ⟨outcome, run.requests,
      Reading.traceOf mode (Text.Utf8.size text.toList) ts.length run.log (errorOf? outcome)⟩

/-- Reads a text as a filter (`parse`); a text without tokens is none. -/
def parse (p : Parser) (text : String) : Report (Option Expr) :=
  p.report .filter Reading.filter text

/-- Reads a text as an ordering (`parse_order_by`). -/
def parseOrderBy (p : Parser) (text : String) : Report (List OrderItem) :=
  p.report .ordering Reading.ordering text

/-- Reads a text as a selection (`parse_select`). -/
def parseSelect (p : Parser) (text : String) : Report (List SelectItem) :=
  p.report .selection Reading.selection text

end Parser

end QueryExpr
