import QueryExpr.Literal.Raw
import QueryExpr.Operator
import QueryExpr.Text.Segments
import QueryExpr.Text.Span

/-!
# Tokens

A token is a literal, a name or a mark, together with the span of text it was read
from. Names are single words and paths of words, with keywords among them
(specification, 3 and 4.1). Here and in the modules of the lexer, a name in
parentheses is that of the function or type that is modelled.

* `Token.Kind.text`: how a token of the kind can be written.
* `Token.Kind.endsOperand`: whether a minus behind the token is subtraction rather
  than a sign.
-/

namespace QueryExpr

/-- The punctuation of a query (`SyntaxToken`). -/
inductive Mark where
  | parenOpen
  | parenClose
  | slash
  | comma
  | minus
  deriving DecidableEq, Repr, Inhabited

namespace Mark

/-- The character that is the mark (`syntax`). -/
def char : Mark → Char
  | parenOpen => '('
  | parenClose => ')'
  | slash => '/'
  | comma => ','
  | minus => '-'

/-- The mark that a character is (`from_char`). -/
def ofChar? (c : Char) : Option Mark :=
  match c with
  | '(' => some parenOpen
  | ')' => some parenClose
  | '/' => some slash
  | ',' => some comma
  | '-' => some minus
  | _ => none

end Mark

/-- What a token is, apart from its place (`TokenKind`). -/
inductive Token.Kind where
  | literal (raw : Literal.Raw)
  | name (word : String)
  | mark (m : Mark)
  deriving DecidableEq, Repr, Inhabited

/-- A token and its place in the text (`Token`). -/
structure Token where
  kind : Token.Kind
  span : Span
  deriving DecidableEq, Repr, Inhabited

namespace Token

namespace Kind

/-- How a token of the kind can be written (the `Display` of `TokenKind`). -/
def text : Kind → String
  | literal raw => raw.text
  | name word => word
  | mark m => String.singleton m.char

/-- Whether the token can be the last one of an operand (`ends_value`). -/
def endsOperand : Kind → Bool
  | literal _ => true
  | mark m => m == .parenClose
  | name word =>
    (Operator.ofKeyword? word).isNone && !(word == "asc" || word == "desc" || word == "as")

/-- Whether the token is a minus, or a number with one (`is_negative`). -/
def isNegative : Kind → Bool
  | literal raw => raw.isNegative
  | name _ => false
  | mark m => m == .minus

/-- The word of a name (`as_identifier`). -/
def word? : Kind → Option String
  | name word => some word
  | _ => none

/-- The binary operator that the token stands for (`token_to_binary_op`). -/
def binary? (k : Kind) : Option Operator := k.word?.bind Operator.binary?

/-- The unary operator that the token stands for (`token_to_unary_op`). -/
def unary? : Kind → Option Operator
  | mark .minus => some .neg
  | name "not" => some .not
  | _ => none

end Kind

/-- How the token can be written. -/
def text (t : Token) : String := t.kind.text

end Token

/-- The parts of a path, which slashes separate (`segments`). -/
def pathSegments (word : String) : List String := Text.Segments.split '/' word

/-- Whether a word is a path of more than one part (`is_path`). -/
def isPath (word : String) : Bool := word.toList.contains '/'

end QueryExpr
