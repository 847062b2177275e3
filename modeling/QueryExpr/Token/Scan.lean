import QueryExpr.Token
import QueryExpr.Token.Fault

/-!
# What the scan of one token gives

Every literal has a value, which is made sure of when it is scanned (specification,
4.2).
-/

namespace QueryExpr.Token

/-- A fault and the number of characters between the start of the token and its place. -/
structure Flaw where
  fault : LexFault
  offset : Nat
  deriving DecidableEq, Repr

/-- A token at the front of a text, or why there is none. -/
structure Scan where
  /-- The characters passed. -/
  read : List Char
  /-- The text behind them. -/
  rest : List Char
  outcome : Except Flaw Kind

namespace Scan

/-- A token of the given kind (`make_token`). -/
def found (read rest : List Char) (kind : Kind) : Scan := ⟨read, rest, .ok kind⟩

/-- A fault `offset` characters behind the start of the token. -/
def failed (read rest : List Char) (fault : LexFault) (offset : Nat) : Scan :=
  ⟨read, rest, .error ⟨fault, offset⟩⟩

/-- A literal, if its body has a value (`make_literal`). -/
def literal (read rest : List Char) (raw : Literal.Raw) : Scan :=
  match raw.value with
  | .ok _ => found read rest (.literal raw)
  | .error reason => failed read rest (.malformed raw reason) 0

/-- A literal that no character of a name may follow (`make_literal` behind `expect_boundary`). -/
def bounded (read rest : List Char) (raw : Literal.Raw) : Scan :=
  match rest with
  | c :: _ =>
    if Text.isNameChar c then failed read rest (.unexpectedChar c) read.length
    else literal read rest raw
  | [] => literal read rest raw

/-- The passed characters and those behind them are the text `cs`. -/
def Covers (s : Scan) (cs : List Char) : Prop := s.read ++ s.rest = cs

variable {read rest cs : List Char}

theorem found_covers {kind : Kind} (h : read ++ rest = cs) : (found read rest kind).Covers cs := h

theorem failed_covers {fault : LexFault} {offset : Nat} (h : read ++ rest = cs) :
    (failed read rest fault offset).Covers cs := h

theorem literal_covers {raw : Literal.Raw} (h : read ++ rest = cs) :
    (literal read rest raw).Covers cs := by
  simp only [literal]
  split
  · exact found_covers h
  · exact failed_covers h

theorem bounded_covers {raw : Literal.Raw} (h : read ++ rest = cs) :
    (bounded read rest raw).Covers cs := by
  simp only [bounded]
  split
  · split
    · exact failed_covers h
    · exact literal_covers h
  · exact literal_covers h

end Scan

end QueryExpr.Token
