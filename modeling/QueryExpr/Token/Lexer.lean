import QueryExpr.Token.BareDate
import QueryExpr.Token.Cursor
import QueryExpr.Token.Name
import QueryExpr.Token.Numeral

/-!
# Cutting a text into tokens

* `Token.scan`: the token that begins with a given character.
* `Lexer.next`: the next token of a text, behind blanks.
* `Lexer.tokenize`: all tokens of a text.
* `scan_covers`: the characters passed and those behind them are the text scanned.

A minus in front of a number, or of `INF`, is its sign, unless the token before it
ends an operand: then it is subtraction (specification, 4.2).
-/

namespace QueryExpr

namespace Token

/-- The characters of the word for infinity. -/
def infinityWord : List Char := ['I', 'N', 'F']

/-- Whether a text begins with the word for infinity, as `scan_minus` looks for it. -/
def startsInfinity (cs : List Char) : Bool :=
  infinityWord.isPrefixOf cs && !(cs.drop 3).head?.any Text.isNameChar

/-- The token that begins with a minus, behind the minus (`scan_minus`). -/
def scanMinus (afterOperand : Bool) (cs : List Char) : Scan :=
  if !afterOperand && startsDigit cs then scanNumber ['-'] cs
  else if !afterOperand && startsInfinity cs then
    .found ('-' :: infinityWord) (cs.drop 3) (.literal ⟨"-INF", .double⟩)
  else .found ['-'] cs (.mark .minus)

/-- A number without sign or a date without quotes (`scan_number` at the start of a token). -/
def scanUnsigned (cs : List Char) : Scan :=
  match BareDate.splitDate? cs with
  | some (date, rest) => .bounded date rest ⟨String.ofList date, .dateTime⟩
  | none => scanNumber [] cs

/-- The token that begins with the character `c` (the cases of `next_token`); `cs` are the
    characters behind it. -/
def scan (afterOperand : Bool) (c : Char) (cs : List Char) : Scan :=
  if c = '\'' then scanString cs
  else if c = '-' then scanMinus afterOperand cs
  else if c = '+' && startsDigit cs then scanNumber ['+'] cs
  else if Text.isDigit c then scanUnsigned (c :: cs)
  else if Text.isNameStart c then scanName (c :: cs)
  else
    match Mark.ofChar? c with
    | some m => .found [c] cs (.mark m)
    | none => .failed [] (c :: cs) (.unexpectedChar c) 0

/-! ### The scan loses nothing -/

theorem scanMinus_covers (afterOperand : Bool) (cs : List Char) :
    (scanMinus afterOperand cs).Covers ('-' :: cs) := by
  simp only [scanMinus]
  split
  · exact scanNumber_covers ['-'] cs
  · split
    next h =>
      simp only [startsInfinity, Bool.and_eq_true] at h
      obtain ⟨rest, rfl⟩ := List.isPrefixOf_iff_prefix.1 h.2.1
      exact Scan.found_covers rfl
    · exact Scan.found_covers rfl

theorem scanUnsigned_covers (cs : List Char) : (scanUnsigned cs).Covers cs := by
  simp only [scanUnsigned]
  split
  next date rest h => exact Scan.bounded_covers (BareDate.splits_date cs _ h)
  · exact scanNumber_covers [] cs

theorem scan_covers (afterOperand : Bool) (c : Char) (cs : List Char) :
    (scan afterOperand c cs).Covers (c :: cs) := by
  simp only [scan]
  split
  next h => exact h ▸ scanString_covers cs
  split
  next h => exact h ▸ scanMinus_covers afterOperand cs
  split
  next h =>
    simp only [Bool.and_eq_true, decide_eq_true_eq] at h
    exact h.1 ▸ scanNumber_covers ['+'] cs
  split
  · exact scanUnsigned_covers (c :: cs)
  split
  · exact scanName_covers (c :: cs)
  split
  · exact Scan.found_covers rfl
  · exact Scan.failed_covers rfl

end Token

/-- A cursor, and whether the last token ends an operand (`Lexer`). -/
structure Lexer where
  cursor : Cursor
  afterOperand : Bool
  deriving DecidableEq, Repr

namespace Lexer

/-- A lexer at the start of a text (`new`). -/
def ofText (text : String) : Lexer := ⟨Cursor.ofText text, false⟩

/-- The next token, or none at the end of the text (`next_token`). A fault leaves the cursor behind
    the characters that were looked at. -/
def next (l : Lexer) : Except LexError (Option Token) × Lexer :=
  let start := l.cursor.skipBlank
  match start.ahead with
  | [] => (.ok none, { l with cursor := start })
  | c :: cs =>
    let s := Token.scan l.afterOperand c cs
    let stop := start.advance s.read s.rest
    match s.outcome with
    | .ok kind => (.ok (some ⟨kind, ⟨start.pos, stop.pos⟩⟩), ⟨stop, kind.endsOperand⟩)
    | .error flaw =>
      (.error ⟨flaw.fault, start.charPos + flaw.offset⟩, { l with cursor := stop })

/-- The tokens ahead, at most `limit` of them. -/
def upTo : Nat → Lexer → Except LexError (List Token)
  | 0, _ => .ok []
  | limit + 1, l =>
    match l.next with
    | (.ok none, _) => .ok []
    | (.ok (some t), l) => (upTo limit l).map (t :: ·)
    | (.error e, _) => .error e

/-- The tokens of a text, or its first fault (`tokenize`). Every token has a character of its own,
    so the number of characters bounds the number of tokens. -/
def tokenize (text : String) : Except LexError (List Token) :=
  upTo (text.toList.length + 1) (ofText text)

/-- What the first `count` calls for a token give, whatever they find. -/
def steps : Nat → Lexer → List (Except LexError (Option Token))
  | 0, _ => []
  | count + 1, l => l.next.1 :: steps count l.next.2

end Lexer

end QueryExpr
