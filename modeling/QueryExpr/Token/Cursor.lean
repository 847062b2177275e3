import QueryExpr.Text.CharClass
import QueryExpr.Text.Span
import QueryExpr.Token.Fault

/-!
# A place in a text

A cursor is a byte offset in a text, together with the text from there on. Moving
over characters keeps it at their boundaries; `skip` counts bytes and may come to
lie inside a character, where nothing is ahead. These are the methods of `Cursor`
(specification, 4.2).

* `advance`: moves over characters.
* `next`, `eat`, `eatWhile`, `skipBlank`, `expect`, `expectAny`: move over what is
  ahead if it is as wanted.
* `Placed`: the text is what was passed, followed by what is ahead.
-/

namespace QueryExpr

/-- A byte offset in a text and the characters from there on (`Cursor`). -/
structure Cursor where
  text : String
  ahead : List Char
  pos : Nat
  deriving DecidableEq, Repr

namespace Cursor

/-- The start of a text (`new`). -/
def ofText (text : String) : Cursor := ⟨text, text.toList, 0⟩

/-- The number of characters before a byte offset (`char_pos_of`); the offset itself if it is not
    the boundary of a character. -/
def charPosOf (c : Cursor) (offset : Nat) : Nat := Text.Utf8.charsBefore c.text.toList offset

/-- The number of characters before the cursor (`char_pos`). -/
def charPos (c : Cursor) : Nat := c.charPosOf c.pos

/-- Whether the cursor is at the start of the text (`at_start`). -/
def atStart (c : Cursor) : Bool := c.pos == 0

/-- Whether the cursor is at the end of the text (`at_end`). -/
def atEnd (c : Cursor) : Bool := Text.Utf8.size c.text.toList ≤ c.pos

/-- The text ahead (`rest`). -/
def rest (c : Cursor) : String := String.ofList c.ahead

/-- The text between a byte offset and the cursor (`since`). -/
def since (c : Cursor) (start : Nat) : String := Span.slice ⟨start, c.pos⟩ c.text

/-- The next character (`peek`). -/
def peek (c : Cursor) : Option Char := c.ahead.head?

/-- The character `n` places behind the next one (`peek_nth`). -/
def peekAt (c : Cursor) (n : Nat) : Option Char := c.ahead[n]?

/-- Moves over the characters `passed`, which leaves `ahead`. -/
def advance (c : Cursor) (passed ahead : List Char) : Cursor :=
  { c with ahead := ahead, pos := c.pos + Text.Utf8.size passed }

/-- Moves over the next character (`move_next`). -/
def next (c : Cursor) : Option Char × Cursor :=
  match c.ahead with
  | [] => (none, c)
  | d :: ds => (some d, c.advance [d] ds)

/-- Moves over `bytes` bytes, at most to the end of the text (`skip`). -/
def skip (c : Cursor) (bytes : Nat) : Cursor :=
  let pos := min (c.pos + bytes) (Text.Utf8.size c.text.toList)
  { c with ahead := (Text.Utf8.drop? c.text.toList pos).getD [], pos := pos }

/-- Moves over the character `d` if it is next, and tells whether it was (`eat`). -/
def eat (c : Cursor) (d : Char) : Bool × Cursor :=
  match c.ahead with
  | [] => (false, c)
  | e :: ds => if e = d then (true, c.advance [e] ds) else (false, c)

/-- Moves over the characters ahead for which `p` holds, and gives them (`eat_while`). -/
def eatWhile (c : Cursor) (p : Char → Bool) : String × Cursor :=
  let passed := c.ahead.takeWhile p
  (String.ofList passed, c.advance passed (c.ahead.dropWhile p))

/-- Moves over blanks (`skip_whitespace`). -/
def skipBlank (c : Cursor) : Cursor := (c.eatWhile Text.isBlank).2

/-- A fault at the cursor (`error`). -/
def errorAt (c : Cursor) (fault : LexFault) : LexError := ⟨fault, c.charPos⟩

/-- Moves over one of the characters `choices`, which has to be next (`expect_any`). At the end of
    the text, a NUL stands for the missing character. -/
def expectAny (c : Cursor) (choices : List Char) : Except LexError Char × Cursor :=
  match c.ahead with
  | [] => (.error (c.errorAt (.unexpectedChar '\x00')), c)
  | d :: ds =>
    if choices.contains d then (.ok d, c.advance [d] ds)
    else (.error (c.errorAt (.unexpectedChar d)), c)

/-- Moves over the character `d`, which has to be next (`expect`). -/
def expect (c : Cursor) (d : Char) : Except LexError Unit × Cursor :=
  let (found, c) := c.expectAny [d]
  (found.map (fun _ => ()), c)

/-! ## Moving keeps the cursor at the boundary of a character -/

/-- The text is `passed`, followed by what is ahead of the cursor. -/
def Placed (c : Cursor) (passed : List Char) : Prop :=
  c.text.toList = passed ++ c.ahead ∧ c.pos = Text.Utf8.size passed

theorem placed_ofText (text : String) : (ofText text).Placed [] := ⟨rfl, rfl⟩

theorem Placed.advance {c : Cursor} {before passed ahead : List Char} (h : c.Placed before)
    (hc : c.ahead = passed ++ ahead) : (c.advance passed ahead).Placed (before ++ passed) := by
  refine ⟨?_, ?_⟩
  · show c.text.toList = before ++ passed ++ ahead
    rw [List.append_assoc, ← hc]
    exact h.1
  · simp [Cursor.advance, h.2]

theorem Placed.charPos {c : Cursor} {before : List Char} (h : c.Placed before) :
    c.charPos = before.length := by
  simp [Cursor.charPos, charPosOf, h.1, h.2, Text.Utf8.charsBefore_size_append]

end Cursor

end QueryExpr
