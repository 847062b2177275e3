import QueryExpr.Text.InversionList
import QueryExpr.Text.Letters
import QueryExpr.Text.Numerals

/-!
# Character classes of query text

The predicates by which characters are told apart (specification, 4.2).

* `isBlank`: separates tokens (Unicode `White_Space`).
* `isDigit`: an ASCII decimal digit, the only digits numbers are made of.
* `isDecimalDigit`: a decimal digit of any script, which date and duration patterns admit. Names
  follow a later version of Unicode and admit digits that these patterns do not.
* `isNameStart`, `isNameChar`: what a name begins with and is made of.
* `isPlain`: may stand between quotes.

ASCII characters are decided by range tests, all others by the tables of
`Text.Letters` and `Text.Numerals`.
-/

namespace QueryExpr.Text

/-- The characters with the Unicode property `White_Space` (`is_whitespace`). -/
def isBlank (c : Char) : Bool :=
  let n := c.toNat
  (9 ≤ n && n ≤ 13) || n == 0x20 || n == 0x85 || n == 0xa0 || n == 0x1680 ||
    (0x2000 ≤ n && n ≤ 0x200a) || n == 0x2028 || n == 0x2029 || n == 0x202f ||
    n == 0x205f || n == 0x3000

/-- An ASCII decimal digit (`is_digit`). -/
def isDigit (c : Char) : Bool := c.isDigit

/-- A decimal digit of any script known to date and duration patterns (`\d` in `ISO_DATE` and
    `DURATION`). -/
def isDecimalDigit (c : Char) : Bool :=
  if c.toNat < 128 then c.isDigit else InversionList.contains digitBounds c.toNat

/-- A letter of any script (`is_alphabetic`). -/
def isLetter (c : Char) : Bool :=
  if c.toNat < 128 then c.isAlpha else InversionList.contains letterBounds c.toNat

/-- A decimal digit, letter number or other number of any script (`is_numeric`). -/
def isNumeral (c : Char) : Bool :=
  if c.toNat < 128 then c.isDigit else InversionList.contains numeralBounds c.toNat

/-- A character that may begin a name (`is_identifier_start_char`). -/
def isNameStart (c : Char) : Bool := isLetter c || c == '_' || c == '$'

/-- A character that may continue a name (`is_identifier_char`). -/
def isNameChar (c : Char) : Bool := isLetter c || isNumeral c || c == '_' || c == '$'

/-- A control character (category `Cc`). -/
def isControl (c : Char) : Bool := c.toNat < 32 || (127 ≤ c.toNat && c.toNat < 160)

/-- A character that may stand between quotes (`is_char`): no control character but the tab. -/
def isPlain (c : Char) : Bool := !isControl c || c == '\t'

/-- What begins a name also continues one. -/
theorem isNameChar_of_isNameStart {c : Char} (h : isNameStart c = true) : isNameChar c = true := by
  simp only [isNameStart, Bool.or_eq_true] at h
  simp only [isNameChar, Bool.or_eq_true]
  rcases h with (h | h) | h <;> simp [h]

/-- What holds of all ten digits holds of a character that is one. -/
theorem of_isDigit (p : Char → Prop) {c : Char} (h : isDigit c = true)
    (hall : ∀ n : Fin 10, p (Char.ofNat (48 + n.val))) : p c := by
  obtain ⟨hlow, hhigh⟩ := Char.isDigit_iff_toNat.1 h
  have hzero : '0'.toNat = 48 := rfl
  have hnine : '9'.toNat = 57 := rfl
  have hn := hall ⟨c.toNat - 48, by omega⟩
  rwa [show 48 + (c.toNat - 48) = c.toNat by omega, Char.ofNat_toNat] at hn

theorem isDecimalDigit_of_isDigit {c : Char} (h : isDigit c = true) : isDecimalDigit c = true :=
  of_isDigit (isDecimalDigit · = true) h (by decide)

end QueryExpr.Text
