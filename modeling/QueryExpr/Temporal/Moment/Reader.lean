import QueryExpr.Temporal.Moment

/-!
# Reading dates and times

The parts of a date or time are read one after the other from the front of a text;
every reader gives what it has read and the text behind it.

Two notations are admitted. The strict one has all fields in full width and ends
with an offset. In the lenient one, white space may stand before a number, fields
may have one or two digits, and a year may have a sign and then any number of
digits; what is missing at the end decides which kind of moment it is. They are the
documented behaviour of `parse_from_rfc3339` and of `parse_from_str` in the library
`chrono`, tried in the order of `DateTimeValue.parse`.

* `Moment.read`: the moment that a whole text is.
-/

namespace QueryExpr.Temporal

namespace Field

/-! ## Numbers and marks -/

/-- Passes the character `c`. -/
def mark (c : Char) : List Char → Option (List Char)
  | d :: cs => if d = c then some cs else none
  | [] => none

/-- Reads a run of ASCII digits, at least `least` and not more than `most` of them. -/
def digits (least most : Nat) (cs : List Char) : Option (Nat × List Char) :=
  let run := Number.Digits.run (cs.take most)
  if least ≤ run.length then some (Number.Digits.ofChars run, cs.drop run.length) else none

/-- Reads a number of exactly `width` digits. -/
def exact (width : Nat) (cs : List Char) : Option (Nat × List Char) := digits width width cs

/-- Reads a number of one or two digits behind white space. -/
def short (cs : List Char) : Option (Nat × List Char) := digits 1 2 (cs.dropWhile Text.isBlank)

/-- Reads a year behind white space: up to four digits, or any number of them behind a sign. -/
def year (cs : List Char) : Option (Int × List Char) :=
  match cs.dropWhile Text.isBlank with
  | '-' :: ds => (digits 1 ds.length ds).map fun (n, rest) => (-(n : Int), rest)
  | '+' :: ds => (digits 1 ds.length ds).map fun (n, rest) => ((n : Int), rest)
  | ds => (digits 1 4 ds).map fun (n, rest) => ((n : Int), rest)

/-- Reads a fraction of a second in nanoseconds, if there is a point. Digits behind the ninth are
    passed without notice. -/
def fraction : List Char → Option (Nat × List Char)
  | '.' :: cs => do
    let run := Number.Digits.run (cs.take 9)
    if run.isEmpty then none
    else some (Number.Digits.ofChars run * Nat.pow 10 (9 - run.length), Number.Digits.afterRun cs)
  | cs => some (0, cs)

/-! ## Offsets -/

/-- The sign of an offset: true for behind universal time. The minus may be the one of
    typography. -/
def sign : List Char → Option (Bool × List Char)
  | '+' :: cs => some (false, cs)
  | '-' :: cs => some (true, cs)
  | '−' :: cs => some (true, cs)
  | _ => none

/-- Reads an offset of a sign, two digits of hours, what `between` passes, and two digits of
    minutes below sixty; in minutes. -/
def offset (between : List Char → Option (List Char)) (cs : List Char) :
    Option (Int × List Char) := do
  let (behind, cs) ← sign cs
  let (hours, cs) ← exact 2 cs
  let cs ← between cs
  let (minutes, cs) ← exact 2 cs
  if minutes < 60 then
    let total : Int := hours * 60 + minutes
    some (if behind then -total else total, cs)
  else none

/-- Passes any run of colons and white space. -/
def colonsAndBlanks (cs : List Char) : Option (List Char) :=
  some (cs.dropWhile fun c => c == ':' || Text.isBlank c)

end Field

open Temporal.Field

/-! ## The strict notation -/

/-- Reads an offset, `Z` for none. -/
def strictOffset : List Char → Option (Int × List Char)
  | 'Z' :: cs => some (0, cs)
  | 'z' :: cs => some (0, cs)
  | cs => offset (mark ':') cs

/-- Passes what may stand between a date and a time. -/
def strictGap : List Char → Option (List Char)
  | 'T' :: cs => some cs
  | 't' :: cs => some cs
  | ' ' :: cs => some cs
  | _ => none

/-- Reads the strict notation (`DateTime.parse_from_rfc3339`). -/
def readStrict (cs : List Char) : Option Zoned := do
  let (year, cs) ← exact 4 cs
  let cs ← mark '-' cs
  let (month, cs) ← exact 2 cs
  let cs ← mark '-' cs
  let (day, cs) ← exact 2 cs
  let cs ← strictGap cs
  let (hour, cs) ← exact 2 cs
  let cs ← mark ':' cs
  let (minute, cs) ← exact 2 cs
  let cs ← mark ':' cs
  let (second, cs) ← exact 2 cs
  let (nano, cs) ← fraction cs
  let (offset, cs) ← strictOffset cs
  if cs.isEmpty then do
    let date ← Date.of? year month day
    let clock ← Clock.of? hour minute second nano
    Zoned.of? date clock offset
  else none

/-! ## The lenient notation -/

/-- Reads a date (the format `%Y-%m-%d`). -/
def lenientDate (cs : List Char) : Option (Date × List Char) := do
  let (year, cs) ← year cs
  let cs ← mark '-' cs
  let (month, cs) ← short cs
  let cs ← mark '-' cs
  let (day, cs) ← short cs
  let date ← Date.of? year month day
  some (date, cs)

/-- Reads hour and minute (the format `%H:%M`). -/
def lenientMinute (cs : List Char) : Option (Clock × List Char) := do
  let (hour, cs) ← short cs
  let cs ← mark ':' cs
  let (minute, cs) ← short cs
  let clock ← Clock.of? hour minute 0 0
  some (clock, cs)

/-- Reads hour, minute, second and an optional fraction (the formats `%H:%M:%S%.f` and
    `%H:%M:%S`). -/
def lenientSecond (cs : List Char) : Option (Clock × List Char) := do
  let (hour, cs) ← short cs
  let cs ← mark ':' cs
  let (minute, cs) ← short cs
  let cs ← mark ':' cs
  let (second, cs) ← short cs
  let (nano, cs) ← fraction cs
  let clock ← Clock.of? hour minute second nano
  some (clock, cs)

/-- Reads an offset behind white space (the format `%:z`). -/
def lenientOffset (cs : List Char) : Option (Int × List Char) :=
  offset colonsAndBlanks (cs.dropWhile Text.isBlank)

/-- What a reader has read if it has read the whole text. -/
def whole {α : Type} (read : List Char → Option (α × List Char)) (cs : List Char) : Option α := do
  let (value, rest) ← read cs
  if rest.isEmpty then some value else none

/-- Reads a date and a time with a `T` between them (`NaiveDateTime.parse_from_str`). -/
def lenientCivil (clock : List Char → Option (Clock × List Char)) (cs : List Char) :
    Option ((Date × Clock) × List Char) := do
  let (date, cs) ← lenientDate cs
  let cs ← mark 'T' cs
  let (clock, cs) ← clock cs
  some ((date, clock), cs)

/-- Reads a date, a time and an offset (`DateTime.parse_from_str`). -/
def lenientZoned (clock : List Char → Option (Clock × List Char)) (cs : List Char) :
    Option (Zoned × List Char) := do
  let ((date, clock), cs) ← lenientCivil clock cs
  let (offset, cs) ← lenientOffset cs
  let zoned ← Zoned.of? date clock offset
  some (zoned, cs)

/-- A text that ends with `Z`, with an offset of zero in numbers in its place, as
    `DateTimeValue.parse` has it. -/
def numericOffset (cs : List Char) : List Char :=
  if cs.getLast? = some 'Z' then cs.dropLast ++ ['+', '0', '0', ':', '0', '0'] else cs

namespace Moment

/-- The moment that a whole text is (`DateTimeValue.parse`): with an offset if one can be read, else
    a date and a time, a date, or a time. -/
def read (cs : List Char) : Option Moment :=
  (zoned <$> readStrict cs)
    <|> (zoned <$> whole (lenientZoned lenientSecond) (numericOffset cs))
    <|> (zoned <$> whole (lenientZoned lenientMinute) (numericOffset cs))
    <|> ((fun (d, c) => civil d c) <$> whole (lenientCivil lenientSecond) cs)
    <|> ((fun (d, c) => civil d c) <$> whole (lenientCivil lenientMinute) cs)
    <|> (date <$> whole lenientDate cs)
    <|> (time <$> whole lenientSecond cs)
    <|> (time <$> whole lenientMinute cs)

end Moment

end QueryExpr.Temporal
