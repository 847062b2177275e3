import QueryExpr.Token.Scan

/-!
# Words that type a quoted literal

`guid'...'`, `X'...'`, `date'...'`: the word before the quotes tells the kind of the
literal and what forms its body may have (specification, 4.2). Words are recognized
in any case.

* `TypeWord.kindOf`: the kind of a literal with a given body.
-/

namespace QueryExpr.Token

/-- A word that types a quoted literal (`TypedPrefix`). -/
inductive TypeWord where
  | guid
  | binary
  | hex
  | date
  /-- `datetime`: a date and a time, with or without an offset. -/
  | civil
  /-- `datetimeoffset`: a date and a time with an offset. -/
  | zoned
  /-- `time`: a time of day or a duration. -/
  | time
  | duration
  deriving DecidableEq, Repr

namespace TypeWord

/-- The type that a word stands for (`from_identifier`). -/
def ofWord? (word : String) : Option TypeWord :=
  match String.ofList (word.toList.map Char.toLower) with
  | "guid" => some guid
  | "binary" => some binary
  | "x" => some hex
  | "date" => some date
  | "datetime" => some civil
  | "datetimeoffset" => some zoned
  | "time" => some time
  | "duration" => some duration
  | _ => none

/-- The kind of the literals that the word types (`literal_type`). -/
def kind : TypeWord → Literal.Kind
  | guid => .guid
  | binary | hex => .binary
  | date | civil | zoned | time => .dateTime
  | duration => .duration

/-- Whether a moment has a form that the word admits (`admits`). -/
def admits : TypeWord → Temporal.Moment → Bool
  | date, .date _ => true
  | time, .time _ => true
  | civil, .civil _ _ => true
  | civil, .zoned _ => true
  | zoned, .zoned _ => true
  | _, _ => false

/-- Whether the body is a moment of a form that the word admits. -/
def admitsBody (w : TypeWord) (body : List Char) : Bool :=
  (Temporal.Moment.read body).any w.admits

/-- The kind of a literal with the given body, or why the word does not admit the body
    (`scan_typed_literal`, with the reasons of `expected_form`). -/
def kindOf (w : TypeWord) (body : List Char) : Except Literal.Reason Literal.Kind :=
  match w with
  | hex => if (Bytes.Hex.decode body).isSome then .ok .binary else .error .notHex
  | date => if w.admitsBody body then .ok .dateTime else .error .notDate
  | civil => if w.admitsBody body then .ok .dateTime else .error .notCivil
  | zoned => if w.admitsBody body then .ok .dateTime else .error .notZoned
  | time =>
    if (Temporal.Duration.read body).isSome then .ok .duration
    else if w.admitsBody body then .ok .dateTime
    else .error .notTime
  | guid => .ok .guid
  | binary => .ok .binary
  | duration => .ok .duration

end TypeWord

end QueryExpr.Token
