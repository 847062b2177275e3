import QueryExpr.Temporal.Clock
import QueryExpr.Temporal.Date

/-!
# Dates, times and points in time

A moment is a date, a time of day, a date with a time, or a date with a time and
its offset from universal time (specification, 3). An offset is a whole number of
minutes below a day, and the date in universal time has to be one of the calendar
too, as the library `chrono` has it.

* `Zoned.instant`: the point in time, in universal time.
* `Moment.same`: equality, where moments with an offset are compared as points in time.
* `Moment.text`: the moment as a typed literal.
* `Moment.isoText`: the moment in the notation of ISO 8601.
-/

namespace QueryExpr.Temporal

/-- A minute of universal time, counted from the first of March of the year 0, a second of it and
    a fraction of that second. -/
structure Instant where
  minute : Int
  second : Nat
  nano : Nat
  deriving DecidableEq, Repr

/-- Whether the minute belongs to a day of the calendar. -/
def Instant.inCalendar (i : Instant) : Bool :=
  Date.firstDayNumber * 1440 ≤ i.minute && i.minute < (Date.lastDayNumber + 1) * 1440

/-- The point in time at which clocks that are `offset` minutes ahead show a date and a time. -/
def instantOf (date : Date) (clock : Clock) (offset : Int) : Instant :=
  ⟨date.dayNumber * 1440 + clock.minuteOfDay - offset, clock.second, clock.nano⟩

/-- A date and a time on clocks that are `offset` minutes ahead of universal time (`DateTime` with a
    `FixedOffset`). -/
structure Zoned where
  date : Date
  clock : Clock
  offset : Int
  offset_lt : offset.natAbs < 1440
  inCalendar : (instantOf date clock offset).inCalendar = true
  deriving DecidableEq

namespace Zoned

/-- The date and time with the given offset. -/
def of? (date : Date) (clock : Clock) (offset : Int) : Option Zoned :=
  if h : offset.natAbs < 1440 ∧ (instantOf date clock offset).inCalendar = true then
    some ⟨date, clock, offset, h.1, h.2⟩
  else none

/-- The point in time. -/
def instant (z : Zoned) : Instant := instantOf z.date z.clock z.offset

/-- Hours and minutes of an offset behind its sign. -/
def offsetChars (offset : Int) : List Char :=
  (if offset < 0 then '-' else '+') ::
    (Number.Digits.padded 2 (offset.natAbs / 60) ++
      ':' :: Number.Digits.padded 2 (offset.natAbs % 60))

end Zoned

/-- A date, a time of day, or both (`DateTimeValue`). -/
inductive Moment where
  | date (d : Date)
  | time (c : Clock)
  /-- A date and a time of no particular offset. -/
  | civil (d : Date) (c : Clock)
  | zoned (z : Zoned)
  deriving DecidableEq

namespace Moment

/-- Whether two moments are equal: those with an offset as points in time, others in all parts (the
    `PartialEq` of `DateTimeValue`). -/
def same : Moment → Moment → Bool
  | date a, date b => a == b
  | time a, time b => a == b
  | civil a s, civil b t => a == b && s == t
  | zoned a, zoned b => a.instant == b.instant
  | _, _ => false

/-- A date and a time with a `T` between them. -/
def civilChars (d : Date) (c : Clock) : List Char := d.chars ++ 'T' :: c.chars

/-- ISO 8601 notation, where an offset of zero is written as numbers (`to_rfc3339` if there is an
    offset). -/
def bodyChars : Moment → List Char
  | date d => d.chars
  | time c => c.chars
  | civil d c => civilChars d c
  | zoned z => civilChars z.date z.clock ++ Zoned.offsetChars z.offset

/-- The word before the quotes of a typed literal. -/
def word : Moment → String
  | date _ => "date"
  | time _ => "time"
  | civil _ _ | zoned _ => "datetime"

/-- The moment as a typed literal (the `Display` of `DateTimeValue`). -/
def text (m : Moment) : String := m.word ++ "'" ++ String.ofList m.bodyChars ++ "'"

/-- ISO 8601 notation, where an offset of zero is written as `Z` (the `Serialize` of `chrono`). -/
def isoText (m : Moment) : String :=
  match m with
  | zoned z =>
    if z.offset = 0 then String.ofList (civilChars z.date z.clock ++ ['Z'])
    else String.ofList m.bodyChars
  | _ => String.ofList m.bodyChars

end Moment

end QueryExpr.Temporal
