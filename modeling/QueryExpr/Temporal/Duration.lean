import QueryExpr.Number.Decimal.Reader

/-!
# Durations

A duration keeps its components as they are written: ninety minutes are not an
hour and a half. Only weeks are counted as days.

The notation is an optional minus, `P`, years, months, weeks and days, and behind
a `T` hours, minutes and seconds; every component may be missing, but not all of
them, and not all of those behind the `T` (the pattern `DURATION`). The number of
seconds is read as `from_str` of the library type `Decimal` has it.

* `Duration.read`: the duration that a text is.
* `Duration.text`: the components that are not zero.
* `Duration.same`: equality, where seconds are compared by value.
-/

namespace QueryExpr.Temporal

open Number (Decimal Integer.readCount)

/-- A duration, component by component (`IsoDuration`). -/
structure Duration where
  negative : Bool
  years : UInt32
  months : UInt32
  days : UInt32
  hours : UInt32
  minutes : UInt32
  seconds : Decimal
  deriving DecidableEq

namespace Duration

/-- Whether every component is zero (`is_zero`). -/
def isZero (d : Duration) : Bool :=
  d.years == 0 && d.months == 0 && d.days == 0 && d.hours == 0 && d.minutes == 0 &&
    d.seconds.isZero

/-- Whether two durations have equal components (the `PartialEq` of `IsoDuration`). -/
def same (a b : Duration) : Bool :=
  a.negative == b.negative && a.years == b.years && a.months == b.months && a.days == b.days &&
    a.hours == b.hours && a.minutes == b.minutes && a.seconds.same b.seconds

/-! ## Writing -/

/-- A component with its unit, nothing if it is zero. -/
def component (n : UInt32) (unit : Char) : List Char :=
  if n = 0 then [] else Number.Digits.toChars n.toNat ++ [unit]

/-- The seconds with their unit, nothing if they are zero. -/
def secondsPart (seconds : Decimal) : List Char :=
  if seconds.isZero then [] else seconds.strip.chars ++ ['S']

/-- The components behind the `T`. -/
def clockPart (d : Duration) : List Char :=
  component d.hours 'H' ++ component d.minutes 'M' ++ secondsPart d.seconds

/-- The components before the `T`. -/
def calendarPart (d : Duration) : List Char :=
  component d.years 'Y' ++ component d.months 'M' ++ component d.days 'D'

/-- The components that are not zero; `T0S` if all are. -/
def bodyChars (d : Duration) : List Char :=
  if d.isZero then ['T', '0', 'S']
  else d.calendarPart ++ (if d.clockPart.isEmpty then [] else 'T' :: d.clockPart)

/-- The duration in ISO 8601 notation. -/
def chars (d : Duration) : List Char :=
  (if d.negative then ['-'] else []) ++ 'P' :: d.bodyChars

/-- The duration in ISO 8601 notation (the `Display` of `IsoDuration`). -/
def text (d : Duration) : String := String.ofList d.chars

/-! ## Reading -/

/-- The digits of the component with the given unit at the front of a text, if it is there, and
    the text behind it. -/
def takeComponent (unit : Char) (cs : List Char) : Option (List Char) × List Char :=
  let digits := cs.takeWhile Text.isDecimalDigit
  match cs.dropWhile Text.isDecimalDigit with
  | c :: rest => if c = unit && !digits.isEmpty then (some digits, rest) else (none, cs)
  | [] => (none, cs)

/-- The seconds at the front of a text, digits with an optional fraction, and the text behind
    them. -/
def takeSeconds (cs : List Char) : Option (List Char) × List Char :=
  let digits := cs.takeWhile Text.isDecimalDigit
  if digits.isEmpty then (none, cs)
  else
    match cs.dropWhile Text.isDecimalDigit with
    | 'S' :: rest => (some digits, rest)
    | '.' :: behind =>
      let places := behind.takeWhile Text.isDecimalDigit
      match behind.dropWhile Text.isDecimalDigit with
      | 'S' :: rest => if places.isEmpty then (none, cs) else (some (digits ++ '.' :: places), rest)
      | _ => (none, cs)
    | _ => (none, cs)

/-- The components of a duration as they are written. -/
structure Written where
  negative : Bool
  years : Option (List Char)
  months : Option (List Char)
  weeks : Option (List Char)
  days : Option (List Char)
  /-- Whether there is a `T`. -/
  timed : Bool
  hours : Option (List Char)
  minutes : Option (List Char)
  seconds : Option (List Char)
  deriving DecidableEq, Repr

namespace Written

/-- Whether a component before the `T` is there. -/
def hasCalendar (w : Written) : Bool :=
  w.years.isSome || w.months.isSome || w.weeks.isSome || w.days.isSome

/-- Whether a component behind the `T` is there. -/
def hasClock (w : Written) : Bool := w.hours.isSome || w.minutes.isSome || w.seconds.isSome

/-- Whether enough components are there: at least one, and one behind the `T` if there is a
    `T`. -/
def isComplete (w : Written) : Bool := if w.timed then w.hasClock else w.hasCalendar

/-- The components that a text consists of (the groups of the pattern `DURATION`). -/
def ofChars? (cs : List Char) : Option Written :=
  let (negative, cs) := match cs with
    | '-' :: rest => (true, rest)
    | _ => (false, cs)
  match cs with
  | 'P' :: cs =>
    let (years, cs) := takeComponent 'Y' cs
    let (months, cs) := takeComponent 'M' cs
    let (weeks, cs) := takeComponent 'W' cs
    let (days, cs) := takeComponent 'D' cs
    match cs with
    | [] => some ⟨negative, years, months, weeks, days, false, none, none, none⟩
    | 'T' :: cs =>
      let (hours, cs) := takeComponent 'H' cs
      let (minutes, cs) := takeComponent 'M' cs
      let (seconds, cs) := takeSeconds cs
      if cs.isEmpty then
        some ⟨negative, years, months, weeks, days, true, hours, minutes, seconds⟩
      else none
    | _ => none
  | _ => none

/-- The number of a component of 32 bits, zero if it is missing. -/
def count : Option (List Char) → Option Nat
  | none => some 0
  | some digits => (Integer.readCount 32 digits).toOption

/-- The seconds, zero if they are missing. -/
def secondCount : Option (List Char) → Option Decimal
  | none => some Decimal.zero
  | some digits => Decimal.readPlain digits

/-- The duration of written components, if their numbers are in range. -/
def toDuration? (w : Written) : Option Duration := do
  let weeks ← count w.weeks
  let days ← count w.days
  let years ← count w.years
  let months ← count w.months
  let hours ← count w.hours
  let minutes ← count w.minutes
  let seconds ← secondCount w.seconds
  let total := 7 * weeks + days
  if total < Nat.pow 2 32 then
    some ⟨w.negative, UInt32.ofNat years, UInt32.ofNat months, UInt32.ofNat total,
      UInt32.ofNat hours, UInt32.ofNat minutes, seconds⟩
  else none

end Written

/-- The duration that a text is (`from_str` of `IsoDuration`). -/
def read (cs : List Char) : Option Duration := do
  let w ← Written.ofChars? cs
  if w.isComplete then w.toDuration? else none

/-- What is wrong with a text that is no duration, in words (`InvalidDuration`). -/
def invalidMessage (text : String) : String := s!"invalid ISO 8601 duration '{text}'"

end Duration

end QueryExpr.Temporal
