import QueryExpr.Number.Digits

/-!
# Calendar dates

A date of the proleptic Gregorian calendar with a year from -262143 to 262142. The
range and the notation are those of the library `chrono`.

* `Date.of?`: the date with the given numbers, if there is one.
* `Date.dayNumber`: the days since the first of March of the year 0.
* `Date.chars`: `2024-05-01`; a year outside 0 to 9999 has a sign.
-/

namespace QueryExpr.Temporal

/-- Whether `year` has a 29th of February. -/
def isLeapYear (year : Int) : Bool :=
  year % 4 == 0 && (year % 100 != 0 || year % 400 == 0)

/-- The number of days of a month, zero if there is no such month. -/
def daysInMonth (year : Int) (month : Nat) : Nat :=
  if month = 2 then (if isLeapYear year then 29 else 28)
  else if month ∈ [4, 6, 9, 11] then 30
  else if 1 ≤ month && month ≤ 12 then 31
  else 0

/-- The first year with dates (the year of `NaiveDate.MIN`). -/
def minYear : Int := -262143

/-- The last year with dates (the year of `NaiveDate.MAX`). -/
def maxYear : Int := 262142

/-- Whether the numbers name a day of the calendar. -/
def isDate (year : Int) (month day : Nat) : Bool :=
  minYear ≤ year && year ≤ maxYear && 1 ≤ day && day ≤ daysInMonth year month

/-- A day of the calendar (`NaiveDate`). -/
structure Date where
  year : Int
  month : Nat
  day : Nat
  isDate : isDate year month day = true
  deriving DecidableEq

namespace Date

instance : Inhabited Date := ⟨⟨0, 1, 1, by decide⟩⟩

/-- The date with the given numbers. -/
def of? (year : Int) (month day : Nat) : Option Date :=
  if h : Temporal.isDate year month day = true then some ⟨year, month, day, h⟩ else none

/-- The days before the first of March of a year, counted from the year 0. -/
def daysBeforeMarch (year : Int) : Int := 365 * year + year / 4 - year / 100 + year / 400

/-- The days since the first of March of the year 0. January and February count as the end of the
    year before. -/
def dayNumber (d : Date) : Int :=
  let year := if d.month < 3 then d.year - 1 else d.year
  let month := if d.month < 3 then d.month + 9 else d.month - 3
  daysBeforeMarch year + ((153 * month + 2) / 5 : Nat) + (d.day - 1 : Nat)

/-- The day number of the first day of the calendar. -/
def firstDayNumber : Int := daysBeforeMarch (minYear - 1) + 306

/-- The day number of the last day of the calendar. -/
def lastDayNumber : Int := daysBeforeMarch maxYear + 305

/-- A year as four digits, with a sign if it is outside 0 to 9999. -/
def yearChars (year : Int) : List Char :=
  if year < 0 then '-' :: Number.Digits.padded 4 year.natAbs
  else if 9999 < year then '+' :: Number.Digits.padded 4 year.natAbs
  else Number.Digits.padded 4 year.natAbs

/-- Year, month and day with hyphens between them (the format `%Y-%m-%d`). -/
def chars (d : Date) : List Char :=
  yearChars d.year ++ '-' :: (Number.Digits.padded 2 d.month ++
    '-' :: Number.Digits.padded 2 d.day)

end Date

end QueryExpr.Temporal
