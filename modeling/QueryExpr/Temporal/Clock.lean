import QueryExpr.Number.Digits

/-!
# Times of day

A time of day to the nanosecond. The second 60 is a leap second, which may end
any minute. These are the times and the notation of the library `chrono`.

* `Clock.chars`: `13:20:05`, with three, six or nine places if there is a fraction.
-/

namespace QueryExpr.Temporal

/-- A time of day (`NaiveTime`). -/
structure Clock where
  hour : Nat
  minute : Nat
  second : Nat
  nano : Nat
  hour_lt : hour < 24
  minute_lt : minute < 60
  second_le : second ≤ 60
  nano_lt : nano < 1000000000
  deriving DecidableEq

namespace Clock

instance : Inhabited Clock := ⟨⟨0, 0, 0, 0, by decide, by decide, by decide, by decide⟩⟩

/-- The time with the given numbers. -/
def of? (hour minute second nano : Nat) : Option Clock :=
  if h : hour < 24 ∧ minute < 60 ∧ second ≤ 60 ∧ nano < 1000000000 then
    some ⟨hour, minute, second, nano, h.1, h.2.1, h.2.2.1, h.2.2.2⟩
  else none

/-- The minutes since midnight. -/
def minuteOfDay (c : Clock) : Nat := c.hour * 60 + c.minute

/-- A fraction of a second in the fewest groups of three places (the format `%.f`). -/
def fractionChars (nano : Nat) : List Char :=
  if nano = 0 then []
  else if nano % 1000000 = 0 then '.' :: Number.Digits.padded 3 (nano / 1000000)
  else if nano % 1000 = 0 then '.' :: Number.Digits.padded 6 (nano / 1000)
  else '.' :: Number.Digits.padded 9 nano

/-- Hour, minute and second with colons between them, and the fraction (the format
    `%H:%M:%S%.f`). -/
def chars (c : Clock) : List Char :=
  Number.Digits.padded 2 c.hour ++ ':' :: (Number.Digits.padded 2 c.minute ++
    ':' :: (Number.Digits.padded 2 c.second ++ fractionChars c.nano))

end Clock

end QueryExpr.Temporal
