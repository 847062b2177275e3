import QueryExpr.Number.Digits
import QueryExpr.Number.Floating

/-!
# Shortest digits of a floating-point value

Among the decimal numbers that read back as a given value, the shortest ones are
those with the fewest digits; of them the nearest to the value is taken, the upper
one on a tie. This is the notation in which `f32` and `f64` are shown for debugging.

A number reads back as `significand * 2 ^ exponent` if it lies between the middles
to the two neighbouring values of the format; the middles themselves belong to
the value exactly when its significand is even.

* `Interval.around`: the numbers that read back as a value.
* `shortest`: the shortest digits and their power of ten.
* `text`: the value in positional or scientific notation.
-/

namespace QueryExpr.Number.Floating

/-- The numbers that read back as one value: those from `low / den` to `high / den`, around
    `mid / den`. -/
structure Interval where
  low : Nat
  mid : Nat
  high : Nat
  den : Nat
  /-- Whether the ends belong to the interval. -/
  closed : Bool
  deriving DecidableEq, Repr

namespace Interval

/-- The numbers that read back as `significand * 2 ^ exponent`. The lower neighbour is only half
    as far away where the power of two changes. -/
def around (f : Format) (significand : Nat) (exponent : Int) : Interval :=
  let below :=
    if significand = Nat.pow 2 (f.precision - 1) && f.minExponent < exponent then 1 else 2
  let up := if 0 ≤ exponent then Nat.pow 2 exponent.toNat else 1
  let den := if 0 ≤ exponent then 4 else 4 * Nat.pow 2 (-exponent).toNat
  ⟨(4 * significand - below) * up, 4 * significand * up, (4 * significand + 2) * up, den,
    significand % 2 == 0⟩

/-- Whether `n * 10 ^ power` lies in the interval. -/
def holds (i : Interval) (n : Nat) (power : Int) : Bool :=
  let num := if 0 ≤ power then n * Nat.pow 10 power.toNat * i.den else n * i.den
  let scale := if 0 ≤ power then 1 else Nat.pow 10 (-power).toNat
  if i.closed then i.low * scale ≤ num && num ≤ i.high * scale
  else i.low * scale < num && num < i.high * scale

/-- The largest `n` such that `n * 10 ^ power` is at most the middle. -/
def floorAt (i : Interval) (power : Int) : Nat :=
  if 0 ≤ power then i.mid / (i.den * Nat.pow 10 power.toNat)
  else i.mid * Nat.pow 10 (-power).toNat / i.den

/-- Whether `n + 1` times `10 ^ power` is at least as near to the middle as `n` times it, where
    the middle lies between them. -/
def upperNearer (i : Interval) (n : Nat) (power : Int) : Bool :=
  if 0 ≤ power then (2 * n + 1) * Nat.pow 10 power.toNat * i.den ≤ 2 * i.mid
  else (2 * n + 1) * i.den ≤ 2 * i.mid * Nat.pow 10 (-power).toNat

/-- The exponent of the first digit of the middle in decimal notation. -/
def leading (i : Interval) : Int :=
  if i.den ≤ i.mid then (Digits.toChars (i.mid / i.den)).length - 1
  else
    let places := (Digits.toChars (i.den / i.mid)).length
    if i.mid * Nat.pow 10 (places - 1) = i.den then -((places : Int) - 1) else -(places : Int)

/-- The multiple of `10 ^ power` nearest to the middle that lies in the interval, if there is
    one. -/
def nearestAt (i : Interval) (power : Int) : Option Nat :=
  let n := i.floorAt power
  match i.holds n power, i.holds (n + 1) power with
  | true, true => some (if i.upperNearer n power then n + 1 else n)
  | true, false => some n
  | false, true => some (n + 1)
  | false, false => none

/-- Tries ever finer powers of ten, starting with `power`; gives digits and their power. -/
def search (i : Interval) : Nat → Int → Nat × Int
  | 0, power => (i.floorAt power, power)
  | more + 1, power =>
    match i.nearestAt power with
    | some n => (n, power)
    | none => search i more (power - 1)

end Interval

/-- The digits that suffice for every value of either format. -/
def enoughDigits : Nat := 17

/-- The shortest digits that read back as `significand * 2 ^ exponent`, for a positive
    significand, and their power of ten. -/
def shortest (f : Format) (significand : Nat) (exponent : Int) : Nat × Int :=
  let i := Interval.around f significand exponent
  i.search enoughDigits i.leading

/-! ## Notation -/

/-- How numbers are laid out: the exponents of the first digit from which on, and below which,
    positional notation is used. -/
structure Layout where
  fromExponent : Int
  belowExponent : Int
  deriving DecidableEq, Repr

/-- Positional notation from one ten-thousandth up to below ten to the sixteenth, as the `Debug` of
    `f32` and `f64` has it. -/
def layout : Layout := ⟨-4, 16⟩

/-- Digits without the zeros at their end. -/
def dropTrailingZeros (ds : List Char) : List Char := (ds.reverse.dropWhile (· == '0')).reverse

/-- Digits whose first one has the exponent `lead`, in positional notation with at least one place
    behind the point. -/
def positional (ds : List Char) (lead : Int) : List Char :=
  if lead < 0 then
    '0' :: '.' :: (List.replicate ((-lead).toNat - 1) '0' ++ ds)
  else
    let whole := lead.toNat + 1
    let front := ds.take whole ++ List.replicate (whole - ds.length) '0'
    let back := ds.drop whole
    front ++ '.' :: (if back.isEmpty then ['0'] else back)

/-- Digits whose first one has the exponent `lead`, in scientific notation. -/
def scientific (ds : List Char) (lead : Int) : List Char :=
  let front := ds.take 1
  let back := ds.drop 1
  let sign := if lead < 0 then ['-'] else []
  front ++ (if back.isEmpty then [] else '.' :: back) ++
    'e' :: (sign ++ Digits.toChars lead.natAbs)

/-- The magnitude of a finite value. -/
def magnitudeChars (f : Format) (significand : Nat) (exponent : Int) : List Char :=
  if significand = 0 then ['0', '.', '0']
  else
    let (digits, power) := shortest f significand exponent
    let all := Digits.toChars digits
    let lead : Int := power + all.length - 1
    let ds := dropTrailingZeros all
    if layout.fromExponent ≤ lead && lead < layout.belowExponent then positional ds lead
    else scientific ds lead

/-- The shortest text of a finite value (the `Debug` of `f32` and `f64`); what is not finite is
    written as `NaN`, `INF` or `-INF` (`write_non_finite`). -/
def chars (f : Format) : Floating → List Char
  | nan => ['N', 'a', 'N']
  | infinite false => ['I', 'N', 'F']
  | infinite true => ['-', 'I', 'N', 'F']
  | finite false m e => magnitudeChars f m e
  | finite true m e => '-' :: magnitudeChars f m e

/-- The shortest text of a value. -/
def text (f : Format) (v : Floating) : String := String.ofList (chars f v)

end QueryExpr.Number.Floating
