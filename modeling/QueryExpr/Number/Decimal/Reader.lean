import QueryExpr.Number.Decimal

/-!
# Reading decimals

Plain notation is an optional sign, digits with at most one point among them, and
underscores anywhere behind the first digit. A whole part beyond 96 bits is
refused. A fractional digit that does not fit, because 28 places are taken or the
units would pass 96 bits, rounds the number half up. Behind it only digits and
underscores may stand, and they are of no account.

Scientific notation is plain notation, `e` or `E`, and a power of ten. A negative
power adds places, a positive one takes places away and then appends zeros; the
result has to fit without rounding. Both are as `from_str` and `from_scientific` of
the library type `Decimal` have them.

* `readPlain`, `readScientific`: the two notations.
* `read`: scientific notation if there is an `e` or `E`, else plain notation.
-/

namespace QueryExpr.Number.Decimal

/-- What has been taken in of a magnitude. -/
structure Partial where
  units : Nat
  scale : Nat
  /-- Whether the point has been passed. -/
  pointed : Bool
  /-- Whether a digit has been passed. -/
  started : Bool
  deriving DecidableEq, Repr

namespace Partial

/-- Nothing taken in yet. -/
def start : Partial := ⟨0, 0, false, false⟩

/-- Rounds half up by a digit for which there is no place. If the units then pass 96 bits, one
    place is given up. -/
def round (p : Partial) (digit : Nat) : Option (Nat × Nat) :=
  if digit < 5 then some (p.units, p.scale)
  else if p.units + 1 < unitBound then some (p.units + 1, p.scale)
  else if p.scale = 0 then none
  else some ((p.units + 1 + 4) / 10, p.scale - 1)

/-- Whether all decimal places are taken. -/
def isFull (p : Partial) : Bool := p.pointed && maxScale ≤ p.scale

/-- The bound of small units: without their last digit they are less than a tenth of 64 bits, with
    a margin of one byte. -/
def smallBound : Nat := 10 * (Nat.pow 2 64 / 10 - 255)

/-- Rounds by a digit behind which the text `rest` stands, which has to be digits and
    underscores. -/
def roundBefore (p : Partial) (digit : Nat) (rest : List Char) : Option (Nat × Nat) :=
  if rest.all (fun c => Text.isDigit c || c == '_') then p.round digit else none

/-- Takes in the rest of a magnitude; gives its units and scale. Behind the last place an underscore
    counts as a digit zero while the units are small, and otherwise is passed over. -/
def finish (p : Partial) : List Char → Option (Nat × Nat)
  | [] => if p.started then some (p.units, p.scale) else none
  | c :: cs =>
    if Text.isDigit c then
      let next := p.units * 10 + Digits.value c
      if p.isFull || (p.pointed && unitBound ≤ next) then p.roundBefore (Digits.value c) cs
      else if unitBound ≤ next then none
      else finish ⟨next, if p.pointed then p.scale + 1 else p.scale, p.pointed, true⟩ cs
    else if c = '.' && !p.pointed then finish { p with pointed := true } cs
    else if c = '_' && p.started then
      if p.isFull && p.units < smallBound then p.roundBefore 0 cs else finish p cs
    else none

end Partial

/-- Reads an unsigned number in plain notation. -/
def readMagnitude (cs : List Char) : Option (Nat × Nat) := Partial.start.finish cs

/-- Reads a number in plain notation (`from_str` of `Decimal`). -/
def readPlain : List Char → Option Decimal
  | '-' :: cs => do
    let (units, scale) ← readMagnitude cs
    of? (-(units : Int)) scale
  | '+' :: cs => do
    let (units, scale) ← readMagnitude cs
    of? units scale
  | cs => do
    let (units, scale) ← readMagnitude cs
    of? units scale

/-- The number of bits of an exponent. -/
def exponentBits : Nat := 32

/-- The decimal `d * 10 ^ power`, where zeros are appended only if no places are left. -/
def raise (d : Decimal) (power : Nat) : Option Decimal :=
  if power ≤ d.scale then of? d.units (d.scale - power)
  else if power ≤ maxScale then of? (d.units * Nat.pow 10 (power - d.scale)) 0
  else none

/-- The decimal `d / 10 ^ power`, with `power` more places. -/
def lower (d : Decimal) (power : Nat) : Option Decimal := of? d.units (d.scale + power)

/-- Multiplies by the power of ten written behind the `e` of scientific notation. -/
def applyExponent (d : Decimal) : List Char → Option Decimal
  | '-' :: cs => do
    let power ← (Integer.readCount exponentBits cs).toOption
    lower d power
  | cs => do
    let power ← (Integer.readCount exponentBits cs).toOption
    raise d power

/-- The letter between the two parts of scientific notation. -/
def isExponentMark (c : Char) : Bool := c == 'e' || c == 'E'

/-- Reads a number in scientific notation (`from_scientific` of `Decimal`). -/
def readScientific (cs : List Char) : Option Decimal := do
  let base ← readPlain (cs.takeWhile (!isExponentMark ·))
  applyExponent base ((cs.dropWhile (!isExponentMark ·)).drop 1)

/-- Reads a number in either notation (`parse_decimal`). -/
def read (cs : List Char) : Option Decimal :=
  if cs.any isExponentMark then readScientific cs else readPlain cs

end QueryExpr.Number.Decimal
