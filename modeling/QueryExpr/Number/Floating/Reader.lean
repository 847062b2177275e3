import QueryExpr.Number.Digits
import QueryExpr.Number.Floating

/-!
# Reading floating-point numbers

A number is an optional sign, digits with at most one point and at least one digit
among them, and an optional power of ten. In place of the digits there may be
`inf`, `infinity` or `nan`, in any case. The value is the one of the format
nearest to the number as written. This is the documented behaviour of `from_str` of
`f32` and `f64`.

* `read`: the value of a text.
-/

namespace QueryExpr.Number.Floating

/-- Why a text is no floating-point number (`ParseFloatError`). -/
inductive Fault where
  | empty
  | invalid
  deriving DecidableEq, Repr

/-- What is wrong, in words. -/
def Fault.message : Fault → String
  | .empty => "cannot parse float from empty string"
  | .invalid => "invalid float literal"

/-- The number `digits * 10 ^ power`. -/
structure Scaled where
  digits : Nat
  power : Int
  deriving DecidableEq, Repr

/-- Splits an optional sign off; the sign is true for a minus. -/
def splitSign : List Char → Bool × List Char
  | '-' :: cs => (true, cs)
  | '+' :: cs => (false, cs)
  | cs => (false, cs)

/-- Reads the power of ten at the end of a number. -/
def readPower : List Char → Option Int
  | [] => some 0
  | c :: cs =>
    let (negative, ds) := splitSign cs
    if (c = 'e' || c = 'E') && !ds.isEmpty && ds.all Text.isDigit then
      let power : Int := Digits.ofChars ds
      some (if negative then -power else power)
    else none

/-- The digits behind a point at the front of a text, and the text behind them. -/
def splitFraction : List Char → List Char × List Char
  | '.' :: cs => (Digits.run cs, Digits.afterRun cs)
  | cs => ([], cs)

/-- Reads an unsigned number. -/
def readScaled (cs : List Char) : Option Scaled := do
  let whole := Digits.run cs
  let (fraction, behind) := splitFraction (Digits.afterRun cs)
  if whole.isEmpty && fraction.isEmpty then none
  else do
    let power ← readPower behind
    some ⟨Digits.ofChars (whole ++ fraction), power - fraction.length⟩

/-- Beyond this many decimal places before or behind the point, every value of either format is
    zero or infinite. -/
def placeBound : Int := 400

/-- The value of a format nearest to a scaled number. -/
def Scaled.toFloating (s : Scaled) (f : Format) (negative : Bool) : Floating :=
  let places : Int := s.power + (Digits.toChars s.digits).length
  if s.digits = 0 || places < -placeBound then f.round negative 0 1
  else if placeBound < places then infinite negative
  else if 0 ≤ s.power then f.round negative (s.digits * Nat.pow 10 s.power.toNat) 1
  else f.round negative s.digits (Nat.pow 10 (-s.power).toNat)

/-- The value of one of the words for what is not finite. -/
def ofWord? (negative : Bool) (cs : List Char) : Option Floating :=
  let word := String.ofList (cs.map Char.toLower)
  if word = "nan" then some nan
  else if word = "inf" || word = "infinity" then some (infinite negative)
  else none

/-- Reads a floating-point number (`from_str` of `f32` and `f64`). -/
def read (f : Format) (cs : List Char) : Except Fault Floating :=
  if cs.isEmpty then .error .empty
  else
    let (negative, unsigned) := splitSign cs
    match readScaled unsigned with
    | some s => .ok (s.toFloating f negative)
    | none =>
      match ofWord? negative unsigned with
      | some v => .ok v
      | none => .error .invalid

end QueryExpr.Number.Floating
