/-!
# Binary floating-point values

A finite value is a sign, a whole significand and a power of two. A format fixes
how many bits the significand has and how small and large the power may be;
`single` and `double` are the interchange formats of 32 and 64 bits, `f32` and `f64`.

* `same`: equality of values, where a NaN differs from itself and both zeros are equal.
* `Format.round`: the value of a format nearest to a fraction, ties to even.
-/

namespace QueryExpr.Number

/-- A binary floating-point value. -/
inductive Floating where
  | nan
  | infinite (negative : Bool)
  /-- The value `± significand * 2 ^ exponent`. -/
  | finite (negative : Bool) (significand : Nat) (exponent : Int)
  deriving DecidableEq, Repr, Inhabited

namespace Floating

/-- Whether the value is neither infinite nor a NaN (`is_finite`). -/
def isFinite : Floating → Bool
  | finite .. => true
  | _ => false

/-- Equality of values (`==` of `f32` and `f64`). -/
def same : Floating → Floating → Bool
  | infinite a, infinite b => a == b
  | finite a m p, finite b n q => (m == 0 && n == 0) || (a == b && m == n && p == q)
  | _, _ => false

/-- The bits of a significand, and the least and greatest power of two. -/
structure Format where
  precision : Nat
  minExponent : Int
  maxExponent : Int
  deriving DecidableEq, Repr

namespace Format

/-- The format of 32 bits (`f32`). -/
def single : Format := ⟨24, -149, 104⟩

/-- The format of 64 bits (`f64`). -/
def double : Format := ⟨53, -1074, 971⟩

/-- The quotient `num / den` rounded to a whole number, a half to the even neighbour. -/
def divideToEven (num den : Nat) : Nat :=
  let whole := num / den
  let twice := 2 * (num % den)
  if twice < den then whole
  else if den < twice then whole + 1
  else if whole % 2 = 0 then whole
  else whole + 1

/-- The largest `e` with `2 ^ e ≤ num / den`, for positive `num` and `den`. -/
def floorLog2 (num den : Nat) : Int :=
  let guess : Int := (num.log2 : Int) - (den.log2 : Int)
  let reached :=
    if 0 ≤ guess then den * Nat.pow 2 guess.toNat ≤ num else den ≤ num * Nat.pow 2 (-guess).toNat
  if reached then guess else guess - 1

/-- The multiple of `2 ^ exponent` nearest to `num / den`, as a multiple. -/
def quantize (num den : Nat) (exponent : Int) : Nat :=
  if 0 ≤ exponent then divideToEven num (den * Nat.pow 2 exponent.toNat)
  else divideToEven (num * Nat.pow 2 (-exponent).toNat) den

/-- The value of the format nearest to `± num / den`, for positive `den`; a tie goes to the even
    significand, and what lies beyond the largest finite value becomes infinite. -/
def round (f : Format) (negative : Bool) (num den : Nat) : Floating :=
  if num = 0 then finite negative 0 f.minExponent
  else
    let exponent := max (floorLog2 num den - (f.precision - 1)) f.minExponent
    let significand := quantize num den exponent
    let carried := significand = Nat.pow 2 f.precision
    let significand := if carried then Nat.pow 2 (f.precision - 1) else significand
    let exponent := if carried then exponent + 1 else exponent
    if f.maxExponent < exponent then infinite negative else finite negative significand exponent

end Format

end Floating

end QueryExpr.Number
