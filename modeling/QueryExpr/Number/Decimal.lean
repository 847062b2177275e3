import QueryExpr.Number.Integer

/-!
# Decimal numbers of 96 bits

A decimal is a whole number of units below `2 ^ 96` in magnitude, together with
the number of its decimal places, at most 28. Equal values may differ in scale:
`1.50` and `1.5` are two decimals of one value. Equality and notation are the
documented ones of the library type `Decimal`.

* `same`: equality of values.
* `strip`: the same value without trailing zeros behind the point.
* `text`: plain notation with all places of the scale.
-/

namespace QueryExpr.Number

/-- The bound on the magnitude of the units. -/
def Decimal.unitBound : Nat := Nat.pow 2 96

/-- The largest number of decimal places. -/
def Decimal.maxScale : Nat := 28

/-- The number `units / 10 ^ scale` (`Decimal`). -/
structure Decimal where
  units : Int
  scale : Nat
  units_lt : units.natAbs < Decimal.unitBound
  scale_le : scale ≤ Decimal.maxScale
  deriving DecidableEq

namespace Decimal

instance : Inhabited Decimal := ⟨0, 0, by decide, by decide⟩

/-- The decimal with the given units and scale, if they are in range. -/
def of? (units : Int) (scale : Nat) : Option Decimal :=
  if h : units.natAbs < unitBound ∧ scale ≤ maxScale then some ⟨units, scale, h.1, h.2⟩ else none

/-- Zero without decimal places. -/
def zero : Decimal := ⟨0, 0, by decide, by decide⟩

/-- Whether the value is zero (`is_zero`). -/
def isZero (d : Decimal) : Bool := d.units == 0

/-- Whether two decimals have the same value (`==` of `Decimal`). -/
def same (a b : Decimal) : Bool :=
  a.units * Nat.pow 10 b.scale == b.units * Nat.pow 10 a.scale

/-- Drops trailing zeros from `units`, at most `scale` of them; gives the rest and the scale that
    is left. -/
def stripZeros (units : Int) : Nat → Int × Nat
  | 0 => (units, 0)
  | scale + 1 =>
    if units % 10 = 0 then stripZeros (units / 10) scale else (units, scale + 1)

theorem stripZeros_natAbs_le (units : Int) (scale : Nat) :
    (stripZeros units scale).1.natAbs ≤ units.natAbs := by
  induction scale generalizing units with
  | zero => simp [stripZeros]
  | succ scale ih =>
    simp only [stripZeros]
    split
    · exact Nat.le_trans (ih _) (by omega)
    · exact Nat.le_refl _

theorem stripZeros_scale_le (units : Int) (scale : Nat) :
    (stripZeros units scale).2 ≤ scale := by
  induction scale generalizing units with
  | zero => simp [stripZeros]
  | succ scale ih =>
    simp only [stripZeros]
    split
    · exact Nat.le_succ_of_le (ih _)
    · exact Nat.le_refl _

/-- The same value without trailing zeros behind the point (`normalize`). -/
def strip (d : Decimal) : Decimal where
  units := (stripZeros d.units d.scale).1
  scale := (stripZeros d.units d.scale).2
  units_lt := Nat.lt_of_le_of_lt (stripZeros_natAbs_le _ _) d.units_lt
  scale_le := Nat.le_trans (stripZeros_scale_le _ _) d.scale_le

/-! ## Writing -/

/-- The digits of the magnitude, with the point `scale` places from the right and at least one
    digit before it. -/
def magnitudeChars (magnitude scale : Nat) : List Char :=
  let digits := Digits.padded (scale + 1) magnitude
  let whole := digits.length - scale
  if scale = 0 then digits else digits.take whole ++ '.' :: digits.drop whole

/-- Plain notation with all places of the scale. -/
def chars (d : Decimal) : List Char :=
  let magnitude := magnitudeChars d.units.natAbs d.scale
  if d.units < 0 then '-' :: magnitude else magnitude

/-- Plain notation with all places of the scale (the `Display` of `Decimal`). -/
def text (d : Decimal) : String := String.ofList d.chars

end Decimal

end QueryExpr.Number
