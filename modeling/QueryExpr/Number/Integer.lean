import QueryExpr.Number.Digits

/-!
# Bounded integers

An integer is written as an optional sign and ASCII digits. Digits are taken in
one at a time, so the first of two faults in a text is the one that is named: a
digit that leaves the range, or a character that is no digit. This is the documented
behaviour of `from_str` of `i32`, `i64` and `u32`.

* `readMagnitude`: digits whose value stays within a limit.
* `readSigned`: an integer of a two's complement range.
* `readCount`: a number without minus sign, below a power of two.
-/

namespace QueryExpr.Number

/-- Why a text is no integer of the wanted range (`ParseIntError`). -/
inductive IntegerFault where
  | empty
  | invalidDigit
  | tooLarge
  | tooSmall
  deriving DecidableEq, Repr

/-- What is wrong, in words. -/
def IntegerFault.message : IntegerFault → String
  | .empty => "cannot parse integer from empty string"
  | .invalidDigit => "invalid digit found in string"
  | .tooLarge => "number too large to fit in target type"
  | .tooSmall => "number too small to fit in target type"

namespace Integer

/-- Takes in digits behind those of value `soFar`. A value above `limit` is the fault `beyond`. -/
def readMagnitude (limit : Nat) (beyond : IntegerFault) (soFar : Nat) :
    List Char → Except IntegerFault Nat
  | [] => .ok soFar
  | c :: cs =>
    if Text.isDigit c then
      let next := soFar * 10 + Digits.value c
      if next ≤ limit then readMagnitude limit beyond next cs else .error beyond
    else .error .invalidDigit

/-- The digits of a number, at least one of them. -/
def readDigits (limit : Nat) (beyond : IntegerFault) (cs : List Char) : Except IntegerFault Nat :=
  if cs.isEmpty then .error .invalidDigit else readMagnitude limit beyond 0 cs

/-- Reads an integer of the two's complement range of `bits` bits (`from_str` of `i32` and
    `i64`). -/
def readSigned (bits : Nat) (cs : List Char) : Except IntegerFault Int :=
  match cs with
  | [] => .error .empty
  | '-' :: ds => (readDigits (Nat.pow 2 (bits - 1)) .tooSmall ds).map (fun n => -(n : Int))
  | '+' :: ds => (readDigits (Nat.pow 2 (bits - 1) - 1) .tooLarge ds).map (fun n => (n : Int))
  | ds => (readDigits (Nat.pow 2 (bits - 1) - 1) .tooLarge ds).map (fun n => (n : Int))

/-- Reads a number below `2 ^ bits`, with an optional plus sign (`from_str` of `u32`). -/
def readCount (bits : Nat) (cs : List Char) : Except IntegerFault Nat :=
  match cs with
  | [] => .error .empty
  | '+' :: ds => readDigits (Nat.pow 2 bits - 1) .tooLarge ds
  | ds => readDigits (Nat.pow 2 bits - 1) .tooLarge ds

/-- The text of an integer. -/
def chars (n : Int) : List Char :=
  if n < 0 then '-' :: Digits.toChars n.natAbs else Digits.toChars n.natAbs

/-- The text of an integer. -/
def text (n : Int) : String := String.ofList (chars n)

end Integer

end QueryExpr.Number
