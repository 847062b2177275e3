/-!
# Bytes as hexadecimal digits

A byte is two digits, the high half first. Both cases are read; which one is
written is the choice of the caller. This is the documented behaviour of the library
`hex`.

* `decode_encode`: digits written for bytes read back as those bytes.
-/

namespace QueryExpr.Bytes.Hex

/-- The number that a hexadecimal digit of either case stands for. -/
def digit? (c : Char) : Option Nat :=
  if '0' ≤ c && c ≤ '9' then some (c.toNat - '0'.toNat)
  else if 'a' ≤ c && c ≤ 'f' then some (c.toNat - 'a'.toNat + 10)
  else if 'A' ≤ c && c ≤ 'F' then some (c.toNat - 'A'.toNat + 10)
  else none

/-- Whether a character is a hexadecimal digit. -/
def isDigit (c : Char) : Bool := (digit? c).isSome

/-- The digits of the numbers below sixteen. -/
inductive Case where
  | lower
  | upper
  deriving DecidableEq, Repr

/-- The digit of a number below sixteen. -/
def Case.digit (case : Case) (n : Nat) : Char :=
  if n < 10 then Char.ofNat ('0'.toNat + n)
  else match case with
    | .lower => Char.ofNat ('a'.toNat + (n - 10))
    | .upper => Char.ofNat ('A'.toNat + (n - 10))

/-- The digits of bytes (`hex.encode_upper` for the upper case). -/
def encode (case : Case) : List UInt8 → List Char
  | [] => []
  | b :: bs => case.digit (b.toNat / 16) :: case.digit (b.toNat % 16) :: encode case bs

/-- The bytes written as an even number of digits (`hex.decode`). -/
def decode : List Char → Option (List UInt8)
  | [] => some []
  | [_] => none
  | high :: low :: cs => do
    let h ← digit? high
    let l ← digit? low
    let bs ← decode cs
    some (UInt8.ofNat (16 * h + l) :: bs)

/-! ## Reading back what was written -/

theorem digit?_digit (case : Case) {n : Nat} (h : n < 16) : digit? (case.digit n) = some n := by
  have all : ∀ m : Fin 16, digit? (case.digit m) = some m.val := by
    cases case <;> decide
  exact all ⟨n, h⟩

theorem decode_encode (case : Case) (bs : List UInt8) : decode (encode case bs) = some bs := by
  induction bs with
  | nil => rfl
  | cons b bs ih =>
    have hb : b.toNat < 256 := b.toNat_lt
    simp only [encode, decode, digit?_digit case (show b.toNat / 16 < 16 by omega),
      digit?_digit case (show b.toNat % 16 < 16 by omega), ih, Option.bind_eq_bind, Option.bind_some]
    rw [Nat.div_add_mod, UInt8.ofNat_toNat]

end QueryExpr.Bytes.Hex
