/-!
# Bytes in base 64

Three bytes are four characters of the standard alphabet. A last group of one or
two bytes is filled up with `=`, and the bits that it does not use have to be
zero, so every byte string has exactly one form. This is the documented behaviour of
the engine `STANDARD` of the library `base64`.
-/

namespace QueryExpr.Bytes.Base64

/-- The number that a character of the alphabet `STANDARD` stands for. -/
def sextet? (c : Char) : Option Nat :=
  if 'A' ≤ c && c ≤ 'Z' then some (c.toNat - 'A'.toNat)
  else if 'a' ≤ c && c ≤ 'z' then some (c.toNat - 'a'.toNat + 26)
  else if '0' ≤ c && c ≤ '9' then some (c.toNat - '0'.toNat + 52)
  else if c == '+' then some 62
  else if c == '/' then some 63
  else none

/-- The bytes written as groups of four characters (`STANDARD.decode` of `base64`). -/
def decode : List Char → Option (List UInt8)
  | [] => some []
  | [c₁, c₂, '=', '='] => do
    let a ← sextet? c₁
    let b ← sextet? c₂
    if b % 16 = 0 then some [UInt8.ofNat (a * 4 + b / 16)] else none
  | [c₁, c₂, c₃, '='] => do
    let a ← sextet? c₁
    let b ← sextet? c₂
    let c ← sextet? c₃
    if c % 4 = 0 then
      some [UInt8.ofNat (a * 4 + b / 16), UInt8.ofNat (b % 16 * 16 + c / 4)]
    else none
  | c₁ :: c₂ :: c₃ :: c₄ :: cs => do
    let a ← sextet? c₁
    let b ← sextet? c₂
    let c ← sextet? c₃
    let d ← sextet? c₄
    let bs ← decode cs
    some (UInt8.ofNat (a * 4 + b / 16) :: UInt8.ofNat (b % 16 * 16 + c / 4) ::
      UInt8.ofNat (c % 4 * 64 + d) :: bs)
  | _ => none

end QueryExpr.Bytes.Base64
