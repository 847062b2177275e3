import QueryExpr.Text.CharClass

/-!
# Decimal digits

* `value`: the number an ASCII digit stands for.
* `ofChars`: the number a run of digits stands for.
* `toChars`: the digits of a number, without leading zeros.
* `padded`: the digits of a number, with leading zeros up to a width.
* `ofChars_toChars`: writing a number and reading it back changes nothing.
-/

namespace QueryExpr.Number.Digits

open Text (isDigit)

/-- The number that the ASCII digit `c` stands for. -/
def value (c : Char) : Nat := c.toNat - '0'.toNat

/-- The number that a run of ASCII digits stands for. -/
def ofChars (cs : List Char) : Nat := Nat.ofDigitChars 10 cs 0

/-- The digits of `n`, most significant first. -/
def toChars (n : Nat) : List Char := Nat.toDigits 10 n

/-- The digits of `n`, with leading zeros up to `width` characters. -/
def padded (width n : Nat) : List Char :=
  List.replicate (width - (toChars n).length) '0' ++ toChars n

/-- The run of ASCII digits at the front of a text. -/
def run (cs : List Char) : List Char := cs.takeWhile isDigit

/-- The text behind the run of ASCII digits at its front. -/
def afterRun (cs : List Char) : List Char := cs.dropWhile isDigit

theorem ofChars_toChars (n : Nat) : ofChars (toChars n) = n := by
  simp [ofChars, toChars, Nat.ofDigitChars_ten_toDigits]

theorem isDigit_of_mem_toChars {n : Nat} {c : Char} (h : c ∈ toChars n) : isDigit c = true :=
  Nat.isDigit_of_mem_toDigits (by decide) (by decide) h

theorem toChars_ne_nil (n : Nat) : toChars n ≠ [] := Nat.toDigits_ne_nil

theorem run_append_afterRun (cs : List Char) : run cs ++ afterRun cs = cs :=
  List.takeWhile_append_dropWhile

end QueryExpr.Number.Digits
