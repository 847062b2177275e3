import QueryExpr.Proofs.Numerals
import QueryExpr.Proofs.Sole

/-!
# The type of an integer

An integer without a letter has the narrowest type that holds it, whatever zeros stand in front of
it. Its sign belongs to it when the type is chosen, so each type holds one number more below zero
than above.

* `Integer.readSigned_signed`, `Decimal.readPlain_signed`: which signed digits are numbers of a
  bounded type.
* `Token.integerKind?_signed`: the type of signed digits.
* `Lexer.NarrowestInteger`, `Lexer.LongInteger`: what a text is that consists of an integer, or of
  an integer and the letter for 64 bits.
* `Lexer.tokenize_integer`: so are all texts that consist of a sign and digits.
-/

namespace QueryExpr

open Text (isDigit)

namespace Number

/-- The integer has `bits` bits in two's complement. -/
def Integer.Fits (bits : Nat) (v : Int) : Prop :=
  -(Nat.pow 2 (bits - 1) : Int) ≤ v ∧ v < (Nat.pow 2 (bits - 1) : Int)

instance (bits : Nat) (v : Int) : Decidable (Integer.Fits bits v) :=
  inferInstanceAs (Decidable (_ ∧ _))

theorem Integer.fits_neg {bits n : Nat} : Fits bits (-n) ↔ n ≤ Nat.pow 2 (bits - 1) := by
  have hpos : 0 < Nat.pow 2 (bits - 1) := Nat.pow_pos (by decide)
  rw [Fits]
  omega

theorem Integer.fits_natCast {bits n : Nat} : Fits bits n ↔ n ≤ Nat.pow 2 (bits - 1) - 1 := by
  have hpos : 0 < Nat.pow 2 (bits - 1) := Nat.pow_pos (by decide)
  rw [Fits]
  omega

/-- The integer that digits behind a sign stand for. -/
def signedValue (sign digits : List Char) : Int :=
  if sign = ['-'] then -(Digits.ofChars digits : Int) else Digits.ofChars digits

open Token (signed)

variable {sign digits : List Char} (hd : ∀ c ∈ digits, isDigit c = true)

section

include hd

/-- Nothing but its digits is in front of the digits of a number. -/
theorem exists_digits_of_signed (hne : digits ≠ []) (hsign : sign ≠ ['-']) :
    ∃ c cs, signed sign digits = c :: cs ∧ c :: cs = digits ∧ c ≠ '-' ∧ c ≠ '+' := by
  obtain ⟨c, cs, rfl⟩ := List.exists_cons_of_ne_nil hne
  have hc := hd c List.mem_cons_self
  exact ⟨c, cs, if_neg hsign, rfl, Digits.ne_of_isDigit hc (by decide),
    Digits.ne_of_isDigit hc (by decide)⟩

/-- Signed digits are read as an integer of `bits` bits exactly if it has as many. -/
theorem Integer.readSigned_signed (bits : Nat) (hne : digits ≠ []) :
    readSigned bits (signed sign digits) =
      if Fits bits (signedValue sign digits) then .ok (signedValue sign digits)
      else .error (if sign = ['-'] then .tooSmall else .tooLarge) := by
  by_cases hsign : sign = ['-']
  · subst hsign
    rw [signed, if_pos rfl, readSigned, readDigits_of_digits .tooSmall hd hne]
    simp only [signedValue, if_true, fits_neg]
    split <;> rfl
  · obtain ⟨c, cs, hsigned, hdigits, hminus, hplus⟩ := exists_digits_of_signed hd hne hsign
    have hplain : readSigned bits (c :: cs) =
        (readDigits (Nat.pow 2 (bits - 1) - 1) .tooLarge (c :: cs)).map (fun n => (n : Int)) := by
      rw [readSigned]
      · exact List.cons_ne_nil c cs
      · exact fun _ h => hminus (List.cons.inj h).1
      · exact fun _ h => hplus (List.cons.inj h).1
    rw [hsigned, hplain, hdigits, readDigits_of_digits .tooLarge hd hne]
    simp only [signedValue, if_neg hsign, fits_natCast]
    split <;> rfl

/-- Digits beyond 96 bits are refused where there is no point. -/
theorem Decimal.Partial.finish_beyond {p : Partial} (hp : p.pointed = false)
    (hunits : p.units < unitBound) (hbeyond : unitBound ≤ Nat.ofDigitChars 10 digits p.units) :
    p.finish digits = none := by
  induction digits generalizing p with
  | nil =>
    rw [Nat.ofDigitChars_nil] at hbeyond
    omega
  | cons c cs ih =>
    rw [Digits.ofDigitChars_cons_value] at hbeyond
    rw [finish, if_pos (hd c List.mem_cons_self)]
    simp only [isFull, hp, Bool.false_and, Bool.or_self, Bool.false_eq_true, if_false]
    by_cases hnext : unitBound ≤ p.units * 10 + Digits.value c
    · rw [if_pos hnext]
    · rw [if_neg hnext]
      exact ih (fun d hd' => hd d (List.mem_cons_of_mem _ hd')) rfl (Nat.lt_of_not_le hnext) hbeyond

/-- Digits are a magnitude without places, if it has 96 bits. -/
theorem Decimal.readMagnitude_digits (hne : digits ≠ []) :
    readMagnitude digits =
      if Digits.ofChars digits < unitBound then some (Digits.ofChars digits, 0) else none := by
  by_cases hlt : Digits.ofChars digits < unitBound
  · have hread := Partial.finish_append (p := .start) hd hlt nofun []
    rw [List.append_nil] at hread
    have hnonempty : digits.isEmpty = false := List.isEmpty_eq_false_iff.2 hne
    rw [if_pos hlt, readMagnitude, hread]
    simp [Partial.start, Partial.finish, hnonempty, Digits.ofChars]
  · rw [if_neg hlt]
    exact Partial.finish_beyond hd rfl (by decide) (Nat.le_of_not_lt hlt)

/-- Signed digits are a decimal without places exactly if it has 96 bits. -/
theorem Decimal.readPlain_signed (hne : digits ≠ []) :
    readPlain (signed sign digits) = of? (signedValue sign digits) 0 := by
  have hread := readMagnitude_digits hd hne
  have hrange : ∀ n : Int, n.natAbs = Digits.ofChars digits →
      (if Digits.ofChars digits < unitBound then of? n 0 else none) = of? n 0 := by
    intro n hn
    split
    · rfl
    next hbeyond => rw [of?, dif_neg (by omega)]
  by_cases hsign : sign = ['-']
  · subst hsign
    rw [signed, if_pos rfl, readPlain, hread,
      ← hrange (signedValue _ digits) (by simp [signedValue])]
    simp only [signedValue, if_true]
    split <;> rfl
  · obtain ⟨c, cs, hsigned, hdigits, hminus, hplus⟩ := exists_digits_of_signed hd hne hsign
    have hplain : readPlain (c :: cs) =
        (readMagnitude (c :: cs)).bind fun r => of? (r.1 : Int) r.2 := by
      rw [readPlain]
      · rfl
      · exact fun _ h => hminus (List.cons.inj h).1
      · exact fun _ h => hplus (List.cons.inj h).1
    rw [hsigned, hplain, hdigits, hread,
      ← hrange (signedValue _ digits) (by simp [signedValue, hsign])]
    simp only [signedValue, if_neg hsign]
    split <;> rfl

/-- No signed digits are in scientific notation. -/
theorem Decimal.read_signed (hne : digits ≠ []) :
    Decimal.read (signed sign digits) = of? (signedValue sign digits) 0 := by
  have hmark : (signed sign digits).any isExponentMark = false := by
    have hdigits : ∀ c ∈ digits, isExponentMark c = false :=
      fun c hc => Text.of_isDigit (isExponentMark · = false) (hd c hc) (by decide)
    rw [List.any_eq_false]
    intro c hc
    rw [signed] at hc
    split at hc
    · rcases List.mem_cons.1 hc with rfl | hc
      · decide
      · simp [hdigits c hc]
    · simp [hdigits c hc]
  rw [read, hmark, if_neg Bool.false_ne_true, readPlain_signed hd hne]

end

end Number

open Number (Decimal signedValue)
open Number.Integer (Fits)
open Literal (Raw)

variable {sign digits : List Char} (hsign : sign ∈ Token.signs)
  (hd : ∀ c ∈ digits, isDigit c = true) (hne : digits ≠ [])

namespace Token

section

include hd hne

theorem isOk_readSigned (bits : Nat) :
    (Number.Integer.readSigned bits (signed sign digits)).isOk =
      decide (Fits bits (signedValue sign digits)) := by
  rw [Number.Integer.readSigned_signed hd bits hne]
  split
  next h => exact (decide_eq_true h).symm
  next h => exact (decide_eq_false h).symm

theorem isSome_readPlain : (Decimal.readPlain (signed sign digits)).isSome =
    decide ((signedValue sign digits).natAbs < Decimal.unitBound) := by
  rw [Decimal.readPlain_signed hd hne, Decimal.of?]
  split
  next h => exact (decide_eq_true h.1).symm
  next h => exact (decide_eq_false fun hlt => h ⟨hlt, Nat.zero_le _⟩).symm

/-- The type of signed digits is the narrowest one that holds them. -/
theorem integerKind?_signed : integerKind? (signed sign digits) =
    if Fits 32 (signedValue sign digits) then some .int
    else if Fits 64 (signedValue sign digits) then some .long
    else if (signedValue sign digits).natAbs < Decimal.unitBound then some .decimal
    else none := by
  simp only [integerKind?, isOk_readSigned hd hne, isSome_readPlain hd hne, decide_eq_true_eq]

theorem value_signed_int (h : Fits 32 (signedValue sign digits)) :
    Raw.value ⟨String.ofList (signed sign digits), .int⟩ =
      .ok (.int (Int32.ofInt (signedValue sign digits))) := by
  simp only [Raw.value, String.toList_ofList, Number.Integer.readSigned_signed hd 32 hne, if_pos h]

theorem value_signed_long : Raw.value ⟨String.ofList (signed sign digits), .long⟩ =
    if Fits 64 (signedValue sign digits) then
      .ok (.long (Int64.ofInt (signedValue sign digits)))
    else .error (.notInteger (if sign = ['-'] then .tooSmall else .tooLarge)) := by
  simp only [Raw.value, String.toList_ofList, Number.Integer.readSigned_signed hd 64 hne]
  by_cases h : Fits 64 (signedValue sign digits)
  · rw [if_pos h, if_pos h]
  · rw [if_neg h, if_neg h]

theorem value_signed_decimal (h : (signedValue sign digits).natAbs < Decimal.unitBound) :
    Raw.value ⟨String.ofList (signed sign digits), .decimal⟩ =
      .ok (.decimal ⟨signedValue sign digits, 0, h, Nat.zero_le _⟩) := by
  simp only [Raw.value, String.toList_ofList, Decimal.read_signed hd hne, Decimal.of?,
    dif_pos (And.intro h (Nat.zero_le Decimal.maxScale))]

end

/-- Where the scan of a number fails, the text has the fault. -/
theorem tokenize_of_scanNumber {ending : List Char} {flaw : Flaw} {fractional : Bool}
    (hsign : sign ∈ signs) (hw : Numeral.Written digits fractional) (hend : NumeralEnd ending)
    (hscan : (scanNumber sign (digits ++ ending)).outcome = .error flaw) :
    Lexer.tokenize (String.ofList (sign ++ digits ++ ending)) =
      .error ⟨flaw.fault, flaw.offset⟩ := by
  obtain ⟨c, cs, hcs, hblank, hnumber⟩ := scan_number hsign hw
  have htext : (String.ofList (sign ++ digits ++ ending)).toList = c :: (cs ++ ending) := by
    rw [String.toList_ofList, hcs, List.cons_append]
  rw [← hnumber ending hend] at hscan
  exact Lexer.tokenize_of_flaw htext hblank hscan

end Token

namespace Lexer

/-- The text is one literal of the narrowest type that holds the integer: 32 bits, 64 bits, or a
    decimal of 96 bits. Beyond that it is refused. -/
structure NarrowestInteger (text : String) (v : Int) : Prop where
  int : Fits 32 v → ∃ n : Int32, n.toInt = v ∧ SoleLiteral text .int (.int n)
  long : ¬Fits 32 v → Fits 64 v → ∃ n : Int64, n.toInt = v ∧ SoleLiteral text .long (.long n)
  decimal : ¬Fits 64 v → v.natAbs < Nat.pow 2 96 →
    ∃ d : Decimal, d.units = v ∧ d.scale = 0 ∧ SoleLiteral text .decimal (.decimal d)
  beyond : Nat.pow 2 96 ≤ v.natAbs →
    ∃ body, tokenize text = .error ⟨.malformed ⟨body, .decimal⟩ .integerOutOfRange, 0⟩

/-- The text is one literal of 64 bits if these hold the integer, and else is refused. -/
structure LongInteger (text : String) (v : Int) : Prop where
  long : Fits 64 v → ∃ n : Int64, n.toInt = v ∧ SoleLiteral text .long (.long n)
  beyond : ¬Fits 64 v → ∃ body reason,
    tokenize text = .error ⟨.malformed ⟨body, .long⟩ reason, 0⟩

section

include hsign hd hne

/-- A sign and digits are a literal of the type that their integer has. -/
theorem soleLiteral_integer {kind : Literal.Kind} {l : Literal}
    (hkind : Token.integerKind? (Token.signed sign digits) = some kind)
    (hvalue : Raw.value ⟨String.ofList (Token.signed sign digits), kind⟩ = .ok l) :
    SoleLiteral (String.ofList (sign ++ digits)) kind l := by
  have hlexeme := Token.lexeme_plain hsign (Token.Numeral.written_digits hd hne) rfl hkind hvalue
  rw [← String.toList_ofList (l := sign ++ digits)] at hlexeme
  exact soleLiteral_of_lexeme hlexeme hvalue

theorem narrowestInteger_of_digits :
    NarrowestInteger (String.ofList (sign ++ digits)) (signedValue sign digits) := by
  have hkind : Token.integerKind? (Token.signed sign digits) = _ :=
    Token.integerKind?_signed hd hne
  -- what has 32 bits also has 64, and what has 64 bits is within 96
  have hwider : Fits 32 (signedValue sign digits) → Fits 64 (signedValue sign digits) := by
    have hbits : Nat.pow 2 (32 - 1) ≤ Nat.pow 2 (64 - 1) := by decide
    simp only [Fits]
    omega
  have hwithin : Fits 64 (signedValue sign digits) →
      (signedValue sign digits).natAbs < Decimal.unitBound := by
    have hbits : Nat.pow 2 (64 - 1) < Decimal.unitBound := by decide
    simp only [Fits]
    omega
  refine ⟨fun hint => ?_, fun hint hlong => ?_, fun hlong hdecimal => ?_, fun hbeyond => ?_⟩
  · rw [if_pos hint] at hkind
    exact ⟨_, Int32.toInt_ofInt_of_le hint.1 hint.2,
      soleLiteral_integer hsign hd hne hkind (Token.value_signed_int hd hne hint)⟩
  · have hvalue : Raw.value ⟨String.ofList (Token.signed sign digits), .long⟩ = _ :=
      Token.value_signed_long hd hne
    rw [if_neg hint, if_pos hlong] at hkind
    rw [if_pos hlong] at hvalue
    exact ⟨_, Int64.toInt_ofInt_of_le hlong.1 hlong.2,
      soleLiteral_integer hsign hd hne hkind hvalue⟩
  · have hsmall : (signedValue sign digits).natAbs < Decimal.unitBound := hdecimal
    rw [if_neg (mt hwider hlong), if_neg hlong, if_pos hsmall] at hkind
    exact ⟨_, rfl, rfl,
      soleLiteral_integer hsign hd hne hkind (Token.value_signed_decimal hd hne hsmall)⟩
  · have hlarge : ¬(signedValue sign digits).natAbs < Decimal.unitBound := Nat.not_lt.2 hbeyond
    rw [if_neg (mt (hwithin ∘ hwider) hlarge), if_neg (mt hwithin hlarge), if_neg hlarge] at hkind
    have hw := Token.Numeral.written_digits hd hne
    have hscan : Token.scanNumber sign (digits ++ []) = _ :=
      Token.scanNumber_plain hw Token.delimited_nil
    simp only [Token.scanPlain, hkind] at hscan
    have hfault := Token.tokenize_of_scanNumber hsign hw (.of_delimited Token.delimited_nil)
      (congrArg Token.Scan.outcome hscan)
    rw [List.append_nil] at hfault
    exact ⟨_, hfault⟩

theorem longInteger_of_digits :
    LongInteger (String.ofList (sign ++ digits ++ ['L'])) (signedValue sign digits) := by
  have hw := Token.Numeral.written_digits hd hne
  have hletter : Token.kindOfLetter? false 'L' = some .long := rfl
  have hvalue : Raw.value ⟨String.ofList (Token.signed sign digits), .long⟩ = _ :=
    Token.value_signed_long hd hne
  refine ⟨fun hlong => ?_, fun hlong => ?_⟩
  · rw [if_pos hlong] at hvalue
    refine ⟨_, Int64.toInt_ofInt_of_le hlong.1 hlong.2, ?_⟩
    have hlexeme := Token.lexeme_lettered hsign hw hletter (by decide) hvalue
    rw [← String.toList_ofList (l := sign ++ digits ++ ['L'])] at hlexeme
    exact soleLiteral_of_lexeme hlexeme hvalue
  · rw [if_neg hlong] at hvalue
    have hend : Token.NumeralEnd ['L'] := by
      rintro _ ⟨⟩
      rfl
    have hscan : Token.scanNumber sign (digits ++ 'L' :: []) = _ :=
      Token.scanNumber_lettered hw hletter (by decide) []
    simp only [Token.Scan.bounded, Token.Scan.literal, hvalue] at hscan
    exact ⟨_, _, Token.tokenize_of_scanNumber hsign hw hend (congrArg Token.Scan.outcome hscan)⟩

/-- Digits behind a sign, of any number and with any zeros in front, are an integer of the narrowest
    type that holds it, and with the letter for 64 bits an integer of these. -/
theorem tokenize_integer :
    NarrowestInteger (String.ofList (sign ++ digits)) (signedValue sign digits) ∧
      LongInteger (String.ofList (sign ++ digits ++ ['L'])) (signedValue sign digits) :=
  ⟨narrowestInteger_of_digits hsign hd hne, longInteger_of_digits hsign hd hne⟩

end

/-- The sign decides: the least integer of 32 bits has one more digit than the largest one, and the
    zeros in front are of no account. -/
theorem tokenize_integer_least :
    let digits := "000002147483648".toList
    ['-'] ∈ Token.signs ∧ (∀ c ∈ digits, isDigit c = true) ∧ digits ≠ [] ∧
      NarrowestInteger "-000002147483648" (-2147483648) ∧
      LongInteger "-000002147483648L" (-2147483648) :=
  have hall : "000002147483648".toList.all isDigit = true := by decide
  have hd : ∀ c ∈ "000002147483648".toList, isDigit c = true := List.all_eq_true.1 hall
  have hne : "000002147483648".toList ≠ [] := by decide
  have hsign : ['-'] ∈ Token.signs := by decide
  ⟨hsign, hd, hne, tokenize_integer hsign hd hne⟩

end Lexer

end QueryExpr
