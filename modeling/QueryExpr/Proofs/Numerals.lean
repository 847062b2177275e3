import QueryExpr.Proofs.Lexing
import QueryExpr.Proofs.Numbers

/-!
# Number tokens

* `Numeral.Written`: digits, with or without a fraction, that are read as a number.
* `lexeme_int`, `lexeme_long`, `lexeme_decimal`: the numbers that are read back as tokens.
-/

namespace QueryExpr.Token

open Number (Decimal Digits.run Digits.afterRun)
open Text (isDigit isDecimalDigit)

/-! ## The end of a number -/

/-- Whether a character ends the digits, the fraction and the power of a number. -/
def endsNumeral (c : Char) : Bool :=
  !(isDecimalDigit c || c == '.' || c == 'e' || c == 'E' || c == '-')

/-- Whatever follows is no part of a number. -/
def NumeralEnd (cs : List Char) : Prop := ∀ c ∈ cs.head?, endsNumeral c = true

theorem NumeralEnd.of_delimited {cs : List Char} (h : Delimited cs) : NumeralEnd cs :=
  fun c hc => of_isDelimiter (endsNumeral · = true) (h c hc) (by decide)

theorem endsNumeral_spec {c : Char} (h : endsNumeral c = true) :
    isDecimalDigit c = false ∧ isDigit c = false ∧ c ≠ '.' ∧ c ≠ 'e' ∧ c ≠ 'E' ∧ c ≠ '-' := by
  simp only [endsNumeral, Bool.not_eq_true', Bool.or_eq_false_iff, beq_eq_false_iff_ne] at h
  obtain ⟨⟨⟨⟨hdecimal, hpoint⟩, he⟩, hE⟩, hminus⟩ := h
  have hdigit : isDigit c = false := by
    cases hd : isDigit c with
    | false => rfl
    | true =>
      rw [Text.isDecimalDigit_of_isDigit hd] at hdecimal
      cases hdecimal
  exact ⟨hdecimal, hdigit, hpoint, he, hE, hminus⟩

/-! ## Digits in front of the end of a number -/

section

variable {cs rest : List Char}

theorem run_append (hd : ∀ c ∈ cs, isDigit c = true) (hrest : ∀ c ∈ rest.head?, isDigit c = false) :
    Digits.run (cs ++ rest) = cs ∧ Digits.afterRun (cs ++ rest) = rest := by
  rw [Digits.run, Digits.afterRun, List.takeWhile_append_of_pos hd, List.dropWhile_append_of_pos hd]
  cases rest with
  | nil => simp
  | cons c rest => simp [hrest c rfl]

theorem splitPlaces_of_end (h : NumeralEnd rest) : splitPlaces rest = ([], rest) := by
  cases rest with
  | nil => rfl
  | cons c rest =>
    rw [splitPlaces]
    rintro ds ⟨⟩
    exact absurd (h '.' rfl) (by decide)

theorem splitPower_of_end (h : NumeralEnd rest) : splitPower rest = ([], rest) := by
  cases rest with
  | nil => rfl
  | cons c rest =>
    obtain ⟨-, -, -, he, hE, -⟩ := endsNumeral_spec (h c rfl)
    cases rest with
    | nil => rfl
    | cons d rest => simp [splitPower, he, hE]

/-- Digits that neither a digit nor a hyphen follows are not the year of a date. -/
theorem follow_digits_eq_none (hd : ∀ c ∈ cs, isDigit c = true)
    (hrest : ∀ c ∈ rest.head?, isDecimalDigit c = false ∧ c ≠ '-') (n : Nat)
    (form : List (Char → Bool)) :
    BareDate.follow (List.replicate n isDecimalDigit ++ (· == '-') :: form) (cs ++ rest) =
      none := by
  induction n generalizing cs with
  | zero =>
    cases cs with
    | nil =>
      cases rest with
      | nil => rfl
      | cons c rest => simp [BareDate.follow, (hrest c rfl).2]
    | cons c cs =>
      have hminus : c ≠ '-' := Number.Digits.ne_of_isDigit (hd c List.mem_cons_self) (by decide)
      simp [BareDate.follow, hminus]
  | succ n ih =>
    cases cs with
    | nil =>
      cases rest with
      | nil => rfl
      | cons c rest => simp [BareDate.follow, List.replicate_succ, (hrest c rfl).1]
    | cons c cs =>
      have hcs := ih fun d hd' => hd d (List.mem_cons_of_mem c hd')
      rw [List.replicate_succ, List.cons_append, List.cons_append, BareDate.follow, hcs]
      simp

theorem splitDate?_digits (hd : ∀ c ∈ cs, isDigit c = true)
    (hrest : ∀ c ∈ rest.head?, isDecimalDigit c = false ∧ c ≠ '-') :
    BareDate.splitDate? (cs ++ rest) = none := by
  have := follow_digits_eq_none hd hrest 4 [isDecimalDigit, isDecimalDigit, (· == '-'),
    isDecimalDigit, isDecimalDigit]
  rw [BareDate.splitDate?, BareDate.dayForm]
  simpa using this

end

/-! ## Numbers as they are written -/

/-- The characters are read as one number in front of whatever is no part of it. -/
structure Numeral.Written (digits : List Char) (fractional : Bool) : Prop where
  starts : startsDigit digits = true
  splits : ∀ rest, NumeralEnd rest → Numeral.ofChars (digits ++ rest) = ⟨digits, fractional, rest⟩
  noDate : ∀ rest, NumeralEnd rest → BareDate.splitDate? (digits ++ rest) = none

theorem startsDigit_of_digits {cs : List Char} (hd : ∀ c ∈ cs, isDigit c = true) (hne : cs ≠ [])
    (rest : List Char) : startsDigit (cs ++ rest) = true := by
  cases cs with
  | nil => exact absurd rfl hne
  | cons c cs => exact hd c List.mem_cons_self

theorem Numeral.written_digits {cs : List Char} (hd : ∀ c ∈ cs, isDigit c = true) (hne : cs ≠ []) :
    Numeral.Written cs false where
  starts := by simpa using startsDigit_of_digits hd hne []
  splits rest hrest := by
    obtain ⟨hrun, hafter⟩ := run_append hd fun c hc => (endsNumeral_spec (hrest c hc)).2.1
    rw [Numeral.ofChars, hrun, hafter, splitPlaces_of_end hrest, splitPower_of_end hrest]
    simp
  noDate rest hrest := by
    refine splitDate?_digits hd fun c hc => ?_
    obtain ⟨hdecimal, -, -, -, -, hminus⟩ := endsNumeral_spec (hrest c hc)
    exact ⟨hdecimal, hminus⟩

theorem Numeral.written_fraction {whole places : List Char} (hw : ∀ c ∈ whole, isDigit c = true)
    (hwne : whole ≠ []) (hp : ∀ c ∈ places, isDigit c = true) (hpne : places ≠ []) :
    Numeral.Written (whole ++ '.' :: places) true where
  starts := startsDigit_of_digits hw hwne _
  splits rest hrest := by
    have hpoint : ∀ c ∈ ('.' :: (places ++ rest)).head?, isDigit c = false := by
      rintro _ ⟨⟩
      rfl
    obtain ⟨hrun, hafter⟩ := run_append hw hpoint
    obtain ⟨hrun', hafter'⟩ := run_append hp fun c hc => (endsNumeral_spec (hrest c hc)).2.1
    have hplaces : splitPlaces ('.' :: (places ++ rest)) = ('.' :: places, rest) := by
      rw [splitPlaces, if_pos (startsDigit_of_digits hp hpne rest), hrun', hafter']
    rw [List.append_assoc, List.cons_append, Numeral.ofChars, hrun, hafter, hplaces,
      splitPower_of_end hrest]
    simp
  noDate rest _ := by
    rw [List.append_assoc, List.cons_append]
    refine splitDate?_digits hw ?_
    rintro _ ⟨⟩
    decide

theorem Numeral.written_toChars (n : Nat) : Numeral.Written (Number.Digits.toChars n) false :=
  written_digits (fun _ => Number.Digits.isDigit_of_mem_toChars) (Number.Digits.toChars_ne_nil n)

theorem Numeral.written_magnitudeChars (magnitude scale : Nat) :
    ∃ fractional, Numeral.Written (Decimal.magnitudeChars magnitude scale) fractional := by
  rcases Decimal.magnitudeChars_cases magnitude scale with
    ⟨hne, hd⟩ | ⟨whole, places, hchars, hwne, hpne, hw, hp⟩
  · exact ⟨false, written_digits hd hne⟩
  · rw [hchars]
    exact ⟨true, written_fraction hw hwne hp hpne⟩

/-! ## Number tokens -/

theorem Scan.bounded_of_value {read rest : List Char} {raw : Literal.Raw} {l : Literal}
    (hvalue : raw.value = .ok l) (hrest : NameEnd rest) :
    Scan.bounded read rest raw = .found read rest (.literal raw) := by
  have hliteral : Scan.literal read rest raw = .found read rest (.literal raw) := by
    rw [Scan.literal, hvalue]
  cases rest with
  | nil => exact hliteral
  | cons c rest =>
    rw [Scan.bounded, (hrest c rfl).1, if_neg (by decide), hliteral]

/-- The signs that a number may have. -/
def signs : List (List Char) := [[], ['+'], ['-']]

/-- The sign of a number, nothing unless it is negative. -/
def signOf (n : Int) : List Char := if n < 0 then ['-'] else []

theorem signOf_mem_signs (n : Int) : signOf n ∈ signs := by
  unfold signOf
  split <;> decide

theorem signed_signOf (n : Int) (digits : List Char) :
    signed (signOf n) digits = signOf n ++ digits := by
  unfold signOf
  split <;> rfl

section

variable {sign digits : List Char} {fractional : Bool} (hsign : sign ∈ signs)
  (hw : Numeral.Written digits fractional)

section

include hsign hw

/-- A number is scanned as a number behind its sign, unless an operand is in front of it. -/
theorem scan_number : ∃ c cs, sign ++ digits = c :: cs ∧ Text.isBlank c = false ∧
    ∀ rest, NumeralEnd rest → scan false c (cs ++ rest) = scanNumber sign (digits ++ rest) := by
  have hstarts := hw.starts
  cases digits with
  | nil => cases hstarts
  | cons c cs =>
    have hc : isDigit c = true := hstarts
    simp only [signs, List.mem_cons, List.not_mem_nil, or_false] at hsign
    rcases hsign with rfl | rfl | rfl
    · refine ⟨c, cs, rfl, ?_, ?_⟩
      · exact Text.of_isDigit (Text.isBlank · = false) hc (by decide)
      · intro rest hrest
        have hdate := hw.noDate rest hrest
        have hquote := Number.Digits.ne_of_isDigit (d := '\'') hc (by decide)
        have hminus := Number.Digits.ne_of_isDigit (d := '-') hc (by decide)
        have hplus := Number.Digits.ne_of_isDigit (d := '+') hc (by decide)
        rw [List.cons_append] at hdate
        simp [scan, hquote, hminus, hplus, hc, scanUnsigned, hdate]
    · refine ⟨'+', c :: cs, rfl, rfl, fun rest _ => ?_⟩
      simp [scan, startsDigit, hc]
    · refine ⟨'-', c :: cs, rfl, rfl, fun rest _ => ?_⟩
      show scanMinus false (c :: (cs ++ rest)) = _
      simp [scanMinus, startsDigit, hc]

/-- A number is read with what ends it if the scan of numbers finds both. -/
theorem lexeme_number {ending : List Char} {kind : Kind}
    (hends : ∀ rest, Delimited rest → NumeralEnd (ending ++ rest))
    (hscan : ∀ rest, Delimited rest → scanNumber sign (digits ++ (ending ++ rest)) =
      .found (sign ++ digits ++ ending) rest kind) :
    Lexeme false (sign ++ digits ++ ending) kind := by
  obtain ⟨c, cs, hcs, hblank, hnumber⟩ := scan_number hsign hw
  refine ⟨c, cs ++ ending, by rw [hcs]; rfl, hblank, ?_⟩
  intro rest hrest
  rw [List.append_assoc, hnumber _ (hends rest hrest)]
  exact hscan rest hrest

end

section

include hw

/-- A letter behind a number tells its kind. -/
theorem scanNumber_lettered {letter : Char} {kind : Literal.Kind}
    (hletter : kindOfLetter? fractional letter = some kind) (hends : endsNumeral letter = true)
    (rest : List Char) :
    scanNumber sign (digits ++ letter :: rest) =
      .bounded (sign ++ digits ++ [letter]) rest ⟨String.ofList (signed sign digits), kind⟩ := by
  have hend : NumeralEnd (letter :: rest) := by
    rintro _ ⟨⟩
    exact hends
  rw [scanNumber, hw.splits _ hend]
  simp only [hletter]

/-- No letter stands behind a number that a delimiter follows. -/
theorem scanNumber_plain {rest : List Char} (hrest : Delimited rest) :
    scanNumber sign (digits ++ rest) = scanPlain sign ⟨digits, fractional, rest⟩ := by
  rw [scanNumber, hw.splits _ (.of_delimited hrest)]
  cases rest with
  | nil => rfl
  | cons d rest =>
    have hnone : kindOfLetter? fractional d = none :=
      of_isDelimiter (fun d => kindOfLetter? fractional d = none) (hrest d rfl)
        (by cases fractional <;> decide)
    simp only [hnone]

end

include hsign hw

/-- A number with a letter for its kind. -/
theorem lexeme_lettered {letter : Char} {kind : Literal.Kind} {l : Literal}
    (hletter : kindOfLetter? fractional letter = some kind) (hends : endsNumeral letter = true)
    (hvalue : Literal.Raw.value ⟨String.ofList (signed sign digits), kind⟩ = .ok l) :
    Lexeme false (sign ++ digits ++ [letter])
      (.literal ⟨String.ofList (signed sign digits), kind⟩) := by
  apply lexeme_number hsign hw
  · rintro rest _ _ ⟨⟩
    exact hends
  · intro rest hrest
    rw [List.singleton_append, scanNumber_lettered hw hletter hends]
    exact Scan.bounded_of_value hvalue (.of_delimited hrest)

/-- A whole number without letter. -/
theorem lexeme_plain {kind : Literal.Kind} {l : Literal} (hfractional : fractional = false)
    (hkind : integerKind? (signed sign digits) = some kind)
    (hvalue : Literal.Raw.value ⟨String.ofList (signed sign digits), kind⟩ = .ok l) :
    Lexeme false (sign ++ digits) (.literal ⟨String.ofList (signed sign digits), kind⟩) := by
  have hends : ∀ rest, Delimited rest → NumeralEnd ([] ++ rest) :=
    fun rest hrest => .of_delimited hrest
  rw [← List.append_nil (sign ++ digits)]
  apply lexeme_number hsign hw hends
  intro rest hrest
  rw [List.nil_append, List.append_nil, scanNumber_plain hw hrest, scanPlain]
  simp only [hfractional, hkind]
  exact Scan.bounded_of_value hvalue (.of_delimited hrest)

end

open Literal (Raw)

/-- The notation of an integer is its sign and its digits. -/
theorem chars_eq_signOf (n : Int) :
    Number.Integer.chars n = signOf n ++ Number.Digits.toChars n.natAbs := by
  unfold Number.Integer.chars signOf
  split <;> rfl

theorem value_int (n : Int32) :
    Raw.value ⟨Number.Integer.text n.toInt, .int⟩ = .ok (.int n) := by
  simp only [Raw.value, Number.Integer.text, String.toList_ofList,
    Number.Integer.readSigned_int32, Int32.ofInt_toInt]

theorem value_long (n : Int64) :
    Raw.value ⟨Number.Integer.text n.toInt, .long⟩ = .ok (.long n) := by
  simp only [Raw.value, Number.Integer.text, String.toList_ofList,
    Number.Integer.readSigned_int64, Int64.ofInt_toInt]

theorem value_decimal (d : Decimal) : Raw.value ⟨d.text, .decimal⟩ = .ok (.decimal d) := by
  simp only [Raw.value, Decimal.text, String.toList_ofList, Decimal.read_chars]

/-- Integers of 32 bits are read back. -/
theorem lexeme_int (n : Int32) : LiteralLexeme (Literal.int n).text.toList (.int n) := by
  refine ⟨_, value_int n, ?_⟩
  have hvalue := value_int n
  have hread := Number.Integer.readSigned_int32 n
  rw [Literal.text, Number.Integer.text, String.toList_ofList]
  rw [Number.Integer.text] at hvalue
  rw [chars_eq_signOf] at hread hvalue ⊢
  rw [← signed_signOf] at hread hvalue
  have hkind : integerKind? (signed (signOf n.toInt) (Number.Digits.toChars n.toInt.natAbs)) =
      some .int := by
    rw [integerKind?, hread]
    rfl
  have hlexeme := lexeme_plain (signOf_mem_signs _) (Numeral.written_toChars _) rfl hkind hvalue
  rwa [signed_signOf] at hlexeme

/-- Integers of 64 bits are read back. -/
theorem lexeme_long (n : Int64) : LiteralLexeme (Literal.long n).text.toList (.long n) := by
  refine ⟨_, value_long n, ?_⟩
  have hvalue := value_long n
  rw [Literal.text, Number.Integer.text, String.toList_append, String.toList_ofList]
  rw [Number.Integer.text, chars_eq_signOf, ← signed_signOf] at hvalue
  rw [chars_eq_signOf]
  have hletter : kindOfLetter? false 'L' = some .long := rfl
  have hlexeme := lexeme_lettered (signOf_mem_signs _) (Numeral.written_toChars _) hletter
    (by decide) hvalue
  rwa [signed_signOf] at hlexeme

/-- Decimals are read back with their scale. -/
theorem lexeme_decimal (d : Decimal) :
    LiteralLexeme (Literal.decimal d).text.toList (.decimal d) := by
  obtain ⟨fractional, hw⟩ := Numeral.written_magnitudeChars d.units.natAbs d.scale
  have hchars : d.chars = signOf d.units ++ Decimal.magnitudeChars d.units.natAbs d.scale := by
    unfold Decimal.chars signOf
    split <;> rfl
  refine ⟨_, value_decimal d, ?_⟩
  have hvalue := value_decimal d
  rw [Literal.text, Decimal.text, String.toList_append, String.toList_ofList]
  rw [Decimal.text, hchars, ← signed_signOf] at hvalue
  rw [hchars]
  have hletter : kindOfLetter? fractional 'm' = some .decimal := by cases fractional <;> rfl
  have hlexeme := lexeme_lettered (signOf_mem_signs _) hw hletter (by decide) hvalue
  rwa [signed_signOf] at hlexeme

end QueryExpr.Token
