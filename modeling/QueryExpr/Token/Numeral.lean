import QueryExpr.Token.Scan

/-!
# Numbers as tokens

A number is digits, a fraction behind a point and a power of ten behind an `e`,
where the last two may be missing, and a letter that tells the kind: `L`, `m`, `d`
or `f`. Without a letter a number with fraction or power is a double, and an
integer has the narrowest type that holds it (specification, 4.2). The steps are
those of `scan_number`.

* `Numeral.ofChars`: the unsigned number at the front of a text.
* `scanNumber`: the number at the front of a text, behind its sign.
-/

namespace QueryExpr.Token

open Number (Digits.run Digits.afterRun)

/-- Whether a text begins with an ASCII digit. -/
def startsDigit : List Char → Bool
  | c :: _ => Text.isDigit c
  | [] => false

/-- A point with digits behind it at the front of a text, and the text behind them. -/
def splitPlaces : List Char → List Char × List Char
  | '.' :: cs => if startsDigit cs then ('.' :: Digits.run cs, Digits.afterRun cs) else ([], '.' :: cs)
  | cs => ([], cs)

/-- A power of ten at the front of a text, and the text behind it. -/
def splitPower : List Char → List Char × List Char
  | e :: s :: cs =>
    if e = 'e' || e = 'E' then
      if Text.isDigit s then (e :: Digits.run (s :: cs), Digits.afterRun (s :: cs))
      else if (s = '+' || s = '-') && startsDigit cs then
        (e :: s :: Digits.run cs, Digits.afterRun cs)
      else ([], e :: s :: cs)
    else ([], e :: s :: cs)
  | cs => ([], cs)

/-- An unsigned number without its letter. -/
structure Numeral where
  digits : List Char
  /-- Whether there is a fraction or a power of ten. -/
  fractional : Bool
  /-- The text behind the number. -/
  rest : List Char
  deriving DecidableEq, Repr

/-- The unsigned number at the front of a text. -/
def Numeral.ofChars (cs : List Char) : Numeral :=
  let places := splitPlaces (Digits.afterRun cs)
  let power := splitPower places.2
  ⟨Digits.run cs ++ places.1 ++ power.1, !(places.1.isEmpty && power.1.isEmpty), power.2⟩

/-- The kind that a letter behind a number tells (the suffixes of `scan_number`). -/
def kindOfLetter? (fractional : Bool) (c : Char) : Option Literal.Kind :=
  match c with
  | 'L' => if fractional then none else some .long
  | 'M' | 'm' => some .decimal
  | 'D' | 'd' => some .double
  | 'F' | 'f' => some .single
  | _ => none

/-- The narrowest kind that holds an integer (`integer_type`). -/
def integerKind? (body : List Char) : Option Literal.Kind :=
  if (Number.Integer.readSigned 32 body).isOk then some .int
  else if (Number.Integer.readSigned 64 body).isOk then some .long
  else if (Number.Decimal.readPlain body).isSome then some .decimal
  else none

/-- The body of a number behind a sign: only a minus belongs to it. -/
def signed (sign digits : List Char) : List Char :=
  if sign = ['-'] then '-' :: digits else digits

/-- The number without letter whose digits are `n`. -/
def scanPlain (sign : List Char) (n : Numeral) : Scan :=
  let body := signed sign n.digits
  if n.fractional then .bounded (sign ++ n.digits) n.rest ⟨String.ofList body, .double⟩
  else
    match integerKind? body with
    | some kind => .bounded (sign ++ n.digits) n.rest ⟨String.ofList body, kind⟩
    | none =>
      .failed (sign ++ n.digits) n.rest
        (.malformed ⟨String.ofList body, .decimal⟩ .integerOutOfRange) 0

/-- The number at the front of a text, behind its sign (`scan_number`). -/
def scanNumber (sign cs : List Char) : Scan :=
  let n := Numeral.ofChars cs
  match n.rest with
  | c :: rest =>
    match kindOfLetter? n.fractional c with
    | some kind =>
      .bounded (sign ++ n.digits ++ [c]) rest ⟨String.ofList (signed sign n.digits), kind⟩
    | none => scanPlain sign n
  | [] => scanPlain sign n

/-! ## The scan loses nothing -/

theorem splitPlaces_append (cs : List Char) : (splitPlaces cs).1 ++ (splitPlaces cs).2 = cs := by
  fun_cases splitPlaces cs <;> simp_all [Number.Digits.run_append_afterRun]

theorem splitPower_append (cs : List Char) : (splitPower cs).1 ++ (splitPower cs).2 = cs := by
  fun_cases splitPower cs <;> simp_all [Number.Digits.run_append_afterRun]

theorem Numeral.digits_append_rest (cs : List Char) :
    (ofChars cs).digits ++ (ofChars cs).rest = cs := by
  simp only [ofChars, List.append_assoc, splitPower_append, splitPlaces_append,
    Number.Digits.run_append_afterRun]

theorem scanPlain_covers (sign : List Char) (n : Numeral) :
    (scanPlain sign n).Covers (sign ++ (n.digits ++ n.rest)) := by
  have h : sign ++ n.digits ++ n.rest = sign ++ (n.digits ++ n.rest) := List.append_assoc ..
  simp only [scanPlain]
  split
  · exact Scan.bounded_covers h
  · split
    · exact Scan.bounded_covers h
    · exact Scan.failed_covers h

theorem scanNumber_covers (sign cs : List Char) : (scanNumber sign cs).Covers (sign ++ cs) := by
  have hn := Numeral.digits_append_rest cs
  have plain := scanPlain_covers sign (Numeral.ofChars cs)
  rw [hn] at plain
  simp only [scanNumber]
  split
  next c rest hr =>
    split
    · refine Scan.bounded_covers ?_
      rw [List.append_assoc, List.append_assoc, List.singleton_append, ← hr, hn]
    · exact plain
  · exact plain

end QueryExpr.Token
