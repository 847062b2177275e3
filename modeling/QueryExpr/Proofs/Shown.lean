import QueryExpr.Proofs.Bodies
import QueryExpr.Proofs.Legibility
import QueryExpr.Proofs.Pieces
import QueryExpr.Proofs.Positions
import QueryExpr.Proofs.Signs
import QueryExpr.Proofs.Sole
import QueryExpr.Proofs.Spacing

/-!
# Tokens as they are shown

A token keeps the kind and the body of a literal but not the word or the letter that it was written
with, so it is shown with one that stands for its kind. For all kinds but one this is read as the
token again: what is shown for a date without a time, or a time without a date, is the word for
both, which does not admit it.

* `Token.Kind.ReadsBack`: what is shown for a token is read as the token, or refused.
* `Token.scan_readsBack`: every token that the lexer finds is shown so.
* `shown`: tokens as they are shown, with blanks between them.
* `Lexer.tokenize_shown`: what is shown for neighbouring tokens of a text is read as tokens of the
  same kinds, unless there is half a moment among them.
* `Lexer.tokenize_shown_date`: a date that is shown as no text of queries.
-/

namespace QueryExpr

open Literal (Raw)

/-! ## Halves of moments -/

/-- Whether the literal is a date without a time or a time without a date. -/
def Literal.Raw.isHalfMoment (raw : Raw) : Bool :=
  raw.kind == .dateTime && (Temporal.Moment.read raw.body.toList).any fun m =>
    !Token.TypeWord.civil.admits m

/-- The literal of a token that is a date without a time or a time without a date. -/
def Token.Kind.halfMoment? : Token.Kind → Option Raw
  | literal raw => if raw.isHalfMoment then some raw else none
  | name _ | mark _ => none

theorem Token.Kind.halfMoment?_of_ne {raw : Raw} (h : raw.kind ≠ .dateTime) :
    (Token.Kind.literal raw).halfMoment? = none := by
  simp [halfMoment?, Raw.isHalfMoment, h]

namespace Token

open Number (Digits.run Digits.afterRun)
open Text (isDigit)

/-! ## What is shown for one token -/

/-- The text is refused as a token, with the same flaw in front of any delimiter. -/
def Refused (afterOperand : Bool) (text : List Char) (flaw : Flaw) : Prop :=
  ∃ c cs, text = c :: cs ∧ Text.isBlank c = false ∧ ∀ rest, Delimited rest →
    (scan afterOperand c (cs ++ rest)).outcome = .error flaw

/-- What is shown for a token of the kind is read as a token of the kind. For half a moment it is
    refused, because it is not a date and time. -/
def Kind.ReadsBack (afterOperand : Bool) (k : Kind) : Prop :=
  match k.halfMoment? with
  | none => Lexeme afterOperand k.text.toList k
  | some raw => Refused afterOperand k.text.toList ⟨.malformed raw .notCivil, 0⟩

/-- Only for a minus it matters what is in front of it. -/
theorem scan_eq_of_ne_minus {c : Char} (h : c ≠ '-') (a b : Bool) (cs : List Char) :
    scan a c cs = scan b c cs := by
  simp [scan, h]

theorem Kind.ReadsBack.behind {a : Bool} {k : Kind} (h : k.ReadsBack a)
    (hminus : k.text.toList.head? ≠ some '-') (b : Bool) : k.ReadsBack b := by
  unfold ReadsBack at h ⊢
  split at h <;>
  · obtain ⟨c, cs, htext, hblank, hscan⟩ := h
    have hc : c ≠ '-' := by
      rintro rfl
      exact hminus (by rw [htext]; rfl)
    refine ⟨c, cs, htext, hblank, fun rest hrest => ?_⟩
    rw [scan_eq_of_ne_minus hc b a]
    exact hscan rest hrest

/-! ### Numbers -/

section

variable {sign digits : List Char} {fractional : Bool}

/-- A fraction begins with a point. -/
theorem splitPlaces_cases (cs : List Char) :
    (splitPlaces cs).1 = [] ∨ ∃ ds, (splitPlaces cs).1 = '.' :: ds := by
  fun_cases splitPlaces cs <;> simp

/-- A power of ten begins with its letter. -/
theorem splitPower_cases (cs : List Char) :
    (splitPower cs).1 = [] ∨ ∃ e ds, (splitPower cs).1 = e :: ds ∧ (e = 'e' ∨ e = 'E') := by
  fun_cases splitPower cs <;> simp_all

/-- Among the characters of a number there are a point or the letter of a power exactly if it has a
    fraction or a power. -/
theorem any_digits_ofChars (cs : List Char) :
    (Numeral.ofChars cs).digits.any (fun c => c == '.' || c == 'e' || c == 'E') =
      (Numeral.ofChars cs).fractional := by
  have hrun : (Digits.run cs).any (fun c => c == '.' || c == 'e' || c == 'E') = false := by
    rw [List.any_eq_false]
    intro c hc
    exact Text.of_isDigit (fun c => ¬(c == '.' || c == 'e' || c == 'E') = true)
      (isDigit_of_mem_run hc) (by decide)
  simp only [Numeral.ofChars, List.any_append, hrun, Bool.false_or]
  rcases splitPlaces_cases (Digits.afterRun cs) with hplaces | ⟨ds, hplaces⟩ <;>
    rcases splitPower_cases (splitPlaces (Digits.afterRun cs)).2 with
      hpower | ⟨e, es, hpower, rfl | rfl⟩ <;>
    simp [hplaces, hpower]

/-- A number without fraction and power is digits. -/
theorem isDigit_of_mem_whole {cs : List Char} (h : (Numeral.ofChars cs).fractional = false) :
    ∀ c ∈ (Numeral.ofChars cs).digits, isDigit c = true := by
  simp only [Numeral.ofChars, Bool.not_eq_false', Bool.and_eq_true, List.isEmpty_iff] at h
  simp only [Numeral.ofChars, h.1, h.2, List.append_nil]
  exact fun c => isDigit_of_mem_run

/-- No word ends with the characters of a whole number. -/
theorem isSuffixOf_whole {letter : Char} {word body : List Char} (hletter : letter ∈ word)
    (hbody : ∀ c ∈ body, isDigit c = true ∨ c = '-')
    (hword : ¬(isDigit letter = true ∨ letter = '-')) : word.isSuffixOf body = false := by
  rw [Bool.eq_false_iff]
  intro hsuffix
  exact hword (hbody letter ((List.isSuffixOf_iff_suffix.1 hsuffix).subset hletter))

/-- A number looks like a double exactly if it has a fraction or a power of ten. -/
theorem looksDouble_ofChars (cs : List Char) (hsign : ∀ c ∈ sign, c = '-') :
    Raw.looksDouble (sign ++ (Numeral.ofChars cs).digits) = (Numeral.ofChars cs).fractional := by
  have hany : (sign ++ (Numeral.ofChars cs).digits).any
      (fun c => c == '.' || c == 'e' || c == 'E') = (Numeral.ofChars cs).fractional := by
    have hnone : sign.any (fun c => c == '.' || c == 'e' || c == 'E') = false := by
      rw [List.any_eq_false]
      intro c hc
      rw [hsign c hc]
      decide
    rw [List.any_append, hnone, Bool.false_or, any_digits_ofChars]
  rw [Raw.looksDouble, hany]
  cases hfractional : (Numeral.ofChars cs).fractional with
  | true => rfl
  | false =>
    have hbody : ∀ c ∈ sign ++ (Numeral.ofChars cs).digits, isDigit c = true ∨ c = '-' := by
      intro c hc
      rcases List.mem_append.1 hc with hc | hc
      · exact .inr (hsign c hc)
      · exact .inl (isDigit_of_mem_whole hfractional c hc)
    rw [isSuffixOf_whole (List.mem_cons_self : 'N' ∈ ['N', 'a', 'N']) hbody (by decide),
      isSuffixOf_whole (List.mem_cons_self : 'I' ∈ ['I', 'N', 'F']) hbody (by decide)]
    rfl

/-- A number with a fraction or a power of ten. -/
theorem lexeme_fractional (hsign : sign ∈ signs) (hw : Numeral.Written digits true) {l : Literal}
    (hvalue : Raw.value ⟨String.ofList (signed sign digits), .double⟩ = .ok l) :
    Lexeme false (sign ++ digits) (.literal ⟨String.ofList (signed sign digits), .double⟩) := by
  have hends : ∀ rest, Delimited rest → NumeralEnd ([] ++ rest) :=
    fun rest hrest => .of_delimited hrest
  rw [← List.append_nil (sign ++ digits)]
  apply lexeme_number hsign hw hends
  intro rest hrest
  rw [List.nil_append, List.append_nil, scanNumber_plain hw hrest, scanPlain]
  exact Scan.bounded_of_value hvalue (.of_delimited hrest)

/-- What the scan of a number knows of its kind: an integer has neither fraction nor power. -/
structure NumberKind (body : List Char) (fractional : Bool) (kind : Literal.Kind) : Prop where
  numeric : kind.isNumeric = true
  int : kind = .int → fractional = false ∧ integerKind? body = some .int
  long : kind = .long → fractional = false

theorem numberKind_of_letter {body : List Char} {letter : Char} {kind : Literal.Kind}
    (h : kindOfLetter? fractional letter = some kind) : NumberKind body fractional kind := by
  refine ⟨isNumeric_of_kindOfLetter? h, ?_, ?_⟩
  · rintro rfl
    unfold kindOfLetter? at h
    split at h <;> first | cases h | (split at h <;> cases h)
  · rintro rfl
    unfold kindOfLetter? at h
    split at h
    · split at h
      next => cases h
      next hwhole => exact Bool.eq_false_iff.2 hwhole
    all_goals cases h

theorem numberKind_of_integer {body : List Char} {kind : Literal.Kind}
    (h : integerKind? body = some kind) : NumberKind body false kind where
  numeric := isNumeric_of_integerKind? h
  int hkind := ⟨rfl, hkind ▸ h⟩
  long _ := rfl

/-- A number behind its sign is shown as what is read as the number. -/
theorem lexeme_shown_number (hsign : sign ∈ signs) (hsigned : signed sign digits = sign ++ digits)
    (hw : Numeral.Written digits fractional)
    (hdouble : Raw.looksDouble (sign ++ digits) = fractional) {kind : Literal.Kind}
    (hkind : NumberKind (sign ++ digits) fractional kind) {l : Literal}
    (hvalue : Raw.value ⟨String.ofList (sign ++ digits), kind⟩ = .ok l) :
    Lexeme false (Raw.text ⟨String.ofList (sign ++ digits), kind⟩).toList
      (.literal ⟨String.ofList (sign ++ digits), kind⟩) := by
  have hvalue' : Raw.value ⟨String.ofList (signed sign digits), kind⟩ = .ok l := by
    rw [hsigned]
    exact hvalue
  have hlettered : ∀ letter : Char, kindOfLetter? fractional letter = some kind →
      Lexeme false (String.ofList (sign ++ digits) ++ String.singleton letter).toList
        (.literal ⟨String.ofList (sign ++ digits), kind⟩) := by
    intro letter hletter
    have := lexeme_lettered hsign hw hletter (endsNumeral_of_letter hletter) hvalue'
    rw [String.toList_append, String.toList_ofList, String.toList_singleton]
    rwa [hsigned] at this
  cases kind with
  | int =>
    obtain ⟨hwhole, hinteger⟩ := hkind.int rfl
    rw [← hsigned] at hinteger
    have := lexeme_plain hsign hw hwhole hinteger hvalue'
    rw [hsigned] at this
    simpa [Raw.text] using this
  | long =>
    obtain rfl := hkind.long rfl
    exact hlettered 'L' rfl
  | decimal => exact hlettered 'm' (by cases fractional <;> rfl)
  | single => exact hlettered 'f' (by cases fractional <;> rfl)
  | double =>
    cases fractional with
    | true =>
      have := lexeme_fractional hsign hw hvalue'
      rw [hsigned] at this
      simpa [Raw.text, hdouble] using this
    | false =>
      have := hlettered 'd' rfl
      simpa [Raw.text, hdouble] using this
  | _ => cases hkind.numeric

/-- A number is shown with its body in front. -/
theorem text_of_isNumeric {raw : Raw} (h : raw.kind.isNumeric = true) :
    ∃ ending, raw.text.toList = raw.body.toList ++ ending := by
  obtain ⟨body, kind⟩ := raw
  cases kind with
  | int => exact ⟨[], by simp [Raw.text]⟩
  | long => exact ⟨['L'], by simp [Raw.text]⟩
  | decimal => exact ⟨['m'], by simp [Raw.text]⟩
  | single => exact ⟨['f'], by simp [Raw.text]⟩
  | double =>
    by_cases hdouble : Raw.looksDouble body.toList = true
    · exact ⟨[], by simp [Raw.text, hdouble]⟩
    · exact ⟨['d'], by simp [Raw.text, hdouble]⟩
  | _ => cases h

theorem readsBack_of_lexeme {raw : Raw} {afterOperand : Bool} (hkind : raw.kind ≠ .dateTime)
    (h : Lexeme afterOperand raw.text.toList (.literal raw)) :
    (Kind.literal raw).ReadsBack afterOperand := by
  rw [Kind.ReadsBack, Kind.halfMoment?_of_ne hkind]
  exact h

/-- A number without a minus in front of it is read behind operands too. -/
theorem readsBack_number {cs : List Char} (hcs : startsDigit cs = true) {kind : Literal.Kind}
    (hsign : sign = [] ∨ sign = ['-'])
    (hkind : NumberKind (sign ++ (Numeral.ofChars cs).digits) (Numeral.ofChars cs).fractional kind)
    {l : Literal}
    (hvalue : Raw.value ⟨String.ofList (sign ++ (Numeral.ofChars cs).digits), kind⟩ = .ok l)
    {afterOperand : Bool} (hminus : sign = ['-'] → afterOperand = false) :
    (Kind.literal ⟨String.ofList (sign ++ (Numeral.ofChars cs).digits), kind⟩).ReadsBack
      afterOperand := by
  have hw := Numeral.written_ofChars hcs
  have hne : kind ≠ .dateTime := by
    rintro rfl
    cases hkind.numeric
  have hfalse : (Kind.literal
      ⟨String.ofList (sign ++ (Numeral.ofChars cs).digits), kind⟩).ReadsBack false := by
    refine readsBack_of_lexeme hne ?_
    rcases hsign with rfl | rfl
    · exact lexeme_shown_number (by decide) rfl hw (looksDouble_ofChars cs (by simp)) hkind hvalue
    · exact lexeme_shown_number (by decide) rfl hw (looksDouble_ofChars cs (by simp)) hkind hvalue
  rcases hsign with rfl | rfl
  · have hnumeric : (⟨String.ofList ([] ++ (Numeral.ofChars cs).digits), kind⟩ :
        Raw).kind.isNumeric = true := hkind.numeric
    obtain ⟨ending, htext⟩ := text_of_isNumeric hnumeric
    refine hfalse.behind ?_ afterOperand
    show (Raw.text _).toList.head? ≠ _
    have hstarts := startsDigit_append hw.starts ending
    rw [htext, String.toList_ofList, List.nil_append]
    intro hhead
    obtain ⟨ds, hds⟩ := List.head?_eq_some_iff.1 hhead
    rw [hds] at hstarts
    cases hstarts
  · rw [hminus rfl]
    exact hfalse

/-- The number at the front of a text, behind its sign, is shown as what is read as the number,
    also behind an operand if it has no minus. -/
theorem scanNumber_readsBack (hsign : sign ∈ signs) {cs : List Char} (hcs : startsDigit cs = true)
    (afterOperand : Bool) (hminus : sign = ['-'] → afterOperand = false) :
    (scanNumber sign cs).Gives (·.ReadsBack afterOperand) := by
  obtain ⟨sign', hsign', hminus', hsigned⟩ : ∃ sign', (sign' = [] ∨ sign' = ['-']) ∧
      (sign' = ['-'] → afterOperand = false) ∧ ∀ digits, signed sign digits = sign' ++ digits := by
    simp only [signs, List.mem_cons, List.not_mem_nil, or_false] at hsign
    rcases hsign with rfl | rfl | rfl
    · exact ⟨[], .inl rfl, by simp, fun _ => rfl⟩
    · exact ⟨[], .inl rfl, by simp, fun _ => rfl⟩
    · exact ⟨['-'], .inr rfl, hminus, fun _ => rfl⟩
  have hplain : (scanPlain sign (Numeral.ofChars cs)).Gives (·.ReadsBack afterOperand) := by
    unfold scanPlain
    rw [hsigned]
    dsimp only
    split
    next hfractional =>
      refine Scan.gives_bounded fun _ hvalue => readsBack_number hcs hsign' ?_ hvalue hminus'
      exact ⟨rfl, by simp, by simp⟩
    next hwhole =>
      split
      next hkind =>
        refine Scan.gives_bounded fun _ hvalue => readsBack_number hcs hsign' ?_ hvalue hminus'
        rw [Bool.eq_false_iff.2 hwhole]
        exact numberKind_of_integer hkind
      next => exact Scan.gives_failed
  unfold scanNumber
  dsimp only
  split
  · split
    next hkind =>
      rw [hsigned]
      exact Scan.gives_bounded fun _ hvalue =>
        readsBack_number hcs hsign' (numberKind_of_letter hkind) hvalue hminus'
    next => exact hplain
  · exact hplain

end

/-! ### Literals between quotes -/

theorem nameText_binary : NameText "binary" := ⟨⟨'b', _, rfl, rfl, rfl⟩, rfl⟩

theorem nameText_datetime : NameText "datetime" := ⟨⟨'d', _, rfl, rfl, rfl⟩, rfl⟩

theorem head?_typed {word : String} (hword : NameText word) (body : String) :
    (Literal.typed word body).toList.head? ≠ some '-' := by
  obtain ⟨c, cs, hcs, -, hstart⟩ := hword.starts
  have htext : (Literal.typed word body).toList.head? = some c := by simp [Literal.typed, hcs]
  rw [htext]
  rintro ⟨⟩
  exact absurd hstart (by decide)

section

variable {body : List Char} (hbody : ∀ c ∈ body, isBodyChar c = true)

include hbody

/-- A body that is shown behind a word that admits it for its kind. -/
theorem readsBack_admitted {word : String} (hword : NameText word) {w : TypeWord}
    (hw : TypeWord.ofWord? word = some w) {kind : Literal.Kind} (hkind : w.kindOf body = .ok kind)
    (htext : Raw.text ⟨String.ofList body, kind⟩ = Literal.typed word (String.ofList body))
    (hhalf : (Kind.literal ⟨String.ofList body, kind⟩).halfMoment? = none) {l : Literal}
    (hvalue : Raw.value ⟨String.ofList body, kind⟩ = .ok l) (afterOperand : Bool) :
    (Kind.literal ⟨String.ofList body, kind⟩).ReadsBack afterOperand := by
  have hlexeme := lexeme_body hword hw hbody hkind hvalue
  rw [← htext] at hlexeme
  have hfalse : (Kind.literal ⟨String.ofList body, kind⟩).ReadsBack false := by
    rw [Kind.ReadsBack, hhalf]
    exact hlexeme
  refine hfalse.behind ?_ afterOperand
  show (Raw.text _).toList.head? ≠ _
  rw [htext]
  exact head?_typed hword _

/-- A moment is shown as a date and time, which is refused unless it is one. -/
theorem readsBack_dateTime {m : Temporal.Moment} (hm : Temporal.Moment.read body = some m)
    (afterOperand : Bool) :
    (Kind.literal ⟨String.ofList body, .dateTime⟩).ReadsBack afterOperand := by
  have hvalue : Raw.value ⟨String.ofList body, .dateTime⟩ = .ok (.dateTime m) := by
    simp only [Raw.value, String.toList_ofList, hm]
  cases hadmits : TypeWord.civil.admits m with
  | true =>
    have hhalf : (Kind.literal ⟨String.ofList body, .dateTime⟩).halfMoment? = none := by
      simp [Kind.halfMoment?, Raw.isHalfMoment, hm, hadmits]
    have hkind : TypeWord.civil.kindOf body = .ok .dateTime := by
      simp [TypeWord.kindOf, TypeWord.admitsBody, hm, hadmits]
    exact readsBack_admitted hbody nameText_datetime rfl hkind rfl hhalf hvalue afterOperand
  | false =>
    have hhalf : (Kind.literal ⟨String.ofList body, .dateTime⟩).halfMoment? =
        some ⟨String.ofList body, .dateTime⟩ := by
      simp [Kind.halfMoment?, Raw.isHalfMoment, hm, hadmits]
    have hkind : TypeWord.civil.kindOf body = .error .notCivil := by
      simp [TypeWord.kindOf, TypeWord.admitsBody, hm, hadmits]
    have hfalse : (Kind.literal ⟨String.ofList body, .dateTime⟩).ReadsBack false := by
      rw [Kind.ReadsBack, hhalf]
      obtain ⟨c, cs, hcs, hblank, hscan⟩ := scan_typed nameText_datetime rfl hbody
      refine ⟨c, cs, hcs, hblank, fun rest hrest => ?_⟩
      rw [hscan rest hrest, typedLiteral, hkind]
      rfl
    exact hfalse.behind (head?_typed nameText_datetime _) afterOperand

end

/-- A literal between quotes is shown with the word for its kind. -/
theorem readsBack_typed {body : List Char} {kind : Literal.Kind} (htyped : kind.isTyped = true)
    (hplain : ∀ c ∈ body, Text.isPlain c = true) {l : Literal}
    (hvalue : Raw.value ⟨String.ofList body, kind⟩ = .ok l) (afterOperand : Bool) :
    (Kind.literal ⟨String.ofList body, kind⟩).ReadsBack afterOperand := by
  have hbody : ∀ c ∈ body, isBodyChar c = true := by
    intro c hc
    have hquote : c ≠ '\'' := by
      rintro rfl
      have hnone : '\'' ∉ (String.ofList body).toList := Raw.no_quote_of_value htyped hvalue
      exact hnone (by simpa using hc)
    simp [isBodyChar, hplain c hc, hquote]
  cases kind with
  | guid => exact readsBack_admitted hbody nameText_guid rfl rfl rfl rfl hvalue afterOperand
  | binary => exact readsBack_admitted hbody nameText_binary rfl rfl rfl rfl hvalue afterOperand
  | duration =>
    exact readsBack_admitted hbody nameText_duration rfl rfl rfl rfl hvalue afterOperand
  | dateTime =>
    simp only [Raw.value, String.toList_ofList] at hvalue
    split at hvalue
    next hm => exact readsBack_dateTime hbody hm afterOperand
    next => cases hvalue
  | _ => cases htyped

/-! ### All tokens -/

/-- A name or a constant is shown as it is written. -/
theorem text_kindOfName (word : String) : (kindOfName word).text = word := by
  unfold kindOfName
  split
  next hconstant =>
    unfold constant? at hconstant
    split at hconstant <;> cases hconstant <;> rfl
  next => rfl

theorem halfMoment?_kindOfName (word : String) : (kindOfName word).halfMoment? = none := by
  unfold kindOfName
  split
  next hconstant =>
    unfold constant? at hconstant
    split at hconstant <;> cases hconstant <;> rfl
  next => rfl

theorem readsBack_name {word : String} (h : NameText word) (afterOperand : Bool) :
    (kindOfName word).ReadsBack afterOperand := by
  rw [Kind.ReadsBack, halfMoment?_kindOfName, text_kindOfName]
  exact lexeme_word h afterOperand

/-- No number begins with a delimiter. -/
theorem not_starts_of_delimited {rest : List Char} (h : Delimited rest) :
    startsDigit rest = false ∧ startsInfinity rest = false := by
  cases rest with
  | nil => exact ⟨rfl, rfl⟩
  | cons c rest =>
    have hc := delimited_cons.1 h
    have hI : c ≠ 'I' := of_isDelimiter (· ≠ 'I') hc (by decide)
    refine ⟨of_isDelimiter (isDigit · = false) hc (by decide), ?_⟩
    simp [startsInfinity, infinityWord, List.isPrefixOf, Ne.symm hI]

theorem readsBack_mark (m : Mark) (afterOperand : Bool) : (Kind.mark m).ReadsBack afterOperand := by
  refine ⟨m.char, [], String.toList_singleton m.char, by cases m <;> rfl, fun rest hrest => ?_⟩
  show scan afterOperand m.char rest = .found (String.singleton m.char).toList rest (.mark m)
  rw [String.toList_singleton]
  cases m with
  | minus =>
    obtain ⟨hdigit, hinfinity⟩ := not_starts_of_delimited hrest
    show scanMinus afterOperand rest = _
    rw [scanMinus, hdigit, hinfinity, Bool.and_false]
    rfl
  | _ => rfl

theorem readsBack_string {body : List Char} (hplain : ∀ c ∈ body, Text.isPlain c = true)
    (afterOperand : Bool) :
    (Kind.literal ⟨String.ofList body, .string⟩).ReadsBack afterOperand := by
  refine ⟨'\'', Text.Quoted.double body ++ ['\''], ?_, rfl, fun rest hrest => ?_⟩
  · show (Raw.text ⟨String.ofList body, .string⟩).toList = _
    simp [Raw.text, Text.Quoted.enclose]
  · have hquote : rest.head? ≠ some '\'' := by
      intro h
      exact absurd (hrest '\'' h) (by decide)
    rw [List.append_assoc, List.singleton_append, scan_enclose afterOperand hplain hquote]
    show _ = Scan.found (Raw.text ⟨String.ofList body, .string⟩).toList _ _
    simp [Raw.text]

/-- The word for infinity behind a minus. -/
theorem readsBack_infinity : (Kind.literal ⟨"-INF", .double⟩).ReadsBack false := by
  refine ⟨'-', infinityWord, rfl, rfl, fun rest hrest => ?_⟩
  have hinfinity : startsInfinity (infinityWord ++ rest) = true := by
    cases rest with
    | nil => rfl
    | cons c rest =>
      have := ((NameEnd.of_delimited hrest) c rfl).1
      simp [startsInfinity, infinityWord, this]
  have hdigit : startsDigit (infinityWord ++ rest) = false := rfl
  show scanMinus false (infinityWord ++ rest) = _
  rw [scanMinus, hdigit, hinfinity]
  rfl

theorem scanMinus_readsBack {afterOperand behind : Bool}
    (h : behind = true → afterOperand = true) (cs : List Char) :
    (scanMinus afterOperand cs).Gives (·.ReadsBack behind) := by
  have hfalse : (!afterOperand) = true → behind = false := by
    cases behind with
    | false => exact fun _ => rfl
    | true => simp [h rfl]
  unfold scanMinus
  split
  next hnumber =>
    rw [Bool.and_eq_true] at hnumber
    exact scanNumber_readsBack (by decide) hnumber.2 behind fun _ => hfalse hnumber.1
  split
  next hword =>
    rw [Bool.and_eq_true] at hword
    rw [hfalse hword.1]
    exact Scan.gives_found readsBack_infinity
  · exact Scan.gives_found (readsBack_mark .minus behind)

theorem scanUnsigned_readsBack (afterOperand : Bool) {cs : List Char}
    (hcs : startsDigit cs = true) : (scanUnsigned cs).Gives (·.ReadsBack afterOperand) := by
  unfold scanUnsigned
  split
  next hdate =>
    exact Scan.gives_bounded fun _ hvalue =>
      readsBack_typed rfl (BareDate.isPlain_of_splitDate? cs _ hdate) hvalue afterOperand
  · exact scanNumber_readsBack (by decide) hcs afterOperand nofun

theorem scanTyped_readsBack (afterOperand : Bool) (w : TypeWord) (word cs : List Char) :
    (scanTyped w word cs).Gives (·.ReadsBack afterOperand) := by
  refine gives_scanQuoted (fun read rest body hplain => ?_) cs
  unfold typedLiteral
  split
  next kind hkind =>
    have htyped : kind.isTyped = true := by
      unfold TypeWord.kindOf at hkind
      repeat' split at hkind
      all_goals cases hkind <;> rfl
    exact Scan.gives_literal fun _ hvalue => readsBack_typed htyped hplain hvalue afterOperand
  next => exact Scan.gives_failed

theorem scanName_readsBack (afterOperand : Bool) {cs : List Char} (hstart : startsWord cs = true) :
    (scanName cs).Gives (·.ReadsBack afterOperand) := by
  have hname : NameText (String.ofList (splitName cs).1) := by
    apply NameText.of_startsWord
    · rw [String.toList_ofList]
      cases cs with
      | nil => cases hstart
      | cons c cs =>
        have hchar : Text.isNameChar c = true := Text.isNameChar_of_isNameStart hstart
        rw [splitName, if_pos (by rw [hchar, Bool.true_or])]
        exact hstart
    · rw [String.toList_ofList, splitName_splitName]
  unfold scanName
  dsimp only
  split
  · split
    · exact scanTyped_readsBack afterOperand _ _ _
    · exact Scan.gives_found (readsBack_name hname afterOperand)
  · exact Scan.gives_found (readsBack_name hname afterOperand)

/-- Whatever the lexer finds is shown as what is read as the same token there, and also where no
    operand is in front of it. -/
theorem scan_readsBack {afterOperand behind : Bool} (h : behind = true → afterOperand = true)
    (c : Char) (cs : List Char) : (scan afterOperand c cs).Gives (·.ReadsBack behind) := by
  unfold scan
  split
  · exact gives_scanQuoted (fun _ _ _ hplain =>
      Scan.gives_found (readsBack_string hplain behind)) cs
  split
  · exact scanMinus_readsBack h cs
  split
  next hplus =>
    rw [Bool.and_eq_true] at hplus
    exact scanNumber_readsBack (by decide) hplus.2 behind nofun
  split
  next hdigit => exact scanUnsigned_readsBack behind hdigit
  split
  next hstart => exact scanName_readsBack behind hstart
  split
  · exact Scan.gives_found (readsBack_mark _ behind)
  · exact Scan.gives_failed

end Token

/-! ## Texts with a fault -/

namespace Lexer

open Text.Utf8 (size)

/-- The lexer gives the fault at which a text breaks. -/
theorem upTo_of_breaks {afterOperand : Bool} {before cs : List Char} {ts : List Token}
    {e : LexError} (hbreaks : Breaks afterOperand before cs ts e) {limit : Nat} {l : Lexer}
    (hafter : l.afterOperand = afterOperand) (h : l.cursor.Placed before)
    (ahead : l.cursor.ahead = cs) (hl : cs.length < limit) : upTo limit l = .error e := by
  induction hbreaks generalizing limit l with
  | fault hgap hc hscan =>
    cases limit with
    | zero => omega
    | succ limit =>
      rw [← hafter] at hscan
      have hnext := next_of_flaw h hgap hc ahead hscan
      rcases hcall : l.next with ⟨result, l'⟩
      rw [hcall] at hnext
      obtain rfl : result = _ := hnext
      simp only [upTo, hcall]
  | token hgap hc hscan _ ih =>
    cases limit with
    | zero => omega
    | succ limit =>
      rw [← hafter] at hscan
      obtain ⟨l', hnext, hplaced, hrest, hafter'⟩ := next_of_found h hgap hc ahead hscan
      obtain ⟨happend, hne⟩ := append_eq_of_found hscan
      have hlength := congrArg List.length happend
      have hpos := List.length_pos_iff.2 hne
      simp only [List.length_append, List.length_cons] at hlength hl
      have hmore : upTo limit l' = .error _ := ih hafter' hplaced hrest (by omega)
      simp only [upTo, hnext, hmore, Except.map]

theorem tokenize_of_breaks {text : String} {ts : List Token} {e : LexError}
    (h : Breaks false [] text.toList ts e) : tokenize text = .error e :=
  upTo_of_breaks h rfl (Cursor.placed_ofText text) rfl (Nat.lt_succ_self _)

end Lexer

/-! ## Neighbouring tokens -/

/-- Tokens as they are shown, with a blank between neighbours. -/
def shown (ts : List Token) : String := Text.Segments.join ' ' (ts.map Token.text)

/-- The text that is given for a single token. -/
example (t : Token) : shown [t] = t.text := String.ofList_toList

/-- A blank in front of more tokens. -/
def blankBefore : List Token.Kind → List Char
  | [] => []
  | _ :: _ => [' ']

/-- What is shown for tokens of these kinds. -/
def shownChars : List Token.Kind → List Char
  | [] => []
  | k :: kinds => k.text.toList ++ (blankBefore kinds ++ shownChars kinds)

theorem toList_shown (ts : List Token) : (shown ts).toList = shownChars (ts.map Token.kind) := by
  rw [shown, Text.Segments.toList_join, List.map_map]
  induction ts with
  | nil => rfl
  | cons t ts ih =>
    cases ts with
    | nil => simp [Text.Segments.joinChars, shownChars, blankBefore, Token.text]
    | cons u ts =>
      simp only [List.map_cons, Text.Segments.joinChars, shownChars] at ih ⊢
      rw [ih]
      simp [blankBefore, Token.text]

theorem blank_blankBefore (kinds : List Token.Kind) : Lexer.Blank (blankBefore kinds) := by
  cases kinds with
  | nil => exact Lexer.blank_nil
  | cons k kinds => exact List.forall_mem_singleton.2 rfl

theorem delimited_blankBefore (kinds : List Token.Kind) :
    Token.Delimited (blankBefore kinds ++ shownChars kinds) := by
  cases kinds with
  | nil => exact Token.delimited_nil
  | cons k kinds => exact Token.delimited_cons.2 rfl

namespace Lexer

/-- Tokens that follow one another, of which what is shown for each is read as the token. -/
inductive ReadBack : Bool → List Token.Kind → Prop where
  | nil {afterOperand} : ReadBack afterOperand []
  | cons {afterOperand k kinds} (h : k.ReadsBack afterOperand)
      (more : ReadBack k.endsOperand kinds) : ReadBack afterOperand (k :: kinds)

variable {afterOperand : Bool} {kinds : List Token.Kind} {gap : List Char}

/-- Where no half of a moment is shown, all is read as tokens again. -/
theorem ReadBack.cuts (h : ReadBack afterOperand kinds)
    (hwhole : kinds.findSome? Token.Kind.halfMoment? = none) (before : List Char)
    (hgap : Blank gap) :
    ∃ ts, Cuts afterOperand before (gap ++ shownChars kinds) ts ∧ ts.map Token.kind = kinds := by
  induction h generalizing before gap with
  | nil => exact ⟨[], .done (by simpa [shownChars] using hgap), rfl⟩
  | @cons afterOperand k kinds hk _ ih =>
    obtain ⟨hnone, hkinds⟩ := List.forall_mem_cons.1 (List.findSome?_eq_none_iff.1 hwhole)
    rw [Token.Kind.ReadsBack, hnone] at hk
    obtain ⟨c, cs, htext, hblank, hscan⟩ := hk
    obtain ⟨ts, hcuts, hts⟩ := ih (List.findSome?_eq_none_iff.2 hkinds)
      (before ++ gap ++ k.text.toList) (blank_blankBefore kinds)
    have htoken := Cuts.token hgap hblank (hscan _ (delimited_blankBefore kinds)) hcuts
    rw [← List.cons_append, ← htext] at htoken
    exact ⟨_, htoken, by rw [List.map_cons, hts]⟩

/-- What is shown for the first half of a moment is the fault at which all of it breaks. -/
theorem ReadBack.breaks (h : ReadBack afterOperand kinds) {raw : Raw}
    (hhalf : kinds.findSome? Token.Kind.halfMoment? = some raw) (before : List Char)
    (hgap : Blank gap) : ∃ ts position, Breaks afterOperand before (gap ++ shownChars kinds) ts
      ⟨.malformed raw .notCivil, position⟩ := by
  induction h generalizing before gap with
  | nil => cases hhalf
  | @cons afterOperand k kinds hk _ ih =>
    rw [List.findSome?_cons] at hhalf
    cases hfirst : k.halfMoment? with
    | some raw' =>
      rw [hfirst] at hhalf
      cases hhalf
      rw [Token.Kind.ReadsBack, hfirst] at hk
      obtain ⟨c, cs, htext, hblank, hscan⟩ := hk
      rw [shownChars, htext]
      exact ⟨[], _, .fault hgap hblank (hscan _ (delimited_blankBefore kinds))⟩
    | none =>
      rw [hfirst] at hhalf
      rw [Token.Kind.ReadsBack, hfirst] at hk
      obtain ⟨c, cs, htext, hblank, hscan⟩ := hk
      obtain ⟨ts, position, hbreaks⟩ := ih hhalf (before ++ gap ++ k.text.toList)
        (blank_blankBefore kinds)
      have htoken := Breaks.token hgap hblank (hscan _ (delimited_blankBefore kinds)) hbreaks
      rw [← List.cons_append, ← htext] at htoken
      exact ⟨_, position, htoken⟩

theorem ReadBack.prefix {front : List Token.Kind} (h : ReadBack afterOperand kinds)
    (hfront : front <+: kinds) : ReadBack afterOperand front := by
  induction h generalizing front with
  | nil =>
    rw [List.prefix_nil.1 hfront]
    exact .nil
  | cons hk _ ih =>
    cases front with
    | nil => exact .nil
    | cons k front =>
      obtain ⟨rfl, hmore⟩ := List.cons_prefix_cons.1 hfront
      exact .cons hk (ih hmore)

/-- The tokens of a text are shown so, also if there is no operand in front of the first one. -/
theorem readBack_of_cuts {before cs : List Char} {ts : List Token}
    (h : Cuts afterOperand before cs ts) {behind : Bool}
    (hbehind : behind = true → afterOperand = true) : ReadBack behind (ts.map Token.kind) := by
  induction h generalizing behind with
  | done => exact .nil
  | @token _ _ _ c cs _ _ _ _ _ _ hscan _ ih =>
    have hgives := Token.scan_readsBack hbehind c cs
    exact .cons (hgives _ (by rw [hscan]; rfl)) (ih id)

/-- Neighbouring tokens of a text are shown so. -/
theorem readBack_of_tokenize {text : String} {ts part : List Token} (h : tokenize text = .ok ts)
    (hpart : part <:+: ts) : ReadBack false (part.map Token.kind) := by
  obtain ⟨front, back, rfl⟩ := hpart
  have hcuts := cuts_of_tokenize h
  rw [List.append_assoc] at hcuts
  obtain ⟨passed, rest, -, hbehind⟩ := hcuts.behind
  have hback : ReadBack false ((part ++ back).map Token.kind) := readBack_of_cuts hbehind nofun
  rw [List.map_append] at hback
  exact hback.prefix (List.prefix_append _ _)

/-- What is shown for neighbouring tokens of a text, with a blank between each two, is read as
    tokens of the same kinds, unless there is half a moment among them. Then it is refused, because
    the first one is not a date and time. For a single token this is the text that is given for it
    in faults. -/
theorem tokenize_shown {text : String} {ts part : List Token} (h : tokenize text = .ok ts)
    (hpart : part <:+: ts) :
    match (part.map Token.kind).findSome? Token.Kind.halfMoment? with
    | none => ∃ again, tokenize (shown part) = .ok again ∧
        again.map Token.kind = part.map Token.kind
    | some raw => ∃ position, tokenize (shown part) = .error ⟨.malformed raw .notCivil, position⟩ := by
  have hreadBack := readBack_of_tokenize h hpart
  have hshown : (shown part).toList = [] ++ shownChars (part.map Token.kind) := toList_shown part
  split
  next hwhole =>
    obtain ⟨again, hcuts, hkinds⟩ := hreadBack.cuts hwhole [] blank_nil
    rw [← hshown] at hcuts
    exact ⟨again, tokenize_of_cuts hcuts, hkinds⟩
  next raw hhalf =>
    obtain ⟨_, position, hbreaks⟩ := hreadBack.breaks hhalf [] blank_nil
    rw [← hshown] at hbreaks
    exact ⟨position, tokenize_of_breaks hbreaks⟩

/-- The tokens in front of a date are shown as they are, the date is not. -/
theorem tokenize_shown_front :
    ∃ ts, tokenize "a le -5L and b lt 2024-05-01" = .ok ts ∧
      (∃ again, tokenize (shown (ts.take 6)) = .ok again ∧
        again.map Token.kind = (ts.take 6).map Token.kind) ∧
      ∃ position, tokenize (shown ts) =
        .error ⟨.malformed ⟨"2024-05-01", .dateTime⟩ .notCivil, position⟩ := by
  have h : tokenize "a le -5L and b lt 2024-05-01" = .ok _ := rfl
  exact ⟨_, h, tokenize_shown h (List.take_prefix 6 _).isInfix, tokenize_shown h List.infix_rfl⟩

/-- A date is a text of one token, but what is shown for the token is no such text. -/
theorem tokenize_shown_date :
    let t : Token := ⟨.literal ⟨"2024-05-01", .dateTime⟩, ⟨0, 10⟩⟩
    tokenize "2024-05-01" = .ok [t] ∧ shown [t] = "datetime'2024-05-01'" ∧
      tokenize (shown [t]) = .error ⟨.malformed ⟨"2024-05-01", .dateTime⟩ .notCivil, 0⟩ :=
  ⟨rfl, rfl, rfl⟩

end Lexer

end QueryExpr
