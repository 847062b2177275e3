import QueryExpr.Proofs.Context
import QueryExpr.Proofs.Floats
import QueryExpr.Proofs.Moments
import QueryExpr.Proofs.Rendering
import QueryExpr.Proofs.Shapes

/-!
# Texts that are read in one way or not at all

What is written for a tree that was read need not be read again: `-INF/x` is written for a name
behind a minus, and nothing is said here about the range of a floating-point number. But wherever
the lexer takes the text at all, it finds tokens of known kinds.

* `Token.LexemeOnly`: a text that is read as one token or not at all.
* `Token.lexemeOnly_literal`: every literal, as it is written, is such a text.
* `Lexer.LexesOnly`: a text consists of tokens of the given kinds or is not taken.
* `Lexer.lexedBy_infinity`: a minus in front of a name that begins with the word for infinity.
* `Expr.Legible`: what the parts of a tree are like that is read of a text.
-/

namespace QueryExpr

namespace Token

/-! ## Single tokens -/

/-- The text is read as a token of the given kind in front of any delimiter, if as any token. -/
def LexemeOnly (text : List Char) (kind : Kind) : Prop :=
  ∃ c cs, text = c :: cs ∧ Text.isBlank c = false ∧ ∀ rest, Delimited rest →
    ∀ found, (scan false c (cs ++ rest)).outcome = .ok found →
      scan false c (cs ++ rest) = .found text rest kind

theorem Lexeme.only {text : List Char} {kind : Kind} (h : Lexeme false text kind) :
    LexemeOnly text kind := by
  obtain ⟨c, cs, htext, hblank, hscan⟩ := h
  exact ⟨c, cs, htext, hblank, fun rest hrest _ _ => hscan rest hrest⟩

section

variable {read rest : List Char} {raw : Literal.Raw} {found : Kind}

/-- A literal is found, or it has no value. -/
theorem Scan.literal_only (h : (Scan.literal read rest raw).outcome = .ok found) :
    Scan.literal read rest raw = .found read rest (.literal raw) := by
  unfold Scan.literal at h ⊢
  split
  next => rfl
  next reason hreason =>
    rw [hreason] at h
    cases h

theorem Scan.bounded_only (hrest : NameEnd rest)
    (h : (Scan.bounded read rest raw).outcome = .ok found) :
    Scan.bounded read rest raw = .found read rest (.literal raw) := by
  have hbounded : Scan.bounded read rest raw = Scan.literal read rest raw := by
    cases rest with
    | nil => rfl
    | cons c rest => rw [Scan.bounded, (hrest c rfl).1, if_neg (by decide)]
  rw [hbounded] at h ⊢
  exact literal_only h

end

/-! ## Literals -/

section

variable {n : Int} {digits : List Char} (hw : Numeral.Written digits true)

include hw

/-- A number with a fraction or a power of ten is a double. -/
theorem lexemeOnly_double :
    LexemeOnly (signOf n ++ digits) (.literal ⟨String.ofList (signOf n ++ digits), .double⟩) := by
  obtain ⟨c, cs, hcs, hblank, hnumber⟩ := scan_number (signOf_mem_signs n) hw
  refine ⟨c, cs, hcs, hblank, fun rest hrest found hfound => ?_⟩
  rw [hnumber rest (.of_delimited hrest), scanNumber_plain hw hrest, scanPlain, signed_signOf]
    at hfound ⊢
  exact Scan.bounded_only (.of_delimited hrest) hfound

/-- With the letter of the kind behind it, it is a single. -/
theorem lexemeOnly_single :
    LexemeOnly (signOf n ++ digits ++ ['f'])
      (.literal ⟨String.ofList (signOf n ++ digits), .single⟩) := by
  obtain ⟨c, cs, hcs, hblank, hnumber⟩ := scan_number (signOf_mem_signs n) hw
  refine ⟨c, cs ++ ['f'], by rw [hcs]; rfl, hblank, fun rest hrest found hfound => ?_⟩
  have hend : NumeralEnd ('f' :: rest) := by
    rintro _ ⟨⟩
    rfl
  have hletter : kindOfLetter? true 'f' = some .single := rfl
  rw [List.append_assoc, List.singleton_append, hnumber _ hend,
    scanNumber_lettered hw hletter rfl, signed_signOf] at hfound ⊢
  exact Scan.bounded_only (.of_delimited hrest) hfound

end

/-- Whether it is negative or not, a finite value is a number behind its sign. -/
theorem chars_finite (f : Number.Floating.Format) (negative : Bool) (significand : Nat)
    (exponent : Int) : Number.Floating.chars f (.finite negative significand exponent) =
      signOf (if negative then -1 else 0) ++
        Number.Floating.magnitudeChars f significand exponent := by
  cases negative <;> rfl

/-- What is not finite is a constant, or infinity behind a minus. -/
theorem lexemeOnly_notFinite (f : Number.Floating.Format) {v : Number.Floating}
    (h : v.isFinite = false) : ∃ raw, LexemeOnly (Number.Floating.chars f v) (.literal raw) := by
  have hconstant : ∀ (word : String) {raw : Literal.Raw}, NameText word →
      constant? word = some raw → LexemeOnly word.toList (.literal raw) := by
    intro word raw hname hraw
    have hkind : kindOfName word = .literal raw := by rw [kindOfName, hraw]
    rw [← hkind]
    exact (lexeme_word hname false).only
  cases v with
  | nan => exact ⟨_, hconstant "NaN" ⟨⟨'N', _, rfl, rfl, rfl⟩, rfl⟩ rfl⟩
  | infinite negative =>
    cases negative with
    | false => exact ⟨_, hconstant "INF" ⟨⟨'I', _, rfl, rfl, rfl⟩, rfl⟩ rfl⟩
    | true =>
      refine ⟨⟨"-INF", .double⟩, '-', infinityWord, rfl, rfl, fun rest hrest _ _ => ?_⟩
      have hinfinity : startsInfinity (infinityWord ++ rest) = true := by
        cases rest with
        | nil => rfl
        | cons c rest =>
          have := ((NameEnd.of_delimited hrest) c rfl).1
          simp [startsInfinity, infinityWord, this]
      have hdigit : startsDigit (infinityWord ++ rest) = false := rfl
      show scanMinus false (infinityWord ++ rest) = _
      rw [scanMinus, hdigit, hinfinity]
      rfl
  | finite => cases h

/-- A literal between quotes is of one kind, if its body has the form that its word asks for. -/
theorem lexemeOnly_typed {word : String} (hword : NameText word) {w : TypeWord}
    (hw : TypeWord.ofWord? word = some w) {body : List Char}
    (hbody : ∀ c ∈ body, isBodyChar c = true) :
    ∃ raw, LexemeOnly (Literal.typed word (String.ofList body)).toList (.literal raw) := by
  obtain ⟨c, cs, hcs, hblank, hscan⟩ := scan_typed hword hw hbody
  cases hkind : w.kindOf body with
  | ok kind =>
    refine ⟨⟨String.ofList body, kind⟩, c, cs, hcs, hblank, fun rest hrest found hfound => ?_⟩
    rw [hscan rest hrest, typedLiteral, hkind] at hfound ⊢
    exact Scan.literal_only hfound
  | error reason =>
    refine ⟨default, c, cs, hcs, hblank, fun rest hrest found hfound => ?_⟩
    rw [hscan rest hrest, typedLiteral, hkind] at hfound
    cases hfound

/-- Every literal is read as one literal or not at all, if strings have plain characters. -/
theorem lexemeOnly_literal {l : Literal} (h : (Expr.literal l).PlainString) :
    ∃ raw, LexemeOnly l.text.toList (.literal raw) := by
  have hwell : l.WellFormed → ∃ raw, LexemeOnly l.text.toList (.literal raw) := by
    intro hl
    obtain ⟨raw, -, hlexeme⟩ := lexeme_literal hl
    exact ⟨raw, hlexeme.only⟩
  cases l with
  | null | boolean _ | int _ | long _ | decimal _ | binary _ | guid _ => exact hwell trivial
  | string s => exact hwell h
  | duration d => exact lexemeOnly_typed nameText_duration rfl (isBodyChar_duration d)
  | dateTime m => exact ⟨_, (lexeme_moment m).only⟩
  | double v =>
    show ∃ raw, LexemeOnly (String.ofList (Number.Floating.chars .double v)).toList _
    rw [String.toList_ofList]
    cases v with
    | finite negative m e =>
      rw [chars_finite]
      exact ⟨_, lexemeOnly_double (written_magnitude .double m e)⟩
    | nan | infinite _ => exact lexemeOnly_notFinite .double rfl
  | single v =>
    cases v with
    | finite negative m e =>
      have htext : (Literal.single (.finite negative m e)).text.toList =
          signOf (if negative then -1 else 0) ++
            Number.Floating.magnitudeChars .single m e ++ ['f'] := by
        rw [← chars_finite]
        simp [Literal.text, Number.Floating.isFinite, Number.Floating.text]
      rw [htext]
      exact ⟨_, lexemeOnly_single (written_magnitude .single m e)⟩
    | nan | infinite _ =>
      show ∃ raw, LexemeOnly (String.ofList (Number.Floating.chars .single _)).toList _
      rw [String.toList_ofList]
      exact lexemeOnly_notFinite .single rfl

end Token

namespace Lexer

open Token (Delimited LexemeOnly)

/-! ## Texts of tokens -/

/-- If the text consists of tokens, these are of the given kinds. -/
def LexesOnly (afterOperand : Bool) (cs : List Char) (kinds : List Token.Kind) : Prop :=
  ∀ kinds', Lexes afterOperand cs kinds' → kinds' = kinds

theorem tokenByToken_lexesOnly : TokenByToken LexesOnly where
  blank h kinds' hlexes := by
    refine h kinds' ?_
    cases hlexes with
    | done hdone => exact .done hdone
    | token hfront hs hrest more => exact .token hfront hs hrest more
  token hfront hscan _ more kinds' hlexes := by
    cases hlexes with
    | done hdone => simp [hdone] at hfront
    | token hfront' hscan' _ more' =>
      rw [hfront] at hfront'
      cases hfront'
      rw [hscan] at hscan'
      cases hscan'
      rw [more _ more']

variable {afterOperand : Bool} {c : Char} {cs text : List Char} {kind : Token.Kind}
  {kinds : List Token.Kind}

/-- Where no token is found, the text does not consist of tokens. -/
theorem LexesOnly.of_fault (hblank : Text.isBlank c = false)
    (h : ∀ found, (Token.scan afterOperand c cs).outcome ≠ .ok found) :
    LexesOnly afterOperand (c :: cs) kinds := by
  have hfront : (c :: cs).dropWhile Text.isBlank = c :: cs := by simp [hblank]
  intro kinds' hlexes
  cases hlexes with
  | done hdone => simp [hdone] at hfront
  | token hfront' hscan =>
    rw [hfront] at hfront'
    cases hfront'
    exact absurd (congrArg Token.Scan.outcome hscan) (h _)

theorem lexedBy_only (h : LexemeOnly text kind) : LexedBy LexesOnly text [kind] := by
  obtain ⟨c, cs, rfl, hblank, hscan⟩ := h
  intro rest more hrest hmore
  cases hfound : (Token.scan false c (cs ++ rest)).outcome with
  | error flaw => exact .of_fault hblank (by simp [hfound])
  | ok found =>
    have hfront : (c :: cs ++ rest).dropWhile Text.isBlank = c :: (cs ++ rest) := by simp [hblank]
    exact tokenByToken_lexesOnly.token hfront (hscan rest hrest found hfound) (by simp) (hmore _)

/-- The tokens of a text are of the only kinds that there are. -/
theorem kinds_eq_of_lexedBy {text : String} {ts : List Token}
    (h : LexedBy LexesOnly text.toList kinds) (hts : tokenize text = .ok ts) :
    ts.map Token.kind = kinds := by
  have hnil : ∀ afterOperand, LexesOnly afterOperand [] [] := by
    rintro afterOperand kinds' (_ | hfront)
    · rfl
    · cases hfront
  have honly := h [] [] Token.delimited_nil hnil
  rw [List.append_nil, List.append_nil] at honly
  exact honly _ (lexed_of_tokenize hts).lexes

end Lexer

/-! ## Names -/

/-- No name begins with a blank. -/
theorem Text.isBlank_of_isNameStart {c : Char} (h : isNameStart c = true) : isBlank c = false := by
  cases hblank : isBlank c with
  | false => rfl
  | true =>
    rw [of_isBlank (isNameStart · = false) hblank (by decide +kernel)] at h
    cases h

namespace Token

theorem NameText.of_startsWord {word : String} (hstart : startsWord word.toList = true)
    (hsplits : (splitName word.toList).1 = word.toList) : NameText word := by
  refine ⟨?_, hsplits⟩
  cases hword : word.toList with
  | nil =>
    rw [hword] at hstart
    cases hstart
  | cons c cs =>
    rw [hword] at hstart
    exact ⟨c, cs, rfl, Text.isBlank_of_isNameStart hstart, hstart⟩

/-- The name of a token is all of a name, and no constant. -/
theorem nameText_of_scan {afterOperand : Bool} {c : Char} {cs : List Char} {word : String}
    (h : (scan afterOperand c cs).outcome = .ok (.name word)) :
    NameText word ∧ constant? word = none := by
  obtain ⟨hstart, hword, hconstant⟩ := name_of_scan h
  refine ⟨.of_startsWord ?_ ?_, hconstant⟩
  · rw [hword, splitName, if_pos (by simp [Text.isNameChar_of_isNameStart hstart])]
    exact hstart
  · rw [hword, splitName_splitName]

/-- What stands behind a joint of a name is a name. -/
theorem NameText.of_joint {word : String} {front behind : List Char} {c : Char}
    (h : NameText word) (hword : word.toList = front ++ c :: behind) (hc : isJoint c = true) :
    NameText (String.ofList behind) := by
  have hname := isNameChar_of_isJoint hc
  have hsplits := h.splits
  rw [hword] at hsplits
  clear hword h
  induction front with
  | nil =>
    simp only [List.nil_append, splitName] at hsplits
    split at hsplits
    next hjoint =>
      rw [hname, Bool.false_or, Bool.and_eq_true] at hjoint
      apply NameText.of_startsWord <;> rw [String.toList_ofList]
      · exact hjoint.2
      · exact (List.cons.inj hsplits).2
    next => cases hsplits
  | cons d front ih =>
    simp only [List.cons_append, splitName] at hsplits
    split at hsplits
    · exact ih (List.cons.inj hsplits).2
    · cases hsplits

end Token

/-! ## A minus in front of a name -/

/-- A minus in front of a name is no part of it, unless the name begins with the word for infinity
    and a joint. -/
theorem Token.NameText.unsigned_or_infinity {word : String} (h : NameText word)
    (hconstant : constant? word = none) : Unsigned word.toList ∨
      ∃ c behind, word.toList = infinityWord ++ c :: behind ∧ isJoint c = true := by
  by_cases hinfinity : ∃ c, isJoint c = true ∧ infinityWord ++ [c] <+: word.toList
  · obtain ⟨c, hc, behind, hword⟩ := hinfinity
    rw [List.append_assoc, List.singleton_append] at hword
    exact .inr ⟨c, behind, hword.symm, hc⟩
  · exact .inl (h.unsigned hconstant fun c hc hword => hinfinity ⟨c, hc, hword⟩)

/-- A minus in front of the word for infinity and a joint is read as infinity, which a slash may
    follow but no point. -/
theorem Lexer.lexedBy_infinity {word : String} {c : Char} {behind : List Char}
    (h : Token.NameText word) (hword : word.toList = Token.infinityWord ++ c :: behind)
    (hc : Token.isJoint c = true) :
    LexedBy LexesOnly ("-" ++ word).toList [.literal ⟨"-INF", .double⟩, .mark .slash,
      Token.kindOfName (String.ofList behind)] := by
  intro rest more hrest hmore
  have htext : ("-" ++ word).toList ++ rest =
      '-' :: (Token.infinityWord ++ c :: (behind ++ rest)) := by simp [hword]
  have hbehind := h.of_joint hword hc
  have hname := Token.lexeme_word hbehind false
  rw [String.toList_ofList] at hname
  rw [Token.isJoint, Bool.or_eq_true, beq_iff_eq, beq_iff_eq] at hc
  rw [htext]
  rcases hc with rfl | rfl
  · have hslash : LexesOnly true ('/' :: (behind ++ rest)) _ :=
      tokenByToken_lexesOnly.mark (m := .slash) (by decide)
        (tokenByToken_lexesOnly.lexeme (hmore _) hname hrest)
    exact tokenByToken_lexesOnly.token rfl rfl (by simp) hslash
  · have hpoint : LexesOnly true ('.' :: (behind ++ rest))
        (.mark .slash :: Token.kindOfName (String.ofList behind) :: more) :=
      .of_fault rfl (by rintro found ⟨⟩)
    exact tokenByToken_lexesOnly.token rfl rfl (by simp) hpoint

/-! ## What is read of a text -/

/-- A member is a name and no operator, a string has plain characters only, and a call has a
    canonical name. -/
def Expr.Legible : Expr → Prop
  | member m => ∃ word, m = .ofText word ∧ Token.NameText word ∧ Token.constant? word = none ∧
      Operator.ofKeyword? word = none
  | literal l => (literal l).PlainString
  | call name _ => name ∈ MethodTable.canonicalNames
  | binary _ _ _ | unary _ _ | collection _ => True

/-- A literal is plain, and a name is a name of queries. -/
def Token.Kind.Legible : Kind → Prop
  | literal raw => PlainBody raw
  | name word => NameText word ∧ constant? word = none
  | mark _ => True

theorem Lexer.legible_of_tokenize {text : String} {ts : List Token} (h : tokenize text = .ok ts) :
    ∀ t ∈ ts, t.kind.Legible := by
  refine forall_of_cuts ?_ (cuts_of_tokenize h)
  intro afterOperand c cs kind hscan
  cases kind with
  | literal raw => exact Token.plainBody_of_scan hscan
  | name word => exact Token.nameText_of_scan hscan
  | mark m => trivial

/-- The standard resolvers make legible expressions of legible tokens. -/
theorem Parser.grantsFrom_standard :
    standard.resolvers.GrantsFrom Token.Kind.Legible Expr.Legible where
  member := by
    rintro word m ⟨hname, hconstant⟩ hw hm
    exact ⟨word, (Except.ok.inj hm).symm, hname, hconstant, hw⟩
  method := by
    intro name args c hc
    rw [standard_methods, Registry.resolver_resolve] at hc
    obtain ⟨t, ht, hresolve⟩ := Registry.resolve_eq_ok Registry.standard_strategies hc
    obtain ⟨entry, hentry, hconstruct⟩ := MethodTable.resolve_eq_ok hresolve
    obtain ⟨hname, -, hperm⟩ := MethodSpec.construct_eq_ok hconstruct
    refine ⟨?_, fun arg harg => hperm.mem_iff.1 harg⟩
    rw [hname]
    exact List.mem_flatMap.2 ⟨t, ht, List.mem_map.2 ⟨entry, hentry, rfl⟩⟩
  literal := Literal.Raw.plainString_of_value
  binary _ _ _ := trivial
  unary _ _ := trivial
  collection _ := trivial

end QueryExpr
