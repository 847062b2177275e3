import QueryExpr.Expr.Text
import QueryExpr.Proofs.Shortening
import QueryExpr.Proofs.Spacing

/-!
# Signs

A minus in front of digits or of the word for infinity is the sign of a number, unless the token in
front of it ends a value. No other character makes a number negative, and a minus in front of
anything else is a token of its own.

* `Token.Kind.EndsValue`: behind such a token a minus is an operator.
* `Token.scan_isNegative`: a number is negative exactly if its token begins with a minus.
* `Lexer.Cuts.behind`: behind some of its tokens, a text consists of the others.
* `Lexer.SignsTold`, `Lexer.signsTold_of_tokenize`: signs and operators are told apart by the token
  in front of them.
* `Lexer.tokenize_minus_iff`: a minus in front of a text changes nothing else, unless a number
  begins there.
* `Lexer.tokenize_minus_name`: a minus in front of a name is a token of its own, unless the name is
  a path that begins with the word for infinity.
-/

namespace QueryExpr

open Text.Utf8 (size)

namespace Token

/-! ## What ends a value -/

/-- A literal, a closing parenthesis, or a word that is neither the keyword of an operator nor a
    word of orderings and selections. -/
inductive Kind.EndsValue : Kind → Prop where
  | literal (raw : Literal.Raw) : EndsValue (.literal raw)
  | parenClose : EndsValue (.mark .parenClose)
  | name {word : String} (hop : ∀ op, op ≠ Operator.neg → word ≠ op.keyword)
      (hword : word ∉ ["asc", "desc", "as"]) : EndsValue (.name word)

theorem Kind.endsOperand_iff (k : Kind) : k.endsOperand = true ↔ k.EndsValue := by
  cases k with
  | literal raw => exact ⟨fun _ => .literal raw, fun _ => rfl⟩
  | mark m =>
    constructor
    · intro h
      obtain rfl : m = .parenClose := by simpa [endsOperand] using h
      exact .parenClose
    · rintro ⟨⟩
      rfl
  | name word =>
    have hkeyword : (Operator.ofKeyword? word).isNone = true ↔
        ∀ op, op ≠ Operator.neg → word ≠ op.keyword := by
      rw [Option.isNone_iff_eq_none]
      constructor
      · rintro hnone op hop rfl
        rw [Operator.ofKeyword?_keyword hop] at hnone
        cases hnone
      · intro hne
        cases hop : Operator.ofKeyword? word with
        | none => rfl
        | some op =>
          refine absurd (Operator.keyword_of_ofKeyword? hop).symm (hne op ?_)
          rintro rfl
          unfold Operator.ofKeyword? at hop
          split at hop <;> cases hop
    have hwords : (!(word == "asc" || word == "desc" || word == "as")) = true ↔
        word ∉ ["asc", "desc", "as"] := by simp [and_assoc]
    rw [endsOperand, Bool.and_eq_true, hkeyword, hwords]
    exact ⟨fun h => .name h.1 h.2, by rintro ⟨⟩; exact ⟨‹_›, ‹_›⟩⟩

/-! ## Numbers with a minus -/

theorem Scan.Gives.mono {s : Scan} {P Q : Kind → Prop} (h : s.Gives P) (hPQ : ∀ k, P k → Q k) :
    s.Gives Q :=
  fun kind hkind => hPQ kind (h kind hkind)

/-- A body in quotes is no number. -/
theorem TypeWord.isNumeric_of_kindOf {w : TypeWord} {body : List Char} {kind : Literal.Kind}
    (h : w.kindOf body = .ok kind) : kind.isNumeric = false := by
  unfold kindOf at h
  repeat' split at h
  all_goals cases h <;> rfl

theorem isNegative_of_not_isNumeric {raw : Literal.Raw} (h : raw.kind.isNumeric = false) :
    raw.isNegative = false := by
  rw [Literal.Raw.isNegative, h, Bool.false_and]

/-- A number is negative if its sign is a minus. -/
theorem isNegative_signed {sign digits : List Char} (hdigits : startsDigit digits = true)
    {kind : Literal.Kind} (hkind : kind.isNumeric = true) :
    (⟨String.ofList (signed sign digits), kind⟩ : Literal.Raw).isNegative = (sign == ['-']) := by
  rw [Literal.Raw.isNegative, hkind, Bool.true_and, String.toList_ofList, signed]
  split
  next hsign =>
    subst hsign
    rfl
  next hsign =>
    rw [beq_eq_false_iff_ne.2 hsign]
    cases digits with
    | nil => cases hdigits
    | cons c digits =>
      have hminus : c ≠ '-' := by
        rintro rfl
        change Text.isDigit '-' = true at hdigits
        exact absurd hdigits (by decide)
      simpa using hminus

/-- A number behind its sign, which tells whether it is negative. -/
inductive Kind.NumberWith (sign : List Char) : Kind → Prop where
  | literal {raw : Literal.Raw} (h : raw.isNegative = (sign == ['-'])) :
      NumberWith sign (.literal raw)

theorem gives_scanNumber (sign : List Char) {cs : List Char} (hcs : startsDigit cs = true) :
    (scanNumber sign cs).Gives (Kind.NumberWith sign) := by
  have hdigits := (Numeral.written_ofChars hcs).starts
  have hplain : (scanPlain sign (Numeral.ofChars cs)).Gives (Kind.NumberWith sign) := by
    unfold scanPlain
    dsimp only
    split
    · exact Scan.gives_bounded fun _ _ => ⟨isNegative_signed hdigits rfl⟩
    · split
      next hkind =>
        have hnumeric := isNumeric_of_integerKind? hkind
        exact Scan.gives_bounded fun _ _ => ⟨isNegative_signed hdigits hnumeric⟩
      next => exact Scan.gives_failed
  unfold scanNumber
  dsimp only
  split
  · split
    next hkind =>
      have hnumeric := isNumeric_of_kindOfLetter? hkind
      exact Scan.gives_bounded fun _ _ => ⟨isNegative_signed hdigits hnumeric⟩
    next => exact hplain
  · exact hplain

theorem scanNumber_isNegative (sign : List Char) {cs : List Char} (hcs : startsDigit cs = true) :
    (scanNumber sign cs).Gives (·.isNegative = (sign == ['-'])) :=
  (gives_scanNumber sign hcs).mono fun _ ⟨h⟩ => h

theorem scanTyped_isNegative (w : TypeWord) (word cs : List Char) :
    (scanTyped w word cs).Gives (·.isNegative = false) := by
  refine gives_scanQuoted (fun read rest body _ => ?_) cs
  unfold typedLiteral
  split
  next hkind =>
    have hnumeric := TypeWord.isNumeric_of_kindOf hkind
    exact Scan.gives_literal fun _ _ => isNegative_of_not_isNumeric hnumeric
  next => exact Scan.gives_failed

/-- No constant has a minus. -/
theorem isNegative_kindOfName (word : String) : (kindOfName word).isNegative = false := by
  unfold kindOfName
  split
  next hconstant =>
    unfold constant? at hconstant
    split at hconstant <;> cases hconstant <;> rfl
  next => rfl

theorem scanName_isNegative (cs : List Char) : (scanName cs).Gives (·.isNegative = false) := by
  unfold scanName
  dsimp only
  split
  · split
    · exact scanTyped_isNegative _ _ _
    · exact Scan.gives_found (isNegative_kindOfName _)
  · exact Scan.gives_found (isNegative_kindOfName _)

theorem beq_minus_of_ofChar? {c : Char} {m : Mark} (h : Mark.ofChar? c = some m) :
    (m == .minus) = (c == '-') := by
  unfold Mark.ofChar? at h
  split at h <;> cases h
  all_goals rfl

/-- A token is a minus, or a number with one, exactly if it begins with a minus. -/
theorem scan_isNegative (afterOperand : Bool) (c : Char) (cs : List Char) :
    (scan afterOperand c cs).Gives (·.isNegative = (c == '-')) := by
  unfold scan
  split
  next hc =>
    subst hc
    refine gives_scanQuoted (fun read rest body _ => ?_) cs
    exact Scan.gives_found rfl
  split
  next hc =>
    subst hc
    unfold scanMinus
    split
    next hdigit =>
      rw [Bool.and_eq_true] at hdigit
      exact scanNumber_isNegative ['-'] hdigit.2
    · split <;> exact Scan.gives_found rfl
  next hminus =>
    rw [beq_eq_false_iff_ne.2 hminus]
    split
    next hplus =>
      rw [Bool.and_eq_true] at hplus
      exact scanNumber_isNegative ['+'] hplus.2
    split
    next hdigit =>
      unfold scanUnsigned
      split
      · exact Scan.gives_bounded fun _ _ => isNegative_of_not_isNumeric rfl
      · exact scanNumber_isNegative [] hdigit
    split
    · exact scanName_isNegative _
    split
    next hmark =>
      refine Scan.gives_found ?_
      rw [← beq_eq_false_iff_ne.2 hminus]
      exact beq_minus_of_ofChar? hmark
    · exact Scan.gives_failed

theorem isNegative_of_found {afterOperand : Bool} {c : Char} {cs read rest : List Char}
    {kind : Kind} (h : scan afterOperand c cs = .found read rest kind) :
    kind.isNegative = (c == '-') := by
  refine scan_isNegative afterOperand c cs kind ?_
  rw [h]
  rfl

/-- A minus is no sign behind an operand. -/
theorem afterOperand_of_negative {afterOperand : Bool} {c : Char} {cs read rest : List Char}
    {raw : Literal.Raw} (h : scan afterOperand c cs = .found read rest (.literal raw))
    (hraw : raw.isNegative = true) : afterOperand = false := by
  have hminus := isNegative_of_found h
  rw [show Kind.isNegative (.literal raw) = true from hraw, eq_comm, beq_iff_eq] at hminus
  subst hminus
  cases afterOperand with
  | false => rfl
  | true => cases h

/-- A minus that is a token of its own is behind an operand, or no number begins behind it. -/
theorem scan_mark_minus {afterOperand : Bool} {c : Char} {cs read rest : List Char}
    (h : scan afterOperand c cs = .found read rest (.mark .minus)) :
    rest = cs ∧ (afterOperand = false → startsDigit cs = false ∧ startsInfinity cs = false) := by
  have hminus := isNegative_of_found h
  rw [show Kind.isNegative (.mark .minus) = true from rfl, eq_comm, beq_iff_eq] at hminus
  subst hminus
  change scanMinus afterOperand cs = _ at h
  unfold scanMinus at h
  split at h
  next hdigit =>
    rw [Bool.and_eq_true] at hdigit
    have hnumber := gives_scanNumber ['-'] hdigit.2
    rw [h] at hnumber
    cases hnumber _ rfl
  split at h
  next => cases h
  next hdigit hinfinity =>
    cases h
    refine ⟨rfl, ?_⟩
    rintro rfl
    simpa using And.intro hdigit hinfinity

/-- Where a number begins behind a minus, the minus is an operator only behind an operand. -/
theorem afterOperand_of_minus {afterOperand : Bool} {c : Char} {cs read rest : List Char}
    (h : scan afterOperand c cs = .found read rest (.mark .minus))
    (hcs : startsDigit cs = true ∨ startsInfinity cs = true) : afterOperand = true := by
  cases afterOperand with
  | true => rfl
  | false =>
    obtain ⟨hdigit, hinfinity⟩ := (scan_mark_minus h).2 rfl
    simp [hdigit, hinfinity] at hcs

end Token

/-! ## Tokens behind tokens -/

namespace Lexer

open Token (scan)

/-- Whether what stands behind the tokens stands behind an operand. -/
def behindOperand : Bool → List Token → Bool
  | afterOperand, [] => afterOperand
  | _, t :: ts => behindOperand t.kind.endsOperand ts

@[simp] theorem behindOperand_cons (afterOperand : Bool) (t : Token) (ts : List Token) :
    behindOperand afterOperand (t :: ts) = behindOperand t.kind.endsOperand ts := rfl

@[simp] theorem behindOperand_concat (afterOperand : Bool) (ts : List Token) (t : Token) :
    behindOperand afterOperand (ts ++ [t]) = t.kind.endsOperand := by
  induction ts generalizing afterOperand with
  | nil => rfl
  | cons s ts ih => exact ih _

theorem exists_endsOperand {ts : List Token} (h : behindOperand false ts = true) :
    ∃ t ∈ ts.getLast?, t.kind.endsOperand = true := by
  rcases List.eq_nil_or_concat ts with rfl | ⟨front, t, rfl⟩
  · cases h
  · rw [List.concat_eq_append] at h ⊢
    rw [behindOperand_concat] at h
    exact ⟨t, List.getLast?_concat, h⟩

/-- Behind some of its tokens, a text consists of the others. -/
theorem Cuts.behind {front back : List Token} {afterOperand : Bool} {before cs : List Char}
    (h : Cuts afterOperand before cs (front ++ back)) :
    ∃ passed rest, cs = passed ++ rest ∧
      Cuts (behindOperand afterOperand front) (before ++ passed) rest back := by
  induction front generalizing afterOperand before cs with
  | nil => exact ⟨[], cs, rfl, by rwa [List.append_nil]⟩
  | cons t front ih =>
    cases h with
    | @token _ _ gap c ds read _ kind _ hgap hc hscan more =>
      obtain ⟨passed, rest, rfl, hback⟩ := ih more
      refine ⟨gap ++ read ++ passed, rest, ?_, ?_⟩
      · rw [← (append_eq_of_found hscan).1]
        simp
      · simpa using hback

/-- How a token is found: the scan at its first character, in the state that the tokens in front of
    it leave. -/
theorem Cuts.scan_at {front back : List Token} {t : Token} {text : String}
    (h : Cuts false [] text.toList (front ++ t :: back)) :
    ∃ before c cs read rest, text.toList = before ++ c :: cs ∧
      scan (behindOperand false front) c cs = .found read rest t.kind ∧
      t.span = ⟨size before, size (before ++ read)⟩ := by
  obtain ⟨passed, cs, htext, hback⟩ := h.behind
  cases hback with
  | @token _ _ gap c ds read rest kind _ hgap hc hscan more =>
    refine ⟨passed ++ gap, c, ds, read, rest, ?_, hscan, rfl⟩
    rw [htext, List.append_assoc]

/-! ## Signs and operators -/

section

variable {text : String} {front back : List Token} {t u m : Token}

/-- A token is a minus, or a number with one, exactly if it begins with a minus. -/
theorem Cuts.isNegative_iff (h : Cuts false [] text.toList (front ++ t :: back)) :
    t.kind.isNegative = true ↔ (t.span.slice text).toList.head? = some '-' := by
  obtain ⟨before, c, cs, read, rest, htext, hscan, hspan⟩ := h.scan_at
  obtain ⟨body, rfl, -⟩ := Token.scan_shortens _ hscan
  rw [hspan, slice_of_scan htext hscan, Token.isNegative_of_found hscan]
  simp

/-- A number with a minus is behind no token that ends a value. -/
theorem Cuts.not_endsValue (h : Cuts false [] text.toList (front ++ t :: u :: back))
    {raw : Literal.Raw} (hraw : u.kind = .literal raw) (hnegative : raw.isNegative = true) :
    ¬t.kind.EndsValue := by
  intro hvalue
  rw [List.append_cons] at h
  obtain ⟨before, c, cs, read, rest, -, hscan, -⟩ := h.scan_at
  rw [behindOperand_concat, hraw] at hscan
  have hoperand := Token.afterOperand_of_negative hscan hnegative
  rw [t.kind.endsOperand_iff.2 hvalue] at hoperand
  cases hoperand

/-- What begins where a token stops is what its scan leaves. -/
theorem eq_of_touches {afterOperand : Bool} {before cs read rest before' cs' : List Char}
    {c : Char} {kind : Token.Kind} (htext : text.toList = before ++ c :: cs)
    (hscan : scan afterOperand c cs = .found read rest kind) (htext' : text.toList = before' ++ cs')
    (htouch : size (before ++ read) = size before') : rest = cs' := by
  have hdrop := Text.Utf8.drop?_size_append (before ++ read) rest
  rw [List.append_assoc, (append_eq_of_found hscan).1, ← htext, htouch, htext',
    Text.Utf8.drop?_size_append] at hdrop
  exact (Option.some.inj hdrop).symm

/-- A minus that touches digits or the word for infinity is behind a token that ends a value. -/
theorem Cuts.exists_endsValue (h : Cuts false [] text.toList (front ++ m :: u :: back))
    (hm : m.kind = .mark .minus) (htouch : m.span.stop = u.span.start)
    (hnumber : Token.startsDigit (u.span.slice text).toList = true ∨ u.span.slice text = "INF") :
    ∃ t ∈ front.getLast?, t.kind.EndsValue := by
  obtain ⟨before, c, cs, read, rest, htext, hscan, hspan⟩ := h.scan_at
  rw [List.append_cons] at h
  obtain ⟨before', c', cs', read', rest', htext', hscan', hspan'⟩ := h.scan_at
  rw [hspan', slice_of_scan htext' hscan', String.toList_ofList] at hnumber
  rw [hspan, hspan'] at htouch
  rw [hm] at hscan
  -- what is behind the minus begins with the characters of the other token
  have hcs : cs = read' ++ rest' := by
    rw [← (Token.scan_mark_minus hscan).1, (append_eq_of_found hscan').1]
    exact eq_of_touches htext hscan htext' htouch
  have hoperand : behindOperand false front = true := by
    refine Token.afterOperand_of_minus hscan ?_
    rw [hcs]
    refine hnumber.imp (Token.startsDigit_append · rest') fun hinfinity => ?_
    obtain rfl : read' = Token.infinityWord := by
      rw [← String.toList_ofList (l := read'), hinfinity]
      rfl
    exact Token.startsInfinity_of_apart (Token.scan_apart _ _ _ _ _ _ hscan') rfl
  obtain ⟨t, ht, hvalue⟩ := exists_endsOperand hoperand
  exact ⟨t, ht, t.kind.endsOperand_iff.1 hvalue⟩

end

/-- How signs are told from operators by the tokens in front of them. -/
structure SignsTold (text : String) (ts : List Token) : Prop where
  /-- A token is a minus, or a number with one, exactly if it begins with a minus. -/
  written : ∀ t ∈ ts, (t.kind.isNegative = true ↔ (t.span.slice text).toList.head? = some '-')
  /-- A number with a minus is behind no token that ends a value. -/
  folded : ∀ front t u back raw, ts = front ++ t :: u :: back → u.kind = .literal raw →
    raw.isNegative = true → ¬t.kind.EndsValue
  /-- A minus that touches digits or the word for infinity is behind a token that ends a value. -/
  operator : ∀ front m u back, ts = front ++ m :: u :: back → m.kind = .mark .minus →
    m.span.stop = u.span.start →
    Token.startsDigit (u.span.slice text).toList = true ∨ u.span.slice text = "INF" →
    ∃ t ∈ front.getLast?, t.kind.EndsValue

/-- In every text that has tokens, signs and operators are told apart by the tokens in front of
    them. -/
theorem signsTold_of_tokenize {text : String} {ts : List Token} (h : tokenize text = .ok ts) :
    SignsTold text ts := by
  have hcuts := cuts_of_tokenize h
  constructor
  · intro t ht
    obtain ⟨front, back, rfl⟩ := List.append_of_mem ht
    exact hcuts.isNegative_iff
  · rintro front t u back raw rfl hraw hnegative
    exact hcuts.not_endsValue hraw hnegative
  · rintro front m u back rfl hm htouch hnumber
    exact hcuts.exists_endsValue hm htouch hnumber

/-- Behind a parenthesis and behind a literal a minus is an operator, though a number touches it. -/
theorem signsTold_of_tokenize_infinity :
    let text := "(a)-3 lt -INF and 5-INF"
    let ts : List Token := [⟨.mark .parenOpen, ⟨0, 1⟩⟩, ⟨.name "a", ⟨1, 2⟩⟩,
      ⟨.mark .parenClose, ⟨2, 3⟩⟩, ⟨.mark .minus, ⟨3, 4⟩⟩, ⟨.literal ⟨"3", .int⟩, ⟨4, 5⟩⟩,
      ⟨.name "lt", ⟨6, 8⟩⟩, ⟨.literal ⟨"-INF", .double⟩, ⟨9, 13⟩⟩, ⟨.name "and", ⟨14, 17⟩⟩,
      ⟨.literal ⟨"5", .int⟩, ⟨18, 19⟩⟩, ⟨.mark .minus, ⟨19, 20⟩⟩,
      ⟨.literal ⟨"INF", .double⟩, ⟨20, 23⟩⟩]
    tokenize text = .ok ts ∧ SignsTold text ts :=
  have h : tokenize "(a)-3 lt -INF and 5-INF" = .ok _ := rfl
  ⟨h, signsTold_of_tokenize h⟩

end Lexer

/-! ## A minus in front of a name -/

/-- The token, with `count` bytes more in front of it. -/
def Token.shift (t : Token) (count : Nat) : Token :=
  ⟨t.kind, ⟨t.span.start + count, t.span.stop + count⟩⟩

namespace Token

/-- Whether a text begins with the word for infinity as the first word of a path. -/
def startsInfinityPath (cs : List Char) : Bool :=
  infinityWord.isPrefixOf cs && (cs.drop 3).head?.any isJoint

/-- A name that is no constant begins with the word for infinity only if a joint is behind it. -/
theorem startsInfinity_of_name {cs : List Char} {word : String}
    (hword : word.toList = (splitName cs).1) (hconstant : constant? word = none) :
    startsInfinity cs = startsInfinityPath cs := by
  unfold startsInfinity startsInfinityPath
  cases hinfinity : infinityWord.isPrefixOf cs with
  | false => rfl
  | true =>
    obtain ⟨tail, rfl⟩ := List.isPrefixOf_iff_prefix.1 hinfinity
    have hsplit : (splitName (infinityWord ++ tail)).1 = infinityWord ++ (splitName tail).1 := rfl
    have hne : (splitName tail).1 ≠ [] := by
      intro hnil
      rw [hsplit, hnil, List.append_nil] at hword
      obtain rfl : word = "INF" := String.toList_inj.1 hword
      cases hconstant
    cases tail with
    | nil => exact absurd rfl hne
    | cons c tail =>
      show (!Text.isNameChar c) = isJoint c
      cases hjoint : isJoint c with
      | true => rw [isNameChar_of_isJoint hjoint, Bool.not_false]
      | false =>
        have hname : Text.isNameChar c = true := by
          by_contra hname
          exact hne (by simp [splitName, hname, hjoint])
        rw [hname, Bool.not_true]

/-- In front of what is no digit, a minus is the sign of the word for infinity or a token of its
    own. -/
theorem scan_minus_of_not_digit {cs : List Char} (h : startsDigit cs = false) :
    scan false '-' cs = if startsInfinity cs = true then
        .found ('-' :: infinityWord) (cs.drop 3) (.literal ⟨"-INF", .double⟩)
      else .found ['-'] cs (.mark .minus) := by
  change scanMinus false cs = _
  simp [scanMinus, h]

/-- No number begins with a blank. -/
theorem not_starts_of_isBlank {c : Char} (h : Text.isBlank c = true) (cs : List Char) :
    startsDigit (c :: cs) = false ∧ startsInfinity (c :: cs) = false ∧
      startsInfinityPath (c :: cs) = false := by
  have hinfinity : infinityWord.isPrefixOf (c :: cs) = false := by
    have hc : c ≠ 'I' := by
      rintro rfl
      exact absurd h (by decide)
    simpa [infinityWord, List.isPrefixOf] using fun h => absurd h.symm hc
  refine ⟨?_, ?_, ?_⟩
  · exact Text.of_isBlank (Text.isDigit · = false) h (by decide +kernel)
  · rw [startsInfinity, hinfinity, Bool.false_and]
  · rw [startsInfinityPath, hinfinity, Bool.false_and]

end Token

namespace Lexer

open Token (scan)

/-- With other text in front, there are the same tokens, further back. -/
theorem Cuts.shift {afterOperand : Bool} {before cs : List Char} {ts : List Token}
    (h : Cuts afterOperand before cs ts) (front : List Char) :
    Cuts afterOperand (front ++ before) cs (ts.map (·.shift (size front))) := by
  induction h with
  | done hblank => exact .done hblank
  | @token _ before gap c cs read rest kind ts hgap hc hscan _ ih =>
    have hsize : ∀ passed, size (front ++ passed) = size passed + size front := by
      intro passed
      rw [Text.Utf8.size_append, Nat.add_comm]
    have hmore : Cuts kind.endsOperand (front ++ before ++ gap ++ read) rest
        (ts.map (·.shift (size front))) := by simpa using ih
    have htoken := Cuts.token hgap hc hscan hmore
    simpa only [List.append_assoc, hsize, List.map_cons, Token.shift] using htoken

/-- In front of a text, a minus is a token of its own and the tokens of the text are found as
    without it, exactly if no number begins there. -/
theorem tokenize_minus_iff {p : String} {ts : List Token} (h : tokenize p = .ok ts) :
    tokenize ("-" ++ p) = .ok (⟨.mark .minus, ⟨0, 1⟩⟩ :: ts.map (·.shift 1)) ↔
      Token.startsDigit p.toList = false ∧ Token.startsInfinity p.toList = false := by
  have htext : ("-" ++ p).toList = [] ++ '-' :: p.toList := by simp
  constructor
  · intro htokens
    have hminus : Cuts false [] ("-" ++ p).toList
        ([] ++ ⟨.mark .minus, ⟨0, 1⟩⟩ :: ts.map (·.shift 1)) := cuts_of_tokenize htokens
    obtain ⟨before, c, cs, read, rest, hbefore, hscan, hspan⟩ := hminus.scan_at
    have hnil : before = [] := by
      by_contra hne
      exact absurd (congrArg Span.start hspan) (Nat.ne_of_lt (size_pos hne))
    rw [hnil, htext] at hbefore
    obtain ⟨rfl, rfl⟩ := List.cons.inj hbefore
    exact (Token.scan_mark_minus hscan).2 rfl
  · rintro ⟨hdigit, hinfinity⟩
    have hscan := Token.scan_minus_of_not_digit hdigit
    rw [hinfinity, if_neg Bool.false_ne_true] at hscan
    refine tokenize_of_cuts ?_
    rw [htext]
    exact .token blank_nil rfl hscan ((cuts_of_tokenize h).shift ['-'])

/-- In front of the word for infinity, a minus is its sign. -/
theorem next_minus_infinity {p : String} (hdigit : Token.startsDigit p.toList = false)
    (hinfinity : Token.startsInfinity p.toList = true) :
    (ofText ("-" ++ p)).next.1 = .ok (some ⟨.literal ⟨"-INF", .double⟩, ⟨0, 4⟩⟩) := by
  have htext : ("-" ++ p).toList = [] ++ '-' :: p.toList := by simp
  have hscan := Token.scan_minus_of_not_digit hdigit
  rw [if_pos hinfinity] at hscan
  have hplaced : (ofText ("-" ++ p)).cursor.Placed [] := Cursor.placed_ofText _
  obtain ⟨l', hnext, -⟩ := next_of_found hplaced blank_nil rfl htext hscan
  rw [hnext]
  rfl

/-- A text with a single name has no number at its front, unless the word for infinity is the first
    word of the name. -/
theorem starts_of_name {afterOperand : Bool} {before cs : List Char} {t : Token} {word : String}
    (h : Cuts afterOperand before cs [t]) (ht : t.kind = .name word) :
    Token.startsDigit cs = false ∧ Token.startsInfinity cs = Token.startsInfinityPath cs := by
  cases h with
  | @token _ _ gap c cs read rest kind _ hgap hc hscan _ =>
    obtain rfl : kind = .name word := ht
    obtain ⟨hstart, hword, hconstant⟩ :=
      Token.name_of_scan (congrArg Token.Scan.outcome hscan)
    cases gap with
    | nil =>
      have hdigit := Token.isDigit_of_isNameStart hstart
      exact ⟨hdigit, Token.startsInfinity_of_name hword hconstant⟩
    | cons b gap =>
      obtain ⟨hdigit, hinfinity, hpath⟩ := Token.not_starts_of_isBlank
        (hgap b List.mem_cons_self) (gap ++ c :: cs)
      exact ⟨hdigit, hinfinity.trans hpath.symm⟩

/-- In front of a name, a minus is a token of its own and the name is found as without it, unless
    the name is a path whose first word is that for infinity. Then the minus is the sign of that
    word, and the path is torn. A minus in front of a member is written like this. -/
theorem tokenize_minus_name {p : String} {t : Token} {word : String} (h : tokenize p = .ok [t])
    (ht : t.kind = .name word) :
    (tokenize ("-" ++ p) = .ok [⟨.mark .minus, ⟨0, 1⟩⟩, t.shift 1] ↔
      Token.startsInfinityPath p.toList = false) ∧
    (Token.startsInfinityPath p.toList = true → (ofText ("-" ++ p)).next.1 =
      .ok (some ⟨.literal ⟨"-INF", .double⟩, ⟨0, 4⟩⟩)) ∧
    ∀ m : Member, m.text = p → (Expr.unary .neg (.member m)).text = "-" ++ p := by
  obtain ⟨hdigit, hinfinity⟩ := starts_of_name (cuts_of_tokenize h) ht
  rw [← hinfinity]
  refine ⟨?_, next_minus_infinity hdigit, fun m hm => ?_⟩
  · have hiff := tokenize_minus_iff h
    rwa [and_iff_right hdigit] at hiff
  · rw [← hm]
    rfl

/-- The word for infinity is only the beginning of the first word. -/
theorem tokenize_minus_name_longer :
    tokenize "INFO/x" = .ok [⟨.name "INFO/x", ⟨0, 6⟩⟩] ∧
      tokenize "-INFO/x" = .ok [⟨.mark .minus, ⟨0, 1⟩⟩, ⟨.name "INFO/x", ⟨1, 7⟩⟩] :=
  have h : tokenize "INFO/x" = .ok [⟨.name "INFO/x", ⟨0, 6⟩⟩] := rfl
  ⟨h, (tokenize_minus_name h rfl).1.2 rfl⟩

/-- The word for infinity is the first word, and the minus tears the path. -/
theorem tokenize_minus_infinity :
    let t : Token := ⟨.name "INF/x", ⟨0, 5⟩⟩
    tokenize "INF/x" = .ok [t] ∧
      tokenize "-INF/x" ≠ .ok [⟨.mark .minus, ⟨0, 1⟩⟩, t.shift 1] ∧
      tokenize "-INF/x" = .ok [⟨.literal ⟨"-INF", .double⟩, ⟨0, 4⟩⟩, ⟨.mark .slash, ⟨4, 5⟩⟩,
        ⟨.name "x", ⟨5, 6⟩⟩] := by
  have htorn : tokenize "-INF/x" = .ok [⟨.literal ⟨"-INF", .double⟩, ⟨0, 4⟩⟩,
      ⟨.mark .slash, ⟨4, 5⟩⟩, ⟨.name "x", ⟨5, 6⟩⟩] := rfl
  refine ⟨rfl, ?_, htorn⟩
  rw [htorn]
  rintro ⟨⟩

end Lexer

end QueryExpr
