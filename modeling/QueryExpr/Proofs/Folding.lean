import QueryExpr.Proofs.Bracketing
import QueryExpr.Proofs.Legibility

/-!
# Minus signs in front of operands

A minus in front of a number or of the word for infinity is not an operator but its sign. So what is
written for an expression with parentheses consists of the tokens of its parts exactly if no minus
stands directly in front of an operand that begins so.

* `Literal.unsigned_or_folded`: a minus in front of a literal is a token of its own, or all is one
  literal.
* `Bracketed.Unfolded`: each minus is a token of its own.
* `Bracketed.Unfolded.lexed`: what is written consists of the tokens of its parts.
* `Bracketed.Proper.told`: it does, or is of tokens that are no such expression.
* `Bracketed.Proper.suffices_of_readsAs`, `Bracketed.Proper.readsAs_of_suffices`: when what is
  written is read as the expression.
-/

namespace QueryExpr

/-! ## Literals -/

namespace Token

open Text (isDigit)

theorem unsigned_cons {c : Char} {cs : List Char} (hdigit : isDigit c = false) (hI : c ≠ 'I') :
    Unsigned (c :: cs) := by
  intro rest _
  refine ⟨hdigit, ?_⟩
  simp [startsInfinity, infinityWord, List.isPrefixOf, Ne.symm hI]

/-- A number without its sign. -/
inductive NumberText : List Char → Prop where
  | plain {digits fractional} (hw : Numeral.Written digits fractional) : NumberText digits
  | lettered {digits fractional letter kind} (hw : Numeral.Written digits fractional)
      (hletter : kindOfLetter? fractional letter = some kind)
      (hends : endsNumeral letter = true) : NumberText (digits ++ [letter])

theorem lexemeOnly_of_bounded {text cs : List Char} {c : Char} {raw : Literal.Raw}
    (htext : text = c :: cs) (hblank : Text.isBlank c = false)
    (h : ∀ rest, Delimited rest → scan false c (cs ++ rest) = .bounded text rest raw) :
    LexemeOnly text (.literal raw) := by
  refine ⟨c, cs, htext, hblank, fun rest hrest found hfound => ?_⟩
  rw [h rest hrest] at hfound ⊢
  exact Scan.bounded_only (.of_delimited hrest) hfound

/-- Behind a sign it is one literal, if it is read at all. -/
theorem NumberText.behindSign {text sign : List Char} (h : NumberText text)
    (hsign : sign ∈ signs) : ∃ raw, LexemeOnly (sign ++ text) (.literal raw) := by
  cases h with
  | @plain _ fractional hw =>
    obtain ⟨c, cs, hcs, hblank, hnumber⟩ := scan_number hsign hw
    have hscan : ∀ rest, Delimited rest →
        scan false c (cs ++ rest) = scanPlain sign ⟨text, fractional, rest⟩ := fun rest hrest => by
      rw [hnumber rest (.of_delimited hrest), scanNumber_plain hw hrest]
    cases fractional with
    | true =>
      exact ⟨⟨String.ofList (signed sign text), .double⟩, lexemeOnly_of_bounded hcs hblank hscan⟩
    | false =>
      cases hkind : integerKind? (signed sign text) with
      | none =>
        refine ⟨default, c, cs, hcs, hblank, fun rest hrest found hfound => ?_⟩
        simp only [hscan rest hrest, scanPlain, hkind] at hfound
        cases hfound
      | some kind =>
        refine ⟨⟨String.ofList (signed sign text), kind⟩, lexemeOnly_of_bounded hcs hblank ?_⟩
        intro rest hrest
        simp only [hscan rest hrest, scanPlain, hkind]
        rfl
  | @lettered digits _ letter kind hw hletter hends =>
    obtain ⟨c, cs, hcs, hblank, hnumber⟩ := scan_number hsign hw
    have hcs' : sign ++ (digits ++ [letter]) = c :: (cs ++ [letter]) := by
      rw [← List.append_assoc, hcs]
      rfl
    refine ⟨⟨String.ofList (signed sign digits), kind⟩, lexemeOnly_of_bounded hcs' hblank ?_⟩
    intro rest _
    have hend : NumeralEnd (letter :: rest) := by
      rintro _ ⟨⟩
      exact hends
    rw [List.append_assoc, List.singleton_append, hnumber _ hend,
      scanNumber_lettered hw hletter hends, List.append_assoc]

/-- A minus in front of a number without sign is its sign. -/
theorem NumberText.unsigned_or_folded {text : List Char} (h : NumberText text) (n : Int) :
    Unsigned (signOf n ++ text) ∨ ∃ raw, LexemeOnly ('-' :: (signOf n ++ text)) (.literal raw) := by
  unfold signOf
  split
  · exact .inl (unsigned_cons rfl (by decide))
  · have hminus : ['-'] ∈ signs := by decide
    exact .inr (h.behindSign hminus)

/-- What is not finite is a constant, unless it is infinity without a sign. -/
theorem unsigned_or_folded_notFinite (f : Number.Floating.Format) {v : Number.Floating}
    (h : v.isFinite = false) : Unsigned (Number.Floating.chars f v) ∨
      ∃ raw, LexemeOnly ('-' :: Number.Floating.chars f v) (.literal raw) := by
  cases v with
  | finite => cases h
  | nan => exact .inl (unsigned_cons rfl (by decide))
  | infinite negative =>
    cases negative with
    | true => exact .inl (unsigned_cons rfl (by decide))
    | false => exact .inr (lexemeOnly_notFinite f (v := .infinite true) rfl)

theorem unsigned_moment (m : Temporal.Moment) : Unsigned m.text.toList := by
  have hword : ∃ c cs, m.word.toList = c :: cs ∧ isDigit c = false ∧ c ≠ 'I' := by
    cases m with
    | date _ => exact ⟨'d', _, (rfl : "date".toList = _), rfl, by decide⟩
    | time _ => exact ⟨'t', _, (rfl : "time".toList = _), rfl, by decide⟩
    | civil _ _ | zoned _ => exact ⟨'d', _, (rfl : "datetime".toList = _), rfl, by decide⟩
  obtain ⟨c, cs, hcs, hdigit, hI⟩ := hword
  simp only [Temporal.Moment.text, String.toList_append, hcs]
  exact unsigned_cons hdigit hI

end Token

open Token (Unsigned LexemeOnly NumberText)

/-- A minus in front of a literal is a token of its own, or the minus and the literal are one
    literal. -/
theorem Literal.unsigned_or_folded (l : Literal) :
    Unsigned l.text.toList ∨ ∃ raw, LexemeOnly ('-' :: l.text.toList) (.literal raw) := by
  cases l with
  | null => exact .inl (Token.unsigned_cons rfl (by decide))
  | boolean b => cases b <;> exact .inl (Token.unsigned_cons rfl (by decide))
  | string s =>
    left
    simp only [Literal.text, Text.Quoted.enclose, String.toList_ofList]
    exact Token.unsigned_cons rfl (by decide)
  | int n =>
    rw [Literal.text, Number.Integer.text, String.toList_ofList, Token.chars_eq_signOf]
    exact (NumberText.plain (Token.Numeral.written_toChars _)).unsigned_or_folded _
  | long n =>
    rw [Literal.text, Number.Integer.text, String.toList_append, String.toList_ofList,
      Token.chars_eq_signOf, List.append_assoc]
    have hletter : Token.kindOfLetter? false 'L' = some .long := rfl
    exact (NumberText.lettered (Token.Numeral.written_toChars _) hletter
      (by decide)).unsigned_or_folded _
  | decimal d =>
    obtain ⟨fractional, hw⟩ := Token.Numeral.written_magnitudeChars d.units.natAbs d.scale
    have hchars : d.chars =
        Token.signOf d.units ++ Number.Decimal.magnitudeChars d.units.natAbs d.scale := by
      unfold Number.Decimal.chars Token.signOf
      split <;> rfl
    have hletter : Token.kindOfLetter? fractional 'm' = some .decimal := by
      cases fractional <;> rfl
    rw [Literal.text, Number.Decimal.text, String.toList_append, String.toList_ofList, hchars,
      List.append_assoc]
    exact (NumberText.lettered hw hletter (by decide)).unsigned_or_folded _
  | double v =>
    rw [Literal.text, Number.Floating.text, String.toList_ofList]
    cases v with
    | finite negative m e =>
      rw [Token.chars_finite]
      exact (NumberText.plain (Token.written_magnitude .double m e)).unsigned_or_folded _
    | nan | infinite _ => exact Token.unsigned_or_folded_notFinite .double rfl
  | single v =>
    cases v with
    | finite negative m e =>
      have hletter : Token.kindOfLetter? true 'f' = some .single := rfl
      have htext : (Literal.single (.finite negative m e)).text.toList =
          Token.signOf (if negative then -1 else 0) ++
            (Number.Floating.magnitudeChars .single m e ++ ['f']) := by
        rw [← List.append_assoc, ← Token.chars_finite]
        simp [Literal.text, Number.Floating.isFinite, Number.Floating.text]
      rw [htext]
      exact (NumberText.lettered (Token.written_magnitude .single m e) hletter
        (by decide)).unsigned_or_folded _
    | nan | infinite _ =>
      show Unsigned (String.ofList (Number.Floating.chars .single _)).toList ∨ ∃ raw,
        LexemeOnly ('-' :: (String.ofList (Number.Floating.chars .single _)).toList) (.literal raw)
      rw [String.toList_ofList]
      exact Token.unsigned_or_folded_notFinite .single rfl
  | binary _ | guid _ | duration _ =>
    left
    simp only [Literal.text, Literal.typed, String.toList_append]
    exact Token.unsigned_cons rfl (by decide)
  | dateTime m => exact .inl (Token.unsigned_moment m)

/-! ## Texts of tokens -/

namespace Lexer

/-- Blanks in front of a text add no tokens. -/
theorem LexesOnly.blanks {afterOperand : Bool} {gap rest : List Char} {kinds : List Token.Kind}
    (hgap : Blank gap) (h : LexesOnly afterOperand rest kinds) :
    LexesOnly afterOperand (gap ++ rest) kinds := by
  have hfront : (gap ++ rest).dropWhile Text.isBlank = rest.dropWhile Text.isBlank :=
    List.dropWhile_append_of_pos hgap
  intro kinds' hlexes
  refine h kinds' ?_
  cases hlexes with
  | done h => exact .done (hfront.symm.trans h)
  | token h hs hrest more => exact .token (hfront.symm.trans h) hs hrest more

/-- A text is of its tokens, and no others, in front of any delimiter. -/
theorem lexesOnly_of_cuts {afterOperand : Bool} {before cs : List Char} {ts : List Token}
    (h : Cuts afterOperand before cs ts) {tail : List Char} {kinds : List Token.Kind}
    (htail : Token.Delimited tail) (more : ∀ afterOperand, LexesOnly afterOperand tail kinds) :
    LexesOnly afterOperand (cs ++ tail) (ts.map Token.kind ++ kinds) := by
  induction h with
  | done hblank => exact (more _).blanks hblank
  | @token afterOperand before gap c cs read rest kind ts hgap hc hscan _ ih =>
    have hfront : (c :: (cs ++ tail)).dropWhile Text.isBlank = c :: (cs ++ tail) := by
      simp [hc]
    have hlength : (rest ++ tail).length ≤ (cs ++ tail).length := by
      obtain ⟨happend, hne⟩ := append_eq_of_found hscan
      have := congrArg List.length happend
      have := List.length_pos_iff.2 hne
      simp only [List.length_append, List.length_cons] at *
      omega
    rw [List.append_assoc]
    exact (tokenByToken_lexesOnly.token hfront
      (Token.scan_carries htail afterOperand c cs _ _ _ hscan) hlength ih).blanks hgap

theorem lexedBy_of_tokenize {text : String} {ts : List Token} (h : tokenize text = .ok ts) :
    LexedBy LexesOnly text.toList (ts.map Token.kind) :=
  fun _ _ htail more => lexesOnly_of_cuts (cuts_of_tokenize h) htail more

end Lexer

/-! ## Minus signs -/

open Lexer (LexedBy LexesOnly Lexed tokenByToken_lexes tokenByToken_lexesOnly kindsOf joinKinds)
open QueryExpr.Parser (groupKinds)

namespace Bracketed

/-- Each minus is a token of its own. -/
inductive Unfolded : Bracketed → Prop where
  | member (m : Member) : Unfolded (member m)
  | literal (l : Literal) : Unfolded (literal l)
  | call {name args} (hargs : ∀ b ∈ args, Unfolded b) : Unfolded (call name args)
  | unary {op b} (hsign : op = .neg → Unsigned b.text.toList) (h : Unfolded b) :
      Unfolded (unary op b)
  | binary {left op right} (hl : Unfolded left) (hr : Unfolded right) :
      Unfolded (binary left op right)
  | collection {items} (hitems : ∀ b ∈ items, Unfolded b) : Unfolded (collection items)
  | parens {b} (h : Unfolded b) : Unfolded (parens b)

section

variable {L : Bool → List Char → List Token.Kind → Prop} (hL : Lexer.TokenByToken L)

include hL

/-- Expressions with commas between them consist of their tokens, with commas between them. -/
theorem lexedBy_commaSeparated {bs : List Bracketed} {f : Bracketed → List Token.Kind}
    (h : ∀ b ∈ bs, LexedBy L b.text.toList (f b)) :
    LexedBy L (text.commaSeparated bs).toList (joinKinds (bs.map f)) := by
  induction bs with
  | nil => exact LexedBy.nil
  | cons b bs ih =>
    obtain ⟨hb, hbs⟩ := List.forall_mem_cons.1 h
    cases bs with
    | nil => simpa [text.commaSeparated, joinKinds] using hb
    | cons c bs =>
      rw [text.commaSeparated, List.map_cons, List.map_cons, Reading.joinKinds_cons_cons]
      exact LexedBy.comma hL hb (ih hbs)

theorem lexedBy_not {b : Bracketed} {ks : List Token.Kind} (h : LexedBy L b.text.toList ks) :
    LexedBy L (unary .not b).text.toList (unaryKind .not :: ks) := by
  have htext : (unary .not b).text = "not " ++ b.text := rfl
  rw [htext]
  exact LexedBy.not hL h

theorem lexedBy_neg {b : Bracketed} {ks : List Token.Kind} (hsign : Unsigned b.text.toList)
    (h : LexedBy L b.text.toList ks) :
    LexedBy L (unary .neg b).text.toList (unaryKind .neg :: ks) :=
  LexedBy.minus hL hsign h

end

/-- What is written consists of the tokens of its parts if each minus is a token of its own. -/
theorem Unfolded.lexed {b : Bracketed} (h : b.Unfolded) (hb : b.Proper) :
    Lexed b.text.toList b.kinds := by
  have hL := tokenByToken_lexes
  induction hb with
  | @member m hm =>
    obtain ⟨span, htokens⟩ := hm.lexes
    exact Lexer.lexed_of_tokenize htokens
  | @literal l hl =>
    obtain ⟨raw, span, _, htokens, -⟩ := hl
    exact Lexer.lexed_kindsOf htokens
  | @call name args _ hname _ _ _ ih =>
    cases h with
    | call hargs =>
      obtain ⟨htext, hconstant, -, -⟩ := MethodTable.nameText_canonical hname
      rw [kinds, kindsAll_eq_map]
      exact LexedBy.call hL (Token.lexeme_name htext hconstant false)
        (lexedBy_commaSeparated hL fun b hb => ih b hb (hargs b hb))
  | @unary op b hop _ ih =>
    cases h with
    | unary hsign h =>
      cases op with
      | not => exact lexedBy_not hL (ih h)
      | neg => exact lexedBy_neg hL (hsign rfl) (ih h)
      | _ => cases hop
  | binary hop _ _ _ ihl ihr =>
    cases h with
    | binary hl hr => exact LexedBy.operator hL hop (ihl hl) (ihr hr)
  | membership hv _ _ ihl ih =>
    cases h with
    | binary hl hr =>
      cases hr with
      | collection hitems =>
        rw [kinds, kinds, kindsAll_eq_map]
        exact LexedBy.operator hL (Operator.isUnary_of_takesValues hv) (ihl hl)
          (LexedBy.parens hL (lexedBy_commaSeparated hL fun b hb => ih b hb (hitems b hb)))
  | parens _ ih =>
    cases h with
    | parens h => exact LexedBy.parens hL (ih h)

end Bracketed

/-! ## Minus signs that are folded -/

namespace Reading

/-- Tokens of the kinds `ks` are accepted as no expression whose tokens are of the kinds `kinds`:
    there is a slash among them, or fewer of them are no parentheses. -/
def Falls (ks kinds : List Token.Kind) : Prop :=
  .mark .slash ∈ ks ∨ weight ks < weight kinds

/-- Tokens of the kinds `ks` are accepted as no such expression, or they are of the same kinds and
    `whole` holds. -/
def Stands (whole : Prop) (ks kinds : List Token.Kind) : Prop :=
  Falls ks kinds ∨ ks = kinds ∧ whole

namespace Stands

variable {whole whole' : Prop} {ks ks' kinds kinds' : List Token.Kind}

theorem mono (h : Stands whole ks kinds) (himp : whole → whole') : Stands whole' ks kinds :=
  h.imp_right fun ⟨heq, hwhole⟩ => ⟨heq, himp hwhole⟩

theorem refl (kinds : List Token.Kind) : Stands True kinds kinds := .inr ⟨rfl, trivial⟩

/-- There is a slash, or no more tokens are no parentheses. -/
theorem slash_or_le (h : Stands whole ks kinds) :
    .mark .slash ∈ ks ∨ weight ks ≤ weight kinds := by
  rcases h with (hslash | hweight) | ⟨rfl, -⟩
  · exact .inl hslash
  · exact .inr (Nat.le_of_lt hweight)
  · exact .inr (Nat.le_refl _)

theorem append (h : Stands whole ks kinds) (h' : Stands whole' ks' kinds') :
    Stands (whole ∧ whole') (ks ++ ks') (kinds ++ kinds') := by
  have hfalls : Falls ks kinds ∨ Falls ks' kinds' → Falls (ks ++ ks') (kinds ++ kinds') := by
    unfold Falls
    rw [List.mem_append, weight_append, weight_append]
    have := h.slash_or_le
    have := h'.slash_or_le
    grind
  rcases h with hlost | ⟨rfl, hwhole⟩
  · exact .inl (hfalls (.inl hlost))
  · rcases h' with hlost | ⟨rfl, hwhole'⟩
    · exact .inl (hfalls (.inr hlost))
    · exact .inr ⟨rfl, hwhole, hwhole'⟩

theorem cons (k : Token.Kind) (h : Stands whole ks kinds) : Stands whole (k :: ks) (k :: kinds) :=
  ((refl [k]).append h).mono And.right

theorem group (h : Stands whole ks kinds) : Stands whole (groupKinds ks) (groupKinds kinds) :=
  ((h.append (refl [.mark .parenClose])).mono And.left).cons _

/-- Lists fall if one of their items does. -/
theorem join {α : Type} {xs : List α} {p : α → Prop} {f g : α → List Token.Kind}
    (h : ∀ x ∈ xs, Stands (p x) (f x) (g x)) :
    Stands (∀ x ∈ xs, p x) (joinKinds (xs.map f)) (joinKinds (xs.map g)) := by
  induction xs with
  | nil => exact (refl _).mono fun _ => List.forall_mem_nil _
  | cons x xs ih =>
    obtain ⟨hx, hxs⟩ := List.forall_mem_cons.1 h
    cases xs with
    | nil =>
      simp only [List.map_cons, List.map_nil, joinKinds, List.flatMap_nil, List.append_nil]
      exact hx.mono fun hp => List.forall_mem_singleton.2 hp
    | cons y ys =>
      simp only [List.map_cons, joinKinds_cons_cons] at ih ⊢
      exact (hx.append ((ih hxs).cons _)).mono List.forall_mem_cons.2

end Stands

end Reading

open Reading (Falls Stands)

/-- A text is of the tokens of an expression, and `whole` holds, or it is of tokens that are
    accepted as no such expression. -/
def Told (text : String) (kinds : List Token.Kind) (whole : Prop) : Prop :=
  ∃ ks, LexedBy LexesOnly text.toList ks ∧ Stands whole ks kinds

namespace Told

variable {text text' : String} {kinds kinds' : List Token.Kind} {whole whole' : Prop}

theorem mono (h : Told text kinds whole) (himp : whole → whole') : Told text kinds whole' := by
  obtain ⟨ks, hlexed, hstands⟩ := h
  exact ⟨ks, hlexed, hstands.mono himp⟩

theorem operator {op : Operator} (hop : op.isUnary = false) (h : Told text kinds whole)
    (h' : Told text' kinds' whole') :
    Told (text ++ " " ++ op.keyword ++ " " ++ text') (kinds ++ .name op.keyword :: kinds')
      (whole ∧ whole') := by
  obtain ⟨ks, hlexed, hstands⟩ := h
  obtain ⟨ks', hlexed', hstands'⟩ := h'
  exact ⟨_, LexedBy.operator tokenByToken_lexesOnly hop hlexed hlexed',
    hstands.append (hstands'.cons _)⟩

theorem parens (h : Told text kinds whole) :
    Told ("(" ++ text ++ ")") (groupKinds kinds) whole := by
  obtain ⟨ks, hlexed, hstands⟩ := h
  exact ⟨_, LexedBy.parens tokenByToken_lexesOnly hlexed, hstands.group⟩

theorem call {name : String} (hname : name ∈ MethodTable.canonicalNames)
    (h : Told text kinds whole) :
    Told (name ++ "(" ++ text ++ ")") (.name name :: groupKinds kinds) whole := by
  obtain ⟨ks, hlexed, hstands⟩ := h
  obtain ⟨htext, hconstant, -, -⟩ := MethodTable.nameText_canonical hname
  exact ⟨_, LexedBy.call tokenByToken_lexesOnly (Token.lexeme_name htext hconstant false) hlexed,
    hstands.group.cons _⟩

theorem not (h : Told text kinds whole) : Told ("not " ++ text) (.name "not" :: kinds) whole := by
  obtain ⟨ks, hlexed, hstands⟩ := h
  exact ⟨_, LexedBy.not tokenByToken_lexesOnly hlexed, hstands.cons _⟩

theorem minus (hsign : Unsigned text.toList) (h : Told text kinds whole) :
    Told ("-" ++ text) (.mark .minus :: kinds) whole := by
  obtain ⟨ks, hlexed, hstands⟩ := h
  exact ⟨_, LexedBy.minus tokenByToken_lexesOnly hsign hlexed, hstands.cons _⟩

theorem commaSeparated {bs : List Bracketed} {p : Bracketed → Prop}
    (h : ∀ b ∈ bs, Told b.text b.kinds (p b)) :
    Told (Bracketed.text.commaSeparated bs) (joinKinds (Bracketed.kinds.kindsAll bs))
      (∀ b ∈ bs, p b) := by
  choose! f hlexed hstands using h
  rw [Bracketed.kindsAll_eq_map]
  exact ⟨_, Bracketed.lexedBy_commaSeparated tokenByToken_lexesOnly hlexed, .join hstands⟩

/-- What is accepted as an expression of these kinds is the whole text. -/
theorem whole_of_accepted {r : Resolvers} (h : Told text kinds whole) {ts : List Token}
    (hts : Lexer.tokenize text = .ok ts) {minPower level : Nat} {e : Expr}
    (haccepted : Reading.Accepted r minPower level (ts.map Token.kind) e)
    (hweight : Reading.weight (ts.map Token.kind) = Reading.weight kinds) :
    ts.map Token.kind = kinds ∧ whole := by
  obtain ⟨ks, hlexed, hstands⟩ := h
  rw [Lexer.kinds_eq_of_lexedBy hlexed hts] at haccepted hweight ⊢
  rcases hstands with (hslash | hlt) | hwhole
  · exact absurd hslash haccepted.slash_not_mem
  · exact absurd hweight (Nat.ne_of_lt hlt)
  · exact hwhole

end Told

namespace Bracketed

variable {b : Bracketed}

/-- A minus in front of a member is a token of its own, or all is no expression. -/
theorem unsigned_or_told_member {m : Member} (h : m.LexesBack) :
    Unsigned m.text.toList ∨ Told ("-" ++ m.text) [.mark .minus, .name m.text] False := by
  obtain ⟨span, hspan⟩ := h.lexes
  obtain ⟨hname, hconstant⟩ := Lexer.nameText_of_tokenize hspan rfl
  refine (hname.unsigned_or_infinity hconstant).imp_right ?_
  rintro ⟨c, behind, hword, hc⟩
  exact ⟨_, Lexer.lexedBy_infinity hname hword hc, .inl (.inl (by simp))⟩

/-- A minus in front of a literal is a token of its own, or all is one literal. -/
theorem unsigned_or_told_literal {l : Literal} (h : l.LexesBack) :
    Unsigned l.text.toList ∨ Told ("-" ++ l.text) (.mark .minus :: kindsOf l.text) False := by
  refine l.unsigned_or_folded.imp_right ?_
  rintro ⟨raw, hfolded⟩
  obtain ⟨_, _, hkinds, -, -⟩ := h.kindsOf_eq
  have hfewer : Reading.weight [.literal raw] <
      Reading.weight (.mark .minus :: kindsOf l.text) := by
    rw [hkinds]
    exact Nat.lt_succ_self 1
  exact ⟨_, Lexer.lexedBy_only (by simpa using hfolded), .inl (.inr hfewer)⟩

/-- A unary operator is no part of a number. -/
theorem unsigned_opening {op : Operator} (hop : op.isUnary = true) (text : String) :
    Unsigned (Expr.opening op ++ text).toList := by
  have hopening : ∃ c cs, (Expr.opening op).toList = c :: cs ∧
      Text.isDigit c = false ∧ c ≠ 'I' := by
    cases op with
    | not => exact ⟨'n', _, (rfl : "not ".toList = _), rfl, by decide⟩
    | neg => exact ⟨'-', _, (rfl : "-".toList = _), rfl, by decide⟩
    | _ => cases hop
  obtain ⟨c, cs, hcs, hdigit, hI⟩ := hopening
  rw [String.toList_append, hcs]
  exact Token.unsigned_cons hdigit hI

/-- A binary operation begins as its left operand does. -/
theorem unsigned_or_told_operator {left right : String} {kinds kinds' : List Token.Kind}
    {whole : Prop} {op : Operator} (hop : op.isUnary = false)
    (hl : Unsigned left.toList ∨ Told ("-" ++ left) (.mark .minus :: kinds) False)
    (hr : Told right kinds' whole) :
    Unsigned (left ++ " " ++ op.keyword ++ " " ++ right).toList ∨
      Told ("-" ++ (left ++ " " ++ op.keyword ++ " " ++ right))
        (.mark .minus :: (kinds ++ .name op.keyword :: kinds')) False := by
  rcases hl with hsign | htold
  · left
    have hblank : Token.Delimited (' ' :: (op.keyword.toList ++ ' ' :: right.toList)) :=
      Token.delimited_cons.2 rfl
    have htext : (left ++ " " ++ op.keyword ++ " " ++ right).toList =
        left.toList ++ ' ' :: (op.keyword.toList ++ ' ' :: right.toList) := by simp
    rw [htext]
    exact hsign.append hblank nofun
  · right
    have htext : "-" ++ (left ++ " " ++ op.keyword ++ " " ++ right) =
        "-" ++ left ++ " " ++ op.keyword ++ " " ++ right := by simp [String.append_assoc]
    rw [htext]
    exact (htold.operator hop hr).mono And.left

/-- What is written consists of the tokens of its parts, each minus being one, or it is of tokens
    that are accepted as no such expression. The same holds with a minus in front of it. -/
theorem Proper.told (h : b.Proper) :
    Told b.text b.kinds b.Unfolded ∧
      (Unsigned b.text.toList ∨ Told ("-" ++ b.text) (.mark .minus :: b.kinds) False) := by
  have hlist : ∀ bs : List Bracketed, (∀ b ∈ bs, Told b.text b.kinds b.Unfolded ∧
      (Unsigned b.text.toList ∨ Told ("-" ++ b.text) (.mark .minus :: b.kinds) False)) →
      Told (text.commaSeparated bs) (joinKinds (kinds.kindsAll bs)) (∀ b ∈ bs, b.Unfolded) :=
    fun bs hbs => .commaSeparated fun b hb => (hbs b hb).1
  induction h with
  | @member m hm =>
    obtain ⟨span, htokens⟩ := hm.lexes
    exact ⟨⟨_, Lexer.lexedBy_of_tokenize htokens, .inr ⟨rfl, .member m⟩⟩,
      unsigned_or_told_member hm⟩
  | @literal l hl =>
    refine ⟨?_, unsigned_or_told_literal hl⟩
    obtain ⟨_, _, _, htokens, -⟩ := hl
    have hkinds : _ = kindsOf l.text := (Lexer.kindsOf_eq htokens).symm
    exact ⟨_, Lexer.lexedBy_of_tokenize htokens, .inr ⟨hkinds, .literal l⟩⟩
  | @call name args _ hname _ _ _ ih =>
    exact ⟨((hlist args ih).call hname).mono .call, .inl (Expr.unsigned_call hname _)⟩
  | @unary op b hop _ ih =>
    obtain ⟨htold, hsign⟩ := ih
    refine ⟨?_, .inl (unsigned_opening hop b.text)⟩
    cases op with
    | not => exact htold.not.mono (.unary nofun)
    | neg =>
      -- the minus is a token of its own, or it is lost in what begins behind it
      rcases hsign with hsign | hfolded
      · exact (htold.minus hsign).mono (.unary fun _ => hsign)
      · exact hfolded.mono False.elim
    | _ => cases hop
  | binary hop _ _ _ ihl ihr =>
    exact ⟨(ihl.1.operator hop ihr.1).mono fun h => .binary h.1 h.2,
      unsigned_or_told_operator hop ihl.2 ihr.1⟩
  | @membership _ _ items hv _ _ ihl ih =>
    have hop := Operator.isUnary_of_takesValues hv
    have hvalues := (hlist items ih).parens
    exact ⟨(ihl.1.operator hop hvalues).mono fun h => .binary h.1 (.collection h.2),
      unsigned_or_told_operator hop ihl.2 hvalues⟩
  | parens _ ih => exact ⟨ih.1.parens.mono .parens, .inl (Token.unsigned_parens _)⟩

end Bracketed

/-! ## Reading what is written -/

/-- The parser reads the text as the same tree. -/
def Parser.ReadsAs (p : Parser) (text : String) (e : Expr) : Prop :=
  ∃ e', (p.parse text).outcome = .ok (some e') ∧ e'.same e = true

namespace Bracketed

variable {b : Bracketed}

/-- What is read as the expression has enough parentheses, and each minus in it is a token. -/
theorem Proper.suffices_of_readsAs (h : b.Proper) {limits : Limits}
    (hreads : (⟨Parser.standard.resolvers, limits⟩ : Parser).ReadsAs b.text b.tree) :
    b.Suffices 0 ∧ b.Unfolded := by
  obtain ⟨e, hparse, hsame⟩ := hreads
  obtain ⟨ts, hts, hrun⟩ := Parser.returns_of_report hparse
  obtain ⟨level, haccepted⟩ := Reading.accepted_of_filter hrun.outcome
  have hweight := (haccepted.weight_eq Parser.permutesArguments_standard).trans (h.weight_eq hsame)
  obtain ⟨hkinds, hunfolded⟩ :=
    h.told.1.whole_of_accepted (Parser.tokens_eq_ok.1 hts).2 haccepted hweight
  rw [hkinds] at haccepted
  exact ⟨(h.suffices haccepted hsame).1, hunfolded⟩

/-- What has enough parentheses, and in which each minus is a token, is read as the expression under
    limits that cover the text. -/
theorem Proper.readsAs_of_suffices (h : b.Proper) (hsuffices : b.Suffices 0)
    (hunfolded : b.Unfolded) {limits : Limits}
    (hdepth : b.text.toList.length < limits.maxDepth)
    (hlength : b.text.toList.length ≤ limits.maxLength) :
    (⟨Parser.standard.resolvers, limits⟩ : Parser).ReadsAs b.text b.tree := by
  obtain ⟨e, hsame, haccepted⟩ := hsuffices.accepted h
  obtain ⟨ts, hts, hkinds⟩ := Lexer.tokenize_of_lexes (hunfolded.lexed h).lexes
  rw [← hkinds] at haccepted
  have hbudget : ts.length ≤ limits.maxDepth := Nat.le_trans (Lexer.length_upTo_le hts) hdepth
  have hread := Reading.filter_of_accepted hbudget haccepted
  refine ⟨e, ?_, hsame⟩
  have htokens : (⟨Parser.standard.resolvers, limits⟩ : Parser).tokens b.text = .ok ts :=
    Parser.tokens_eq_ok.2 ⟨hlength, hts⟩
  rw [Parser.parse, Parser.report, htokens]
  exact Reading.Run.mapError_eq_ok.2 hread

end Bracketed

end QueryExpr
