import QueryExpr.Proofs.Quotations
import QueryExpr.Proofs.Sole

/-!
# Strings stay between their quotes

A string is written between quotes, with its own quotes doubled. Whatever it contains, it does not
come out of them: it is read as itself, or its first character that may not stand there is refused.

* `Token.scan_enclose_stray`: the scan of a string between quotes ends at a character that may not
  stand there.
* `Lexer.Confined`: the string is the first token of a text and has no part in the others, or it is
  refused.
* `Lexer.confined_of_quoted`: so is every string in front of what is no quote.
-/

namespace QueryExpr

open Text (isPlain)
open Text.Quoted (double enclose)
open Text.Utf8 (size)

namespace Text.Quoted

theorem double_cons_of_ne {c : Char} (h : c ≠ '\'') (cs : List Char) :
    double (c :: cs) = c :: double cs := if_neg h

theorem double_append (front behind : List Char) :
    double (front ++ behind) = double front ++ double behind := by
  induction front with
  | nil => rfl
  | cons c front ih =>
    rw [List.cons_append, double, double, ih]
    split <;> rfl

/-- A quote may stand between quotes. -/
theorem ne_quote_of_not_isPlain {c : Char} (h : isPlain c = false) : c ≠ '\'' := by
  rintro rfl
  exact absurd h (by decide)

theorem scan_stray {c : Char} (h : isPlain c = false) (cs : List Char) :
    scan (c :: cs) = ⟨[], [c], cs, .stray c⟩ := by
  have hquote := ne_quote_of_not_isPlain h
  rw [scan]
  · rw [h, if_neg Bool.false_ne_true]
  · exact fun _ hc => absurd hc hquote
  · exact hquote

end Text.Quoted

namespace Token

variable (afterOperand : Bool)

/-- A character that may not stand between quotes is refused where it stands. -/
theorem scan_enclose_stray {front : List Char} {c : Char} (behind : List Char)
    (hplain : ∀ d ∈ front, isPlain d = true) (hc : isPlain c = false) :
    (scan afterOperand '\'' (double front ++ c :: behind)).outcome =
      .error ⟨.unexpectedChar c, ('\'' :: double front).length⟩ := by
  show (scanString _).outcome = _
  rw [scanString, scanQuoted, Text.Quoted.scan_double_append front _ hplain,
    Text.Quoted.scan_stray hc]
  simp [Scan.failed]

end Token

namespace Lexer

/-- The token of a string that is written at the start of a text. -/
def stringToken (s : String) : Token :=
  ⟨.literal ⟨s, .string⟩, ⟨0, size (Literal.string s).text.toList⟩⟩

/-- In front of the text `k`, the string `s` is the first token, if its characters are plain. The
    lexer is then at `k`, and the other tokens are those of `k` alone. If a character is not plain,
    the first one is refused at its place. -/
structure Confined (s k : String) : Prop where
  token : (∀ c ∈ s.toList, isPlain c = true) →
    ∃ l, (ofText ((Literal.string s).text ++ k)).next = (.ok (some (stringToken s)), l) ∧
      l.cursor.Placed (Literal.string s).text.toList ∧ l.cursor.ahead = k.toList
  value : Literal.Raw.value ⟨s, .string⟩ = .ok (.string s)
  others : (∀ c ∈ s.toList, isPlain c = true) →
    ∀ ts, tokenize ((Literal.string s).text ++ k) = .ok ts ↔
      ∃ more, ts = stringToken s :: more ∧ Cuts true (Literal.string s).text.toList k.toList more
  stray : ∀ front c behind, s.toList = front ++ c :: behind → (∀ d ∈ front, isPlain d = true) →
    isPlain c = false →
    let position := ('\'' :: double front).length
    (ofText ((Literal.string s).text ++ k)).next.1 = .error ⟨.unexpectedChar c, position⟩ ∧
      tokenize ((Literal.string s).text ++ k) = .error ⟨.unexpectedChar c, position⟩ ∧
      ((Literal.string s).text ++ k).toList[position]? = some c

variable {s k : String}

/-- A string in front of what is no quote stays between its quotes. -/
theorem confined_of_quoted (hk : k.toList.head? ≠ some '\'') : Confined s k := by
  have hquoted : (Literal.string s).text.toList = enclose s.toList := by
    rw [Literal.text, String.toList_ofList]
  have htext : ((Literal.string s).text ++ k).toList =
      '\'' :: (double s.toList ++ '\'' :: k.toList) := by
    rw [String.toList_append, hquoted, enclose]
    simp
  have hfound : (∀ c ∈ s.toList, isPlain c = true) →
      Token.scan false '\'' (double s.toList ++ '\'' :: k.toList) =
        .found (Literal.string s).text.toList k.toList (.literal ⟨s, .string⟩) := by
    intro hplain
    rw [Token.scan_enclose false hplain hk, hquoted, String.ofList_toList]
  refine ⟨fun hplain => next_ofText htext rfl (hfound hplain), rfl,
    fun hplain ts => tokenize_eq_ok_iff htext rfl (hfound hplain) ts, ?_⟩
  intro front c behind hs hfront hc
  have hne := Text.Quoted.ne_quote_of_not_isPlain hc
  rw [hs, Text.Quoted.double_append, Text.Quoted.double_cons_of_ne hne, List.append_assoc,
    List.cons_append] at htext
  have hflaw := Token.scan_enclose_stray false (double behind ++ '\'' :: k.toList) hfront hc
  refine ⟨next_ofText_of_flaw htext rfl hflaw, tokenize_of_flaw htext rfl hflaw, ?_⟩
  rw [htext, ← List.cons_append, List.getElem?_append_right (Nat.le_refl _), Nat.sub_self]
  rfl

/-- A string that would close its quotes, write a condition of its own and open them again, and one
    with a line break, which may not stand between quotes. -/
theorem confined_of_quoted_condition :
    ")".toList.head? ≠ some '\'' ∧ Confined "' or true or '" ")" ∧
      tokenize "'a\nb')" = .error ⟨.unexpectedChar '\n', 2⟩ := by
  have hk : ")".toList.head? ≠ some '\'' := by decide
  have hbreak : Confined "a\nb" ")" := confined_of_quoted hk
  have htext : (Literal.string "a\nb").text ++ ")" = "'a\nb')" := by decide
  have hfront : ∀ d ∈ ['a'], isPlain d = true := List.forall_mem_singleton.2 rfl
  have hstray := (hbreak.stray ['a'] '\n' ['b'] rfl hfront (by decide)).2.1
  rw [htext] at hstray
  exact ⟨hk, confined_of_quoted hk, hstray⟩

end Lexer

end QueryExpr
