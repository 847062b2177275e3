import QueryExpr.Proofs.Lexing
import QueryExpr.Proofs.Spans

/-!
# Texts of a single token

* `Lexer.next_ofText`, `Lexer.tokenize_eq_ok_iff`: what the scan at the start of a text finds is the
  first token, and the others are those of what it leaves.
* `Lexer.tokenize_of_flaw`: if it fails, that is the fault of the text.
* `Lexer.SoleLiteral`: the text is one literal and nothing else.
* `Lexer.soleLiteral_of_lexeme`: a text that is read as a literal in front of any delimiter is one.
-/

namespace QueryExpr.Lexer

open Token (scan)
open Text.Utf8 (size)

/-- A call gives the fault of a scan behind blanks, with its place in the whole text. -/
theorem next_of_flaw {l : Lexer} {before gap : List Char} {c : Char} {cs : List Char}
    {flaw : Token.Flaw} (h : l.cursor.Placed before) (hgap : Blank gap)
    (hc : Text.isBlank c = false) (ahead : l.cursor.ahead = gap ++ c :: cs)
    (hscan : (scan l.afterOperand c cs).outcome = .error flaw) :
    l.next.1 = .error ⟨flaw.fault, (before ++ gap).length + flaw.offset⟩ := by
  have htake : l.cursor.ahead.takeWhile Text.isBlank = gap := by
    rw [ahead, List.takeWhile_append_of_pos hgap]
    simp [hc]
  have hdrop : l.cursor.ahead.dropWhile Text.isBlank = c :: cs := by
    rw [ahead, List.dropWhile_append_of_pos hgap]
    simp [hc]
  have hplaced : l.cursor.skipBlank.Placed (before ++ gap) := by
    rw [← htake]
    exact h.advance List.takeWhile_append_dropWhile.symm
  have hahead : l.cursor.skipBlank.ahead = c :: cs := hdrop
  simp only [next, hahead, hscan, hplaced.charPos]

section

variable {text : String} {c : Char} {cs : List Char} (htext : text.toList = c :: cs)
  (hc : Text.isBlank c = false)

include htext hc

section

variable {read rest : List Char} {kind : Token.Kind}
  (hscan : scan false c cs = .found read rest kind)

include hscan

/-- What a scan finds at the start of a text is its first token, and what it leaves is ahead. -/
theorem next_ofText : ∃ l, (ofText text).next = (.ok (some ⟨kind, ⟨0, size read⟩⟩), l) ∧
    l.cursor.Placed read ∧ l.cursor.ahead = rest := by
  have hahead : (ofText text).cursor.ahead = [] ++ c :: cs := htext
  obtain ⟨l, hnext, hl, hrest, -⟩ :=
    next_of_found (Cursor.placed_ofText text) blank_nil hc hahead hscan
  exact ⟨l, hnext, hl, hrest⟩

/-- The other tokens of the text are those of what the scan leaves. -/
theorem tokenize_eq_ok_iff (ts : List Token) : tokenize text = .ok ts ↔
    ∃ more, ts = ⟨kind, ⟨0, size read⟩⟩ :: more ∧ Cuts kind.endsOperand read rest more := by
  constructor
  · intro hts
    have hcuts := cuts_of_tokenize hts
    rw [htext] at hcuts
    generalize hcs : c :: cs = front at hcuts
    cases hcuts with
    | done hblank =>
      have hblank : Text.isBlank c = true := hblank c (by simp [← hcs])
      rw [hc] at hblank
      cases hblank
    | token hgap hc' hscan' more =>
      obtain ⟨rfl, rfl, rfl⟩ := blank_front_unique blank_nil hgap hc hc' hcs
      rw [hscan] at hscan'
      cases hscan'
      exact ⟨_, rfl, more⟩
  · rintro ⟨more, rfl, hmore⟩
    have hcuts : Cuts false [] ([] ++ c :: cs) _ := .token blank_nil hc hscan hmore
    rw [List.nil_append, ← htext] at hcuts
    exact tokenize_of_cuts hcuts

end

/-- A scan that passes all of a text finds its only token. -/
theorem tokenize_of_found {kind : Token.Kind}
    (hscan : scan false c cs = .found text.toList [] kind) :
    tokenize text = .ok [⟨kind, ⟨0, size text.toList⟩⟩] :=
  (tokenize_eq_ok_iff htext hc hscan _).2 ⟨[], rfl, .done blank_nil⟩

section

variable {flaw : Token.Flaw} (hscan : (scan false c cs).outcome = .error flaw)

include hscan

/-- A scan that fails at the start of a text is the fault of the first call. -/
theorem next_ofText_of_flaw : (ofText text).next.1 = .error ⟨flaw.fault, flaw.offset⟩ := by
  have hahead : (ofText text).cursor.ahead = [] ++ c :: cs := htext
  have hnext := next_of_flaw (Cursor.placed_ofText text) blank_nil hc hahead hscan
  rwa [List.append_nil, List.length_nil, Nat.zero_add] at hnext

/-- It is the fault of the text. -/
theorem tokenize_of_flaw : tokenize text = .error ⟨flaw.fault, flaw.offset⟩ := by
  have hnext := next_ofText_of_flaw htext hc hscan
  rcases hcall : (ofText text).next with ⟨result, l⟩
  rw [hcall] at hnext
  obtain rfl : result = _ := hnext
  simp [tokenize, upTo, hcall]

end

end

/-- The text is one literal of the given kind and value, and nothing else. -/
def SoleLiteral (text : String) (kind : Literal.Kind) (l : Literal) : Prop :=
  ∃ body, tokenize text = .ok [⟨.literal ⟨body, kind⟩, ⟨0, size text.toList⟩⟩] ∧
    Literal.Raw.value ⟨body, kind⟩ = .ok l

theorem soleLiteral_of_lexeme {text body : String} {kind : Literal.Kind} {l : Literal}
    (h : Token.Lexeme false text.toList (.literal ⟨body, kind⟩))
    (hvalue : Literal.Raw.value ⟨body, kind⟩ = .ok l) : SoleLiteral text kind l := by
  obtain ⟨c, cs, htext, hc, hscan⟩ := h
  have hfound := hscan [] Token.delimited_nil
  rw [List.append_nil] at hfound
  exact ⟨body, tokenize_of_found htext hc hfound, hvalue⟩

end QueryExpr.Lexer
