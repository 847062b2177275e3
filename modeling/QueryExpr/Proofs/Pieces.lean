import QueryExpr.Proofs.Context
import QueryExpr.Proofs.Extension
import QueryExpr.Proofs.Spacing
import QueryExpr.Proofs.Trees

/-!
# Pieces of a text

A text that is put together of texts in parentheses, with commas between them, has the tokens of its
pieces, and each piece is read as it is read alone.

* `Lexer.kindsOf`: the kinds of the tokens of a text.
* `Lexer.lexed_join`: texts with commas between them have their tokens, with commas between them.
* `Run.Same.repeats`: tokens of the same kinds are read alike.
* `Parser.returns_of_report`: what is read of a text is read of its tokens.
-/

namespace QueryExpr

/-! ## Tokens of pieces -/

namespace Text.Segments

theorem toList_join (sep : Char) (texts : List String) :
    (join sep texts).toList = joinChars sep (texts.map String.toList) := String.toList_ofList

end Text.Segments

namespace Lexer

/-- The kinds of the tokens of a text, if it has tokens. -/
def kindsOf (text : String) : List Token.Kind :=
  match tokenize text with
  | .ok ts => ts.map Token.kind
  | .error _ => []

theorem kindsOf_eq {text : String} {ts : List Token} (h : tokenize text = .ok ts) :
    kindsOf text = ts.map Token.kind := by
  rw [kindsOf, h]

theorem lexed_kindsOf {text : String} {ts : List Token} (h : tokenize text = .ok ts) :
    Lexed text.toList (kindsOf text) := by
  rw [kindsOf_eq h]
  exact lexed_of_tokenize h

/-- Kinds of tokens with a comma between any two pieces. -/
def joinKinds : List (List Token.Kind) → List Token.Kind
  | [] => []
  | kinds :: others => kinds ++ others.flatMap (.mark .comma :: ·)

/-- Texts with commas between them have their tokens, with commas between them. -/
theorem lexed_join {texts : List String} (h : ∀ text ∈ texts, Lexed text.toList (kindsOf text)) :
    Lexed (Text.Segments.join ',' texts).toList (joinKinds (texts.map kindsOf)) := by
  induction texts with
  | nil => exact LexedBy.nil
  | cons text texts ih =>
    obtain ⟨htext, htexts⟩ := List.forall_mem_cons.1 h
    cases texts with
    | nil => simpa [joinKinds, Text.Segments.toList_join, Text.Segments.joinChars] using htext
    | cons next others =>
      have hjoin : Text.Segments.join ',' (text :: next :: others) =
          text ++ "," ++ Text.Segments.join ',' (next :: others) := by
        apply String.toList_inj.1
        simp [Text.Segments.toList_join, Text.Segments.joinChars]
      rw [hjoin]
      exact LexedBy.comma tokenByToken_lexes htext (ih htexts)

end Lexer

/-! ## Reading tokens of the same kinds -/

namespace Reading

variable {α β : Type}

/-- If the first of two runs in step returns, so does the second one. -/
theorem Run.Same.repeats {R : α → β → Prop} {run : Run α} {run' : Run β} (h : Same R run run') :
    Repeats R run run' := by
  intro qs a ha
  rcases h.ends.values_or_fault with ⟨b, c, hb, hc, hbc⟩ | ⟨f, hf, -⟩
  · rw [ha.outcome] at hb
    cases hb
    refine ⟨c, ⟨hc, ?_⟩, hbc⟩
    rw [← ha.requests, requests, requests, h.log]
  · rw [ha.outcome] at hf
    cases hf

/-- Tokens of the same kinds as some that are read to their end are read as the same expression. -/
theorem expression_of_kinds {r : Resolvers} {budget minPower : Nat} {ts ts' : List Token}
    (hkinds : List.Forall₂ SameKind ts ts') {qs : List Request} {e : Expr}
    (h : (expression r budget minPower ts).Returns qs (e, [])) :
    (expression r budget minPower ts').Returns qs (e, []) := by
  have hsame := (Run.Same.lockstep r).expression budget minPower ts ts' hkinds
  obtain ⟨⟨e', rest⟩, h', rfl, hrest⟩ := hsame.repeats qs _ h
  cases hrest
  exact h'

/-- A filter that is there is an expression that is all of the tokens. -/
theorem expression_returns_of_filter {r : Resolvers} {budget : Nat} {ts : List Token}
    {qs : List Request} {e : Expr} (h : (filter r budget ts).Returns qs (some e)) :
    (expression r budget 0 ts).Returns qs (e, []) := by
  by_cases hempty : ts.isEmpty = true
  · rw [filter, if_pos hempty] at h
    cases h.outcome
  · rw [filter, if_neg hempty] at h
    obtain ⟨qs₁, ⟨e', rest⟩, _, he, hend, rfl⟩ := h.of_bind
    obtain ⟨rfl, rfl, heq⟩ := returns_of_inputEnd hend
    cases heq
    rwa [List.append_nil]

end Reading

/-! ## Texts -/

namespace Parser

open Reading (Run)

variable {α : Type} {p : Parser} {text : String}

/-- What is reported of a text comes from a run over its tokens. -/
theorem returns_of_report {mode : Reading.Mode} {read : Resolvers → Nat → List Token → Run α}
    {a : α} (h : (p.report mode read text).outcome = .ok a) :
    ∃ ts, p.tokens text = .ok ts ∧ (read p.resolvers p.limits.maxDepth ts).Returns
      (p.report mode read text).requests a := by
  rw [report] at h ⊢
  split at h
  next => cases h
  next ts hts => exact ⟨ts, hts, Run.mapError_eq_ok.1 h, rfl⟩

/-- A text of which something is read has its tokens in front of any delimiter. -/
theorem lexed_of_report {mode : Reading.Mode} {read : Resolvers → Nat → List Token → Run α} {a : α}
    (h : (p.report mode read text).outcome = .ok a) :
    Lexer.Lexed text.toList (Lexer.kindsOf text) := by
  obtain ⟨ts, hts, -⟩ := returns_of_report h
  exact Lexer.lexed_kindsOf (tokens_eq_ok.1 hts).2

/-- A run over the tokens of a text is what is reported of the text. -/
theorem report_of_leadsTo {mode : Reading.Mode} (read : Resolvers → Nat → List Token → Run α)
    {ts : List Token} (hts : p.tokens text = .ok ts) {qs : List Reading.Request}
    {x : Except Reading.Fault α} (h : (read p.resolvers p.limits.maxDepth ts).LeadsTo qs x) :
    (p.report mode read text).outcome =
        x.mapError (Reading.Fault.toError text ts.length p.limits.maxDepth) ∧
      (p.report mode read text).requests = qs := by
  rw [report, hts]
  dsimp only [outcomeOf]
  rw [h.outcome]
  exact ⟨rfl, h.requests⟩

/-- A text within the limit of the length has the tokens as which it is read. -/
theorem tokens_of_lexed {kinds : List Token.Kind} (h : Lexer.Lexed text.toList kinds)
    (hlength : text.toList.length ≤ p.limits.maxLength) :
    ∃ ts, p.tokens text = .ok ts ∧ ts.map Token.kind = kinds := by
  obtain ⟨ts, hts, hkinds⟩ := Lexer.tokenize_of_lexes h.lexes
  exact ⟨ts, tokens_eq_ok.2 ⟨hlength, hts⟩, hkinds⟩

/-- Tokens of the kinds that a text has are of the same kinds as its own, with values. -/
theorem sameKind_of_kindsOf {ts ts' : List Token} (h : p.tokens text = .ok ts)
    (hkinds : ts'.map Token.kind = Lexer.kindsOf text) :
    List.Forall₂ Reading.SameKind ts ts' := by
  have htokens := (tokens_eq_ok.1 h).2
  rw [Lexer.kindsOf_eq htokens] at hkinds
  exact sameKind_of_map_eq hkinds (value_of_cuts (Lexer.cuts_of_tokenize htokens))

end Parser

end QueryExpr
