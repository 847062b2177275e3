import QueryExpr.Proofs.Spacing

/-!
# Faults of the characters come first

What is wrong with the characters of a text is found before its tokens are read, or not at all:
every literal that the lexer gives has a value, so none is found to have none later.

* `Lexer.value_of_next`: a literal that the lexer gives has a value.
* `Reading.Unfailing`: a reading does not end with a literal that has no value.
* `Report.LexicalFirst`: an error in the characters is the first one of the text, and nothing has
  been asked or told before it.
* `Parser.lexicalFirst_of_text`: so it is for filters, orderings and selections.
-/

namespace QueryExpr

/-! ## Literals have values -/

/-- Whatever has been read before, a literal that the lexer gives has a value. -/
theorem Lexer.value_of_next (l : Lexer) {t : Token} {raw : Literal.Raw}
    (h : l.next.1 = .ok (some t)) (hraw : t.kind = .literal raw) :
    ∃ v, raw.value = .ok v := by
  simp only [next] at h
  split at h
  · cases h
  next c cs _ =>
    split at h
    next kind hscan =>
      cases h
      subst hraw
      exact Token.value_of_scan hscan
    next => cases h

namespace Reading

/-- A run does not end with a literal that has no value. -/
def Unfailing {α : Type} (run : Run α) : Prop :=
  ∀ raw reason span, run.outcome ≠ .error (.literal raw reason span)

section

variable {ts : List Token} (h : ∀ t ∈ ts, ∀ raw, t.kind = .literal raw → ∃ l, raw.value = .ok l)
  (r : Resolvers) (budget : Nat)

include h

theorem sameKind_self : List.Forall₂ SameKind ts ts :=
  List.forall₂_same.2 fun t ht => ⟨rfl, h t ht⟩

theorem filter_unfailing : Unfailing (filter r budget ts) :=
  (Lockstep.filter ((Run.Same.lockstep r).expression budget 0) (sameKind_self h)).valued

theorem ordering_unfailing : Unfailing (ordering r budget ts) :=
  (Lockstep.wholeList (Lockstep.orderItem ((Run.Same.lockstep r).expression budget 0))
    (sameKind_self h)).valued

theorem selection_unfailing : Unfailing (selection r budget ts) :=
  (Lockstep.wholeList (Lockstep.selectItem ((Run.Same.lockstep r).expression budget 0))
    (sameKind_self h)).valued

end

/-- An error in the characters is that of a literal without a value. -/
theorem Fault.toError_ne_lex {f : Fault} (h : ∀ raw reason span, f ≠ .literal raw reason span)
    (text : String) (count limit : Nat) (e : LexError) : f.toError text count limit ≠ .lex e := by
  cases f with
  | literal raw reason span => exact absurd rfl (h raw reason span)
  | grammar | member => rintro ⟨⟩
  | method m => cases m <;> rintro ⟨⟩

end Reading

/-! ## Texts -/

/-- The report is an error in the characters just where the text is too long or has no tokens. Then
    it is that error, without requests and without a trace. -/
structure Report.LexicalFirst {α : Type} (p : Parser) (text : String) (rep : Report α) : Prop where
  lex_iff : (∃ e, rep.outcome = .error (.lex e)) ↔
    p.limits.maxLength < text.toList.length ∨ ∃ e, Lexer.tokenize text = .error e
  tooLong : p.limits.maxLength < text.toList.length →
    rep = ⟨.error (.lex ⟨.tooLong p.limits.maxLength, p.limits.maxLength⟩), [], []⟩
  flawed : ¬ p.limits.maxLength < text.toList.length → ∀ e, Lexer.tokenize text = .error e →
    rep = ⟨.error (.lex e), [], []⟩

namespace Parser

open Reading (Run Unfailing)

/-- Where readings do not end with a literal that has no value, errors in the characters come
    first. -/
theorem report_lexicalFirst {α : Type} (p : Parser) (mode : Reading.Mode)
    {read : Resolvers → Nat → List Token → Run α} {text : String}
    (hread : ∀ ts, Lexer.tokenize text = .ok ts →
      Unfailing (read p.resolvers p.limits.maxDepth ts)) :
    (p.report mode read text).LexicalFirst p text := by
  by_cases hlength : p.limits.maxLength < text.toList.length
  · have htokens : p.tokens text =
        .error ⟨.tooLong p.limits.maxLength, p.limits.maxLength⟩ := if_pos hlength
    rw [report, htokens]
    exact ⟨⟨fun _ => .inl hlength, fun _ => ⟨_, rfl⟩⟩, fun _ => rfl, fun h => absurd hlength h⟩
  · have htokens : p.tokens text = Lexer.tokenize text := if_neg hlength
    rw [report, htokens]
    cases hcut : Lexer.tokenize text with
    | error e =>
      refine ⟨⟨fun _ => .inr ⟨e, hcut⟩, fun _ => ⟨e, rfl⟩⟩, fun h => absurd h hlength, ?_⟩
      rintro - _ he
      rw [hcut] at he
      cases he
      rfl
    | ok ts =>
      have hne : ∀ e, p.outcomeOf text ts (read p.resolvers p.limits.maxDepth ts) ≠
          .error (.lex e) := by
        intro e he
        obtain ⟨f, hf, hlex⟩ := Run.mapError_eq_error.1 he
        refine Reading.Fault.toError_ne_lex ?_ _ _ _ e hlex
        rintro raw reason span rfl
        exact hread ts hcut raw reason span hf
      refine ⟨⟨?_, ?_⟩, fun h => absurd h hlength, ?_⟩
      · rintro ⟨e, he⟩
        exact absurd he (hne e)
      · rintro (h | ⟨e, he⟩)
        · exact absurd h hlength
        · rw [hcut] at he
          cases he
      · rintro - e he
        rw [hcut] at he
        cases he

/-- With whatever resolvers and limits, an error in the characters of a text comes first and is
    found only once. -/
theorem lexicalFirst_of_text (p : Parser) (text : String) :
    (p.parse text).LexicalFirst p text ∧ (p.parseOrderBy text).LexicalFirst p text ∧
      (p.parseSelect text).LexicalFirst p text ∧
      ∀ (l : Lexer) (t : Token) (raw : Literal.Raw), l.next.1 = .ok (some t) →
        t.kind = .literal raw → ∃ v, raw.value = .ok v := by
  have hvalue : ∀ ts, Lexer.tokenize text = .ok ts → ∀ t ∈ ts, ∀ raw, t.kind = .literal raw →
      ∃ l, raw.value = .ok l := fun ts h => value_of_cuts (Lexer.cuts_of_tokenize h)
  refine ⟨?_, ?_, ?_, fun l t raw => l.value_of_next⟩
  · exact report_lexicalFirst p .filter fun ts h => Reading.filter_unfailing (hvalue ts h) _ _
  · exact report_lexicalFirst p .ordering fun ts h => Reading.ordering_unfailing (hvalue ts h) _ _
  · exact report_lexicalFirst p .selection fun ts h => Reading.selection_unfailing (hvalue ts h) _ _

/-- A number out of range is found before anything is asked, though a member is in front of it. -/
theorem lexicalFirst_of_text_out_of_range :
    let raw : Literal.Raw := ⟨"9223372036854775808", .long⟩
    let rep := standard.parse "a eq 9223372036854775808L"
    (∃ reason, rep.outcome = .error (.lex ⟨.malformed raw reason, 5⟩)) ∧ rep.requests = [] ∧
      rep.LexicalFirst standard "a eq 9223372036854775808L" :=
  ⟨⟨_, rfl⟩, rfl, (lexicalFirst_of_text standard _).1⟩

end Parser

end QueryExpr
