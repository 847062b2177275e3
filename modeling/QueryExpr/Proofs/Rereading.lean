import QueryExpr.Proofs.Blame
import QueryExpr.Proofs.Budgets
import QueryExpr.Proofs.Fitting
import QueryExpr.Proofs.Legibility
import QueryExpr.Proofs.Nesting

/-!
# Reading what is written within a limit

What is written for a tree nests expressions as deep as the tree is, which may be deeper than in the
text that the tree was read of: once for each parenthesis that is not in the text. Within a limit
that covers these, what is written is never refused for its depth.

* `Fitted`: a text that nests expressions at most so deep, by what is written for each tree in
  `Expr.Shaped.fitted`.
* `Parser.parse_text_within`: what is written for a tree is not nested too deeply for the limit
  under which the tree was read, but for missing parentheses.
* `Parser.parse_text_tooDeep`: a text under whose limit its tree cannot be read back.
-/

namespace QueryExpr

open Lexer (LexedBy LexesOnly joinKinds tokenByToken_lexesOnly)
open Reading (LevelFits OperandFits ValuesFit)

/-! ## Texts -/

/-- Wherever an expression of the level can stand, the text is one that nests expressions at most
    `depth` deep, if it is read at all. -/
def Fitted (r : Resolvers) (text : String) (n depth : Nat) : Prop :=
  ∃ kinds, LexedBy LexesOnly text.toList kinds ∧ LevelFits r n depth kinds

/-- The text is a list without its parentheses that nests expressions at most `depth` deep. -/
def FittedValues (r : Resolvers) (text : String) (depth : Nat) : Prop :=
  ∃ kinds, LexedBy LexesOnly text.toList kinds ∧ ValuesFit r depth (kinds ++ [.mark .parenClose])

section

variable {r : Resolvers} {text text' : String} {m n depth depth' : Nat}

/-- Expressions with commas between them are a list. -/
theorem FittedValues.of_forall {es : List Expr} (h : ∀ e ∈ es, Fitted r e.text 1 depth) :
    FittedValues r (Expr.text.commaSeparated es) depth := by
  have hitems : ∀ e es, (∀ e' ∈ e :: es, Fitted r e'.text 1 depth) → ∃ ks kss,
      LexedBy LexesOnly (Expr.text.commaSeparated (e :: es)).toList (joinKinds (ks :: kss)) ∧
        ∀ ks' ∈ ks :: kss, LevelFits r 1 depth ks' := by
    intro e es
    induction es generalizing e with
    | nil =>
      intro h
      obtain ⟨ks, hlexed, hfits⟩ := h e List.mem_cons_self
      refine ⟨ks, [], ?_, List.forall_mem_singleton.2 hfits⟩
      simpa [joinKinds, Expr.text.commaSeparated] using hlexed
    | cons e' es ih =>
      intro h
      obtain ⟨he, hes⟩ := List.forall_mem_cons.1 h
      obtain ⟨ks, hlexed, hfits⟩ := he
      obtain ⟨ks', kss, hlexed', hfits'⟩ := ih e' hes
      refine ⟨ks, ks' :: kss, ?_, List.forall_mem_cons.2 ⟨hfits, hfits'⟩⟩
      have := LexedBy.comma tokenByToken_lexesOnly hlexed hlexed'
      simpa [joinKinds, Expr.text.commaSeparated] using this
  cases es with
  | nil => exact ⟨joinKinds [], LexedBy.nil, ValuesFit.of_forall (List.forall_mem_nil _)⟩
  | cons e es =>
    obtain ⟨ks, kss, hlexed, hfits⟩ := hitems e es h
    exact ⟨_, hlexed, ValuesFit.of_forall hfits⟩

namespace Fitted

theorem weaken (hmn : m ≤ n) (h : Fitted r text n depth) : Fitted r text m depth := by
  obtain ⟨kinds, hlexed, hfits⟩ := h
  exact ⟨kinds, hlexed, hfits.weaken hmn⟩

theorem mono (hdepth : depth ≤ depth') (h : Fitted r text n depth) : Fitted r text n depth' := by
  obtain ⟨kinds, hlexed, hfits⟩ := h
  exact ⟨kinds, hlexed, hfits.mono hdepth⟩

/-- A single token that is an operand. -/
theorem lexeme {kind : Token.Kind} (h : Token.LexemeOnly text.toList kind)
    (hfits : OperandFits r depth [kind]) : Fitted r text n (depth + 1) :=
  ⟨_, Lexer.lexedBy_only h, .operand hfits n⟩

theorem parens (h : Fitted r text 1 depth) (n : Nat) :
    Fitted r ("(" ++ text ++ ")") n (depth + 1) := by
  obtain ⟨kinds, hlexed, hfits⟩ := h
  exact ⟨_, LexedBy.parens tokenByToken_lexesOnly hlexed, .operand (.parens hfits) n⟩

/-- An operand is of the level that its operator asks for: in parentheses it is of each level, and
    nested once more. -/
theorem operand {wraps : Bool} (h : Fitted r text n depth) (hn : 1 ≤ n)
    (hw : wraps = false → m ≤ n) :
    Fitted r (Expr.operand wraps text) m (Expr.nested wraps depth) := by
  cases wraps with
  | false => exact h.weaken (hw rfl)
  | true => exact (h.weaken hn).parens m

theorem not (h : Fitted r text 7 depth) : Fitted r ("not " ++ text) n (depth + 1) := by
  obtain ⟨kinds, hlexed, hfits⟩ := h
  exact ⟨_, LexedBy.not tokenByToken_lexesOnly hlexed, .operand (.unary rfl hfits) n⟩

theorem neg (hsign : Token.Unsigned text.toList) (h : Fitted r text 7 depth) :
    Fitted r ("-" ++ text) n (depth + 1) := by
  obtain ⟨kinds, hlexed, hfits⟩ := h
  exact ⟨_, LexedBy.minus tokenByToken_lexesOnly hsign hlexed, .operand (.unary rfl hfits) n⟩

/-- Infinity is a literal, behind which nothing goes on with the rest of the name. -/
theorem neg_infinity {word : String} {c : Char} {behind : List Char} (hname : Token.NameText word)
    (hword : word.toList = Token.infinityWord ++ c :: behind) (hc : Token.isJoint c = true) :
    Fitted r ("-" ++ word) n 1 :=
  ⟨_, Lexer.lexedBy_infinity hname hword hc, .operand (.literalSlash _ _) n⟩

theorem binary {op : Operator} (hop : op.isUnary = false) (hv : op.takesValues = false)
    (hl : Fitted r text op.precedence depth) (hr : Fitted r text' (op.precedence + 1) depth') :
    Fitted r (text ++ " " ++ op.keyword ++ " " ++ text') op.precedence
      (max depth (depth' + 1)) := by
  obtain ⟨_, hlexed, hfits⟩ := hl
  obtain ⟨_, hlexed', hfits'⟩ := hr
  have hwords := Reading.mem_binaryWords (Operator.binary?_keyword hop) hv
  exact ⟨_, LexedBy.operator tokenByToken_lexesOnly hop hlexed hlexed', hfits.binary hwords hfits'⟩

theorem membership {op : Operator} (hv : op.takesValues = true)
    (hl : Fitted r text op.precedence depth) (hr : FittedValues r text' depth') :
    Fitted r (text ++ " " ++ op.keyword ++ " " ++ ("(" ++ text' ++ ")")) op.precedence
      (max depth (depth' + 1)) := by
  obtain ⟨_, hlexed, hfits⟩ := hl
  obtain ⟨_, hlexed', hfits'⟩ := hr
  have hop := Operator.isUnary_of_takesValues hv
  have hwords := Reading.mem_membershipWords (Operator.binary?_keyword hop) hv
  rw [Operator.precedence_of_takesValues hv] at hfits ⊢
  refine ⟨_, ?_, hfits.membership hwords hfits'⟩
  exact LexedBy.operator tokenByToken_lexesOnly hop hlexed
    (LexedBy.parens tokenByToken_lexesOnly hlexed')

theorem call {name : String} (hname : Token.NameText name)
    (hconstant : Token.constant? name = none) (hnot : name ≠ "not")
    (h : FittedValues r text depth) : Fitted r (name ++ "(" ++ text ++ ")") n (depth + 1) := by
  obtain ⟨_, hlexed, hfits⟩ := h
  have hword := Token.lexeme_name hname hconstant false
  exact ⟨_, LexedBy.call tokenByToken_lexesOnly hword hlexed, .operand (.call hnot hfits) n⟩

end Fitted

end

/-! ## What is written for a tree -/

namespace Expr

variable {r : Resolvers}

/-- A minus in front of an operand is a token of its own, unless it stands in front of a name that
    begins with the word for infinity and a joint. -/
theorem Legible.unsigned_or_infinity {e : Expr} (h : e.Legible) :
    Token.Unsigned (operand (e.wrapsBehind .neg) e.text).toList ∨
      ∃ word c behind, e = .member (.ofText word) ∧ Token.NameText word ∧
        word.toList = Token.infinityWord ++ c :: behind ∧ Token.isJoint c = true := by
  cases e with
  | member m =>
    obtain ⟨word, rfl, hname, hconstant, -⟩ := h
    rcases hname.unsigned_or_infinity hconstant with hsign | ⟨c, behind, hword, hc⟩
    · rw [← Member.text_ofText word] at hsign
      exact .inl hsign
    · exact .inr ⟨word, c, behind, rfl, hname, hword, hc⟩
  | call name args => exact .inl (unsigned_call h _)
  | literal _ | binary _ _ _ | unary _ _ | collection _ => exact .inl (Token.unsigned_parens _)

theorem fitted_values {es : List Expr} (h : ∀ e ∈ es, Fitted r e.text e.precedence e.depth) :
    FittedValues r (text.commaSeparated es) (depth.depthAll es) :=
  .of_forall fun e he => ((h e he).weaken e.one_le_precedence).mono (depth_le_depthAll he)

section

variable {a : Expr} (h : Fitted r a.text a.precedence a.depth)

include h

theorem fitted_left (op : Operator) : Fitted r (operand (a.wrapsLeft op) a.text) op.precedence
    (nested (a.wrapsLeft op) a.depth) :=
  h.operand a.one_le_precedence fun hw => by simpa [wrapsLeft] using hw

theorem fitted_right (op : Operator) :
    Fitted r (operand (a.wrapsRight op) a.text) (op.precedence + 1)
      (nested (a.wrapsRight op) a.depth) :=
  h.operand a.one_le_precedence fun hw => by simpa [wrapsRight, Nat.succ_le_iff] using hw

theorem fitted_behind {op : Operator} (hop : op.isUnary = true) :
    Fitted r (operand (a.wrapsBehind op) a.text) 7 (nested (a.wrapsBehind op) a.depth) := by
  refine h.operand a.one_le_precedence fun hw => ?_
  cases op with
  | not => exact Nat.le_of_not_lt (of_decide_eq_false hw)
  | neg =>
    cases a with
    | member _ | call _ _ => exact Nat.le_succ 7
    | _ => cases hw
  | _ => cases hop

end

/-- What is written for a tree nests expressions as deep as the tree is. -/
theorem Shaped.fitted {e : Expr} (h : e.Shaped) (hlegible : e.All Legible) :
    Fitted r e.text e.precedence e.depth := by
  induction h with
  | member m =>
    obtain ⟨word, rfl, hname, hconstant, hword⟩ := all_member.1 hlegible
    have hnot : word ≠ "not" := by rintro rfl; cases hword
    show Fitted r (Member.ofText word).text 8 1
    rw [Member.text_ofText]
    exact .lexeme (Token.lexeme_name hname hconstant false).only (.name hnot)
  | literal l =>
    have hliteral : (Expr.literal l).Legible := all_literal.1 hlegible
    obtain ⟨raw, hraw⟩ := Token.lexemeOnly_literal hliteral
    exact .lexeme hraw (.literal raw)
  | call name _ ih =>
    obtain ⟨hcall, hargs⟩ := all_call.1 hlegible
    obtain ⟨hname, hconstant, hnot, -⟩ := MethodTable.nameText_canonical hcall
    exact .call hname hconstant hnot (fitted_values fun arg harg => ih arg harg (hargs arg harg))
  | @unary op inner hop _ ih =>
    obtain ⟨-, hinner⟩ := all_unary.1 hlegible
    have hoperand := fitted_behind (ih hinner) hop
    cases op with
    | not => exact hoperand.not
    | neg =>
      rcases hinner.self.unsigned_or_infinity with hsign | ⟨word, c, behind, rfl, hname, hword, hc⟩
      · exact hoperand.neg hsign
      · show Fitted r ("-" ++ (Member.ofText word).text) 7 2
        rw [Member.text_ofText]
        exact (Fitted.neg_infinity hname hword hc).mono (Nat.le_succ 1)
    | _ => cases hop
  | @binary left op right hop hv _ _ ihl ihr =>
    obtain ⟨-, hleft, hright⟩ := all_binary.1 hlegible
    exact .binary hop hv (fitted_left (ihl hleft) op) (fitted_right (ihr hright) op)
  | @membership left op items hv _ _ ihl ih =>
    obtain ⟨-, hleft, hright⟩ := all_binary.1 hlegible
    have hitems := (all_collection.1 hright).2
    have hvalues := fitted_values fun item hitem => ih item hitem (hitems item hitem)
    -- a value list has its own parentheses and gets no more
    have hwraps : (collection items).wrapsRight op = false := by
      cases op <;> rfl
    rw [text, depth, hwraps]
    exact .membership hv (fitted_left (ihl hleft) op) hvalues

end Expr

/-! ## Reading back -/

namespace Parser

/-- A text that fits is not refused for its depth. -/
theorem not_tooDeep_of_fitted {p : Parser} {text : String} {depth : Nat}
    (h : Fitted p.resolvers text 1 depth)
    (hdepth : depth ≤ p.limits.maxDepth) : ¬ (p.parse text).TooDeep p.limits.maxDepth := by
  obtain ⟨kinds, hlexed, hfits⟩ := h
  rintro ⟨i, hi⟩
  rw [parse, report] at hi
  split at hi
  next => cases hi
  next ts hts =>
    obtain ⟨fault, hfault, herror⟩ := Reading.Run.mapError_eq_error.1 hi
    obtain ⟨problem, left, rfl, hcause⟩ := Reading.Fault.eq_grammar_of_toError herror
    have hkinds := Lexer.kinds_eq_of_lexedBy hlexed (tokens_eq_ok.1 hts).2
    cases problem with
    | tooDeep => exact (Reading.filter_stays hfits hdepth hkinds).within left hfault
    | _ => cases hcause

/-- What is written for a tree is not nested too deeply for the limit under which the tree was read,
    if that limit is raised by the number of parentheses that are missing in the text. -/
theorem parse_text_within {maxDepth maxLength : Nat} {text : String} {ts : List Token} {e : Expr}
    (hts : (⟨standard.resolvers, ⟨maxDepth, maxLength⟩⟩ : Parser).tokens text = .ok ts)
    (h : ((⟨standard.resolvers, ⟨maxDepth, maxLength⟩⟩ : Parser).parse text).outcome =
      .ok (some e)) (limits : Limits)
    (hlimit : maxDepth + Reading.missingParens ts ≤ limits.maxDepth) :
    ¬ ((⟨standard.resolvers, limits⟩ : Parser).parse e.text).TooDeep limits.maxDepth := by
  have hkeeps : standard.resolvers.KeepsArguments :=
    Registry.keepsArguments Registry.standard_strategies .passThrough
  obtain ⟨ts', hts', hrun⟩ := returns_of_report h
  obtain rfl : ts = ts' := Except.ok.inj (hts.symm.trans hts')
  have hexpression := Reading.expression_of_filter hrun.outcome
  have hread := Reading.expression_gives standard.resolvers maxDepth 0 ts _ hexpression
  have hlegible : e.All Expr.Legible := hread.all_of_kinds grantsFrom_standard
    (Lexer.legible_of_tokenize (tokens_eq_ok.1 hts).2) trivial
  have hshaped : e.Shaped := hread.shaped hkeeps
  have hdepth := Reading.depth_le_of_expression hkeeps hexpression
  exact not_tooDeep_of_fitted ((hshaped.fitted hlegible).weaken e.one_le_precedence)
    (Nat.le_trans hdepth hlimit)

/-- Under a limit of three, an inner minus is read without parentheses, and then written in some:
    one more expression is nested in what is written. -/
theorem parse_text_within_minus :
    let p : Parser := ⟨standard.resolvers, ⟨3, 100⟩⟩
    let q : Parser := ⟨standard.resolvers, ⟨4, 100⟩⟩
    let ts : List Token := [⟨.mark .minus, ⟨0, 1⟩⟩, ⟨.mark .minus, ⟨1, 2⟩⟩, ⟨.name "x", ⟨2, 3⟩⟩]
    let e : Expr := .unary .neg (.unary .neg (.member ⟨["x"]⟩))
    p.tokens "--x" = .ok ts ∧ (p.parse "--x").outcome = .ok (some e) ∧
      3 + Reading.missingParens ts ≤ 4 ∧ e.text = "-(-x)" ∧ ¬ (q.parse e.text).TooDeep 4 := by
  intro p q ts e
  have hts : p.tokens "--x" = .ok ts := rfl
  have hparse : (p.parse "--x").outcome = .ok (some e) := rfl
  have hlimit : 3 + Reading.missingParens ts ≤ 4 := by decide
  exact ⟨hts, hparse, hlimit, rfl, parse_text_within hts hparse ⟨4, 100⟩ hlimit⟩

/-- A text is read in the same way under any limit on its length that covers it. -/
theorem parse_eq_of_length_le (r : Resolvers) (maxDepth : Nat) {maxLength maxLength' : Nat}
    {text : String} (h : text.toList.length ≤ maxLength) (h' : text.toList.length ≤ maxLength') :
    (⟨r, ⟨maxDepth, maxLength⟩⟩ : Parser).parse text =
      (⟨r, ⟨maxDepth, maxLength'⟩⟩ : Parser).parse text := by
  have htokens : (⟨r, ⟨maxDepth, maxLength⟩⟩ : Parser).tokens text =
      (⟨r, ⟨maxDepth, maxLength'⟩⟩ : Parser).tokens text := by
    rw [tokens, tokens, if_neg (Nat.not_lt.2 h), if_neg (Nat.not_lt.2 h')]
  rw [parse, parse, report, report, htokens]
  rfl

/-- Under the limit of three itself, what is written is nested too deeply, however long a text may
    be. -/
theorem parse_text_tooDeep :
    ∃ e : Expr, ∀ maxLength, 5 ≤ maxLength →
      let p : Parser := ⟨standard.resolvers, ⟨3, maxLength⟩⟩
      (p.parse "--x").outcome = .ok (some e) ∧ (p.parse e.text).TooDeep 3 := by
  refine ⟨.unary .neg (.unary .neg (.member ⟨["x"]⟩)), fun maxLength hlength => ⟨?_, 3, ?_⟩⟩
  · rw [parse_eq_of_length_le _ 3 (Nat.le_trans (by decide) hlength) (Nat.le_refl _)]
    rfl
  · have htext : Expr.text (.unary .neg (.unary .neg (.member ⟨["x"]⟩))) = "-(-x)" := rfl
    rw [htext, parse_eq_of_length_le _ 3 hlength (Nat.le_refl _)]
    rfl

end Parser

end QueryExpr
