import QueryExpr.Proofs.Pieces
import QueryExpr.Proofs.Rendering

/-!
# Texts put together of texts

A text that is an expression can be put in parentheses, or into a list, and stands for the same
expression there. Two more expressions may have to be nested, since parentheses and operators take
one each.

* `Parser.Piece`: a text that a parser reads as an expression.
* `Parser.Composite`: a text put together of pieces by an operator or a call.
* `Parser.parse_composite`: it is read as the operator or the call of what its pieces are read as,
  and the requests of the pieces are made in their order.
-/

namespace QueryExpr

open Lexer (Lexed LexedBy tokenByToken_lexes kindsOf joinKinds)
open Reading (Request)

/-! ## Readings in parentheses -/

namespace Reading

section

variable {r : Resolvers} {sub : Nat → Reader Expr} {budget : Nat} {qs qs' : List Request}
  {e left right : Expr} {t u : Token} {ts rest : List Token}

theorem operand_returns_of_parens (ht : t.kind = .mark .parenOpen) (hu : u.kind = .mark .parenClose)
    (h : (sub 0 ts).Returns qs (e, u :: rest)) :
    (operand r sub (t :: ts)).Returns qs (e, rest) := by
  simp only [operand, primary, Token.Kind.unary?, ht]
  apply h.bind_silent
  rw [startsWith_cons hu, if_pos rfl]
  exact .pure _

theorem operand_returns_of_unary {op : Operator} (ht : t.kind.unary? = some op)
    (h : (sub op.operandPower ts).Returns qs (e, rest)) :
    (operand r sub (t :: ts)).Returns qs (.unary op e, rest) := by
  simp only [operand, ht]
  exact h.bind_silent (.pure _)

/-- An operand that no operator follows is an expression. -/
theorem expression_returns_of_operand {minPower : Nat}
    (h : (operand r (expression r budget) ts).Returns qs (e, rest))
    (hrest : nextOperator? minPower rest = none) :
    (expression r (budget + 1) minPower ts).Returns qs (e, rest) := by
  refine .enter_bind (h.bind_silent ?_)
  dsimp only
  rw [chain_of_none hrest]
  exact .pure _

theorem nextOperator?_keyword {op : Operator} (ht : t.kind = .name op.keyword)
    (hop : op.isUnary = false) : nextOperator? 0 (t :: ts) = some op := by
  refine nextOperator?_eq_some.2 ⟨?_, Nat.zero_le _⟩
  rw [frontOperator?, ht]
  exact Operator.binary?_keyword hop

/-- An operator behind an operand takes a right operand that is all of the other tokens. -/
theorem expression_returns_of_operator {op : Operator} {minPower : Nat}
    (hleft : (operand r (expression r budget) ts).Returns qs (left, t :: rest))
    (hop : nextOperator? minPower (t :: rest) = some op)
    (hright : (if op.takesValues then valueList (expression r budget) rest
      else expression r budget op.rightPower rest).Returns qs' (right, [])) :
    (expression r (budget + 1) minPower ts).Returns (qs ++ qs') (.binary left op right, []) := by
  refine .enter_bind (hleft.bind ?_)
  dsimp only
  rw [chain_of_some hop]
  refine hright.bind_silent ?_
  rw [chain_of_none rfl]
  exact .pure _

theorem laterItems_returns_of_close (hu : u.kind = .mark .parenClose) (b : Token)
    (bound : List Token) : (laterItems sub (b :: bound) (u :: rest)).Returns [] ([], rest) := by
  rw [laterItems]
  refine .enter_bind ?_
  dsimp only
  rw [if_neg (by simp [startsWith, hu]), mark_of_kind hu, Run.pure_bind]
  exact .pure _

theorem laterItems_returns_of_comma {ts' bound : List Token} {es : List Expr}
    (ht : t.kind = .mark .comma) (he : (sub 0 ts).Returns qs (e, ts'))
    (hes : (laterItems sub bound ts').Returns qs' (es, rest)) (b : Token) :
    (laterItems sub (b :: bound) (t :: ts)).Returns (qs ++ qs') (e :: es, rest) := by
  rw [laterItems]
  refine .enter_bind ?_
  dsimp only
  rw [if_pos (startsWith_cons ht)]
  exact he.bind (hes.bind_silent (.pure _))

theorem list_returns_of_close (hu : u.kind = .mark .parenClose) :
    (list sub (u :: rest)).Returns [] ([], rest) := by
  refine .enter_bind ?_
  rw [if_pos (startsWith_cons hu)]
  exact .pure _

theorem list_returns_of_items {ts' : List Token} {es : List Expr}
    (hts : startsWith .parenClose ts = false) (he : (sub 0 ts).Returns qs (e, ts'))
    (hes : (laterItems sub ts' ts').Returns qs' (es, rest)) :
    (list sub ts).Returns (qs ++ qs') (e :: es, rest) := by
  refine .enter_bind ?_
  rw [if_neg (by rw [hts]; decide)]
  exact he.bind (hes.bind_silent (.pure _))

theorem valueList_returns_of_list {es : List Expr} (ht : t.kind = .mark .parenOpen)
    (h : (list sub ts).Returns qs (es, rest)) :
    (valueList sub (t :: ts)).Returns qs (.collection es, rest) := by
  rw [valueList, mark_of_kind ht, Run.pure_bind]
  exact h.bind_silent (.enter_bind (.pure _))

/-- A call is read up to what the resolver answers. -/
theorem expression_leadsTo_of_call {word : String} {args : List Expr} (ht : t.kind = .name word)
    (hword : word ≠ "not") (hu : u.kind = .mark .parenOpen)
    (h : (list (expression r budget) ts).Returns qs (args, [])) :
    (expression r (budget + 1) 0 (t :: u :: ts)).LeadsTo (qs ++ [.method word args])
      ((((r.methods.resolve word args).map Call.toExpr).mapError Fault.method).map (·, [])) := by
  have hoperand : operand r (expression r budget) (t :: u :: ts) =
      list (expression r budget) ts >>= fun x => call r word x.1 >>= fun e => pure (e, x.2) := by
    simp only [operand, primary, ht, unary?_name hword, startsWith_cons hu, if_pos,
      List.tail_cons]
  refine .enter_bind ?_
  rw [hoperand]
  cases hc : r.methods.resolve word args with
  | ok c =>
    have hcall : (call r word args).Returns [.method word args] c.toExpr := by
      rw [call, hc]
      exact Run.Returns.bind_silent (.ask _ _ _) (.enter_bind (.pure _))
    have hread : (list (expression r budget) ts >>= fun x =>
        call r word x.1 >>= fun e => pure (e, x.2)).Returns (qs ++ [.method word args])
          (c.toExpr, []) := h.bind (hcall.bind_silent (.pure _))
    refine hread.bind_silent ?_
    dsimp only
    rw [chain_of_none rfl]
    exact .pure _
  | error f =>
    have hcall : (call r word args).LeadsTo [.method word args] (.error (.method f)) := by
      rw [call, hc]
      exact Run.LeadsTo.bind_error (.ask _ _ _) _
    exact (h.bind (hcall.bind_error _)).bind_error _

/-- An expression that is all of the tokens is the filter. -/
theorem filter_leadsTo {x : Except Fault Expr} (hts : ts ≠ [])
    (h : (expression r budget 0 ts).LeadsTo qs (x.map (·, []))) :
    (filter r budget ts).LeadsTo qs (x.map some) := by
  have hempty : ¬ts.isEmpty = true := by simpa using hts
  rw [filter, if_neg hempty]
  cases x with
  | ok e => exact Run.Returns.bind_silent h (.pure _)
  | error f => exact h.bind_error _

end

end Reading

/-! ## Pieces -/

namespace Parser

variable {p : Parser}

/-- A text that the parser reads as an expression. -/
structure Piece (p : Parser) where
  text : String
  expr : Expr
  reads : (p.parse text).outcome = .ok (some expr)

namespace Piece

/-- The requests that are made for the piece. -/
def requests (x : p.Piece) : List Request := (p.parse x.text).requests

/-- The kinds of the tokens of the piece. -/
def kinds (x : p.Piece) : List Token.Kind := kindsOf x.text

theorem lexed (x : p.Piece) : Lexed x.text.toList x.kinds := lexed_of_report x.reads

/-- Tokens of the kinds of the piece are read as its expression, also if more expressions may be
    nested and closed tokens are behind them. -/
theorem returns (x : p.Piece) {budget : Nat} (hbudget : p.limits.maxDepth ≤ budget)
    {ts behind : List Token} (hts : ts.map Token.kind = x.kinds) (hbehind : Reading.Closed behind) :
    (Reading.expression p.resolvers budget 0 (ts ++ behind)).Returns x.requests
      (x.expr, behind) := by
  obtain ⟨ts₀, hts₀, hfilter⟩ := returns_of_report x.reads
  have hread : (Reading.expression p.resolvers p.limits.maxDepth 0 ts₀).Returns x.requests
      (x.expr, []) := Reading.expression_returns_of_filter hfilter
  have hkinds := Reading.expression_of_kinds (sameKind_of_kindsOf hts₀ hts) hread
  obtain ⟨_, hreturns, rfl⟩ := Reading.expression_extends hbehind hbudget 0 ts _ _ hkinds
  exact hreturns

/-! ### Pieces in a list -/

theorem closed_of_later {xs : List p.Piece} {ts : List Token} {u : Token}
    (hu : u.kind = .mark .parenClose) (rest : List Token)
    (hts : ts.map Token.kind = xs.flatMap fun x => .mark .comma :: x.kinds) :
    Reading.Closed (ts ++ u :: rest) := by
  cases xs with
  | nil =>
    obtain rfl := List.map_eq_nil_iff.1 hts
    exact Reading.closed_close hu rest
  | cons x xs =>
    obtain ⟨t, ts, rfl, ht, -⟩ := List.map_eq_cons_iff.1 hts
    exact Reading.closed_comma ht (ts ++ u :: rest)

variable {budget : Nat} (hbudget : p.limits.maxDepth ≤ budget) {u : Token}
  (hu : u.kind = .mark .parenClose) (rest : List Token)

include hbudget hu

/-- Pieces behind commas are read one after the other, up to the parenthesis behind them. -/
theorem laterItems_returns {xs : List p.Piece} {ts bound : List Token}
    (hts : ts.map Token.kind = xs.flatMap fun x => .mark .comma :: x.kinds)
    (hbound : ts.length < bound.length) :
    (Reading.laterItems (Reading.expression p.resolvers budget) bound (ts ++ u :: rest)).Returns
      (xs.flatMap requests) (xs.map expr, rest) := by
  induction xs generalizing ts bound with
  | nil =>
    obtain rfl := List.map_eq_nil_iff.1 hts
    cases bound with
    | nil => cases hbound
    | cons b bound => exact Reading.laterItems_returns_of_close hu b bound
  | cons x xs ih =>
    obtain ⟨t, ts, rfl, ht, hts⟩ := List.map_eq_cons_iff.1 hts
    obtain ⟨us, vs, rfl, hus, hvs⟩ := List.map_eq_append_iff.1 hts
    cases bound with
    | nil => cases hbound
    | cons b bound =>
      have hlater : vs.length < bound.length := by
        simp only [List.length_cons, List.length_append] at hbound
        omega
      rw [List.cons_append, List.append_assoc]
      exact Reading.laterItems_returns_of_comma ht
        (x.returns hbudget hus (closed_of_later hu rest hvs)) (ih hvs hlater) b

/-- Pieces with commas between them are read as the list of their expressions. -/
theorem list_returns {xs : List p.Piece} {ts : List Token}
    (hts : ts.map Token.kind = joinKinds (xs.map kinds)) :
    (Reading.list (Reading.expression p.resolvers budget) (ts ++ u :: rest)).Returns
      (xs.flatMap requests) (xs.map expr, rest) := by
  cases xs with
  | nil =>
    obtain rfl := List.map_eq_nil_iff.1 hts
    exact Reading.list_returns_of_close hu
  | cons x xs =>
    rw [List.map_cons, joinKinds, List.flatMap_map] at hts
    obtain ⟨us, vs, rfl, hus, hvs⟩ := List.map_eq_append_iff.1 hts
    have hlater : vs.length < (vs ++ u :: rest).length := by
      rw [List.length_append, List.length_cons]
      omega
    have hfirst := x.returns hbudget hus (closed_of_later hu rest hvs)
    have hread := Reading.expression_gives p.resolvers budget 0 _ _ hfirst.outcome
    rw [List.append_assoc]
    exact Reading.list_returns_of_items (hread.startsWith_close (.inr (.inr ⟨0, rfl⟩))) hfirst
      (laterItems_returns hbudget hu rest hvs hlater)

end Piece

/-! ## Groups of tokens -/

/-- Kinds of tokens in parentheses. -/
def groupKinds (kinds : List Token.Kind) : List Token.Kind :=
  .mark .parenOpen :: (kinds ++ [.mark .parenClose])

/-- Tokens in parentheses, in front of others. -/
theorem exists_of_groupKinds {kinds more : List Token.Kind} {ts : List Token}
    (h : ts.map Token.kind = groupKinds kinds ++ more) :
    ∃ t us u vs, ts = t :: (us ++ u :: vs) ∧ t.kind = .mark .parenOpen ∧
      us.map Token.kind = kinds ∧ u.kind = .mark .parenClose ∧ vs.map Token.kind = more := by
  rw [groupKinds, List.cons_append, List.append_assoc] at h
  obtain ⟨t, ts, rfl, ht, hts⟩ := List.map_eq_cons_iff.1 h
  obtain ⟨us, ws, rfl, hus, hws⟩ := List.map_eq_append_iff.1 hts
  obtain ⟨u, vs, rfl, hu, hvs⟩ := List.map_eq_cons_iff.1 hws
  exact ⟨t, us, u, vs, rfl, ht, hus, hu, hvs⟩

namespace Piece

variable {budget : Nat} (hbudget : p.limits.maxDepth ≤ budget)

include hbudget

/-- A piece in parentheses is an operand. -/
theorem operand_returns (x : p.Piece) {ts : List Token} {more : List Token.Kind}
    (hts : ts.map Token.kind = groupKinds x.kinds ++ more) :
    ∃ vs, vs.map Token.kind = more ∧
      (Reading.operand p.resolvers (Reading.expression p.resolvers budget) ts).Returns x.requests
        (x.expr, vs) := by
  obtain ⟨t, us, u, vs, rfl, ht, hus, hu, hvs⟩ := exists_of_groupKinds hts
  have hinner := x.returns hbudget hus (Reading.closed_close hu vs)
  exact ⟨vs, hvs, Reading.operand_returns_of_parens ht hu hinner⟩

/-- A piece in parentheses is an expression of any level. -/
theorem expression_returns (x : p.Piece) (minPower : Nat) {ts : List Token}
    (hts : ts.map Token.kind = groupKinds x.kinds) :
    (Reading.expression p.resolvers (budget + 1) minPower ts).Returns x.requests (x.expr, []) := by
  rw [← List.append_nil (groupKinds x.kinds)] at hts
  obtain ⟨vs, hvs, hread⟩ := x.operand_returns hbudget hts
  obtain rfl := List.map_eq_nil_iff.1 hvs
  exact Reading.expression_returns_of_operand hread rfl

/-- Pieces in parentheses with commas between them, behind the first parenthesis. -/
theorem list_returns_of_group {xs : List p.Piece} {ts : List Token}
    (hts : ts.map Token.kind = groupKinds (joinKinds (xs.map kinds))) :
    ∃ t us, ts = t :: us ∧ t.kind = .mark .parenOpen ∧
      (Reading.list (Reading.expression p.resolvers budget) us).Returns (xs.flatMap requests)
        (xs.map expr, []) := by
  rw [← List.append_nil (groupKinds _)] at hts
  obtain ⟨t, us, u, vs, rfl, ht, hus, hu, hvs⟩ := exists_of_groupKinds hts
  obtain rfl := List.map_eq_nil_iff.1 hvs
  exact ⟨t, _, rfl, ht, list_returns hbudget hu [] hus⟩

end Piece

/-! ## Texts put together of pieces -/

/-- The text of pieces with commas between them. -/
def Piece.listText (xs : List p.Piece) : String := Text.Segments.join ',' (xs.map text)

theorem Piece.lexed_listText (xs : List p.Piece) :
    Lexed (listText xs).toList (joinKinds (xs.map kinds)) := by
  have hkinds : (xs.map text).map kindsOf = xs.map kinds := List.map_map
  rw [← hkinds]
  apply Lexer.lexed_join
  intro text htext
  obtain ⟨x, -, rfl⟩ := List.mem_map.1 htext
  exact x.lexed

/-- A text put together of pieces by an operator or a call. -/
inductive Composite (p : Parser) where
  | binary (left : p.Piece) (op : Operator) (binary : op.isUnary = false)
      (single : op.takesValues = false) (right : p.Piece)
  | membership (left : p.Piece) (op : Operator) (values : op.takesValues = true)
      (items : List p.Piece)
  | not (inner : p.Piece)
  | neg (inner : p.Piece)
  | call (name : String) (isName : Token.NameText name)
      (plain : name ∉ ["not", "true", "false", "null", "NaN", "INF"]) (args : List p.Piece)

namespace Composite

/-- How it is written. -/
def text : p.Composite → String
  | binary left op _ _ right => "(" ++ left.text ++ ") " ++ op.keyword ++ " (" ++ right.text ++ ")"
  | membership left op _ items =>
    "(" ++ left.text ++ ") " ++ op.keyword ++ " (" ++ Piece.listText items ++ ")"
  | not inner => "not (" ++ inner.text ++ ")"
  | neg inner => "-(" ++ inner.text ++ ")"
  | call name _ _ args => name ++ "(" ++ Piece.listText args ++ ")"

/-- What it stands for. Only a call may stand for nothing: the method resolver has the answer. -/
def answer : p.Composite → Except MethodError Expr
  | binary left op _ _ right => .ok (.binary left.expr op right.expr)
  | membership left op _ items => .ok (.binary left.expr op (.collection (items.map Piece.expr)))
  | not inner => .ok (.unary .not inner.expr)
  | neg inner => .ok (.unary .neg inner.expr)
  | call name _ _ args =>
    (p.resolvers.methods.resolve name (args.map Piece.expr)).map Call.toExpr

/-- The requests of the pieces in their order, and behind them the one for the call. -/
def requests : p.Composite → List Request
  | binary left _ _ _ right => left.requests ++ right.requests
  | membership left _ _ items => left.requests ++ items.flatMap Piece.requests
  | not inner | neg inner => inner.requests
  | call name _ _ args => args.flatMap Piece.requests ++ [.method name (args.map Piece.expr)]

/-- The kinds of its tokens. -/
def kinds : p.Composite → List Token.Kind
  | binary left op _ _ right =>
    groupKinds left.kinds ++ .name op.keyword :: groupKinds right.kinds
  | membership left op _ items =>
    groupKinds left.kinds ++ .name op.keyword :: groupKinds (joinKinds (items.map Piece.kinds))
  | not inner => .name Operator.not.keyword :: groupKinds inner.kinds
  | neg inner => .mark .minus :: groupKinds inner.kinds
  | call name _ _ args => .name name :: groupKinds (joinKinds (args.map Piece.kinds))

theorem lexed (c : p.Composite) : Lexed c.text.toList c.kinds := by
  cases c with
  | binary left op hop _ right =>
    have : Lexed _ _ := LexedBy.operator tokenByToken_lexes hop
      (.parens tokenByToken_lexes left.lexed) (.parens tokenByToken_lexes right.lexed)
    simpa [text, kinds, groupKinds] using this
  | membership left op hv items =>
    have : Lexed _ _ := LexedBy.operator tokenByToken_lexes (Operator.isUnary_of_takesValues hv)
      (.parens tokenByToken_lexes left.lexed)
      (.parens tokenByToken_lexes (Piece.lexed_listText items))
    simpa [text, kinds, groupKinds] using this
  | not inner =>
    have : Lexed _ _ := LexedBy.not tokenByToken_lexes (.parens tokenByToken_lexes inner.lexed)
    simpa [text, kinds, groupKinds, Operator.keyword] using this
  | neg inner =>
    have : Lexed _ _ := LexedBy.minus tokenByToken_lexes (Token.unsigned_parens inner.text)
      (.parens tokenByToken_lexes inner.lexed)
    simpa [text, kinds, groupKinds] using this
  | call name hname hplain args =>
    have hconstant : Token.constant? name = none := by
      unfold Token.constant?
      split <;> first | rfl | exact absurd hplain (by decide)
    exact LexedBy.call tokenByToken_lexes (Token.lexeme_name hname hconstant false)
      (Piece.lexed_listText args)

/-- Tokens of its kinds are read as its answer. Both operands of an operator are in parentheses, and
    the right one is an expression of its own: this takes two more expressions than the pieces. -/
theorem leadsTo (c : p.Composite) {ts : List Token} (hts : ts.map Token.kind = c.kinds) :
    (Reading.expression p.resolvers (p.limits.maxDepth + 2) 0 ts).LeadsTo c.requests
      ((c.answer.mapError Reading.Fault.method).map (·, [])) := by
  have hbudget := Nat.le_succ p.limits.maxDepth
  cases c with
  | binary left op hop hv right =>
    obtain ⟨vs, hvs, hleft⟩ := left.operand_returns hbudget hts
    obtain ⟨t, ts', rfl, ht, hts'⟩ := List.map_eq_cons_iff.1 hvs
    refine Reading.expression_returns_of_operator hleft 
      (Reading.nextOperator?_keyword ht hop) ?_
    rw [if_neg (by rw [hv]; decide)]
    exact right.expression_returns (Nat.le_refl _) _ hts'
  | membership left op hv items =>
    obtain ⟨vs, hvs, hleft⟩ := left.operand_returns hbudget hts
    obtain ⟨t, ts', rfl, ht, hts'⟩ := List.map_eq_cons_iff.1 hvs
    have hop := Operator.isUnary_of_takesValues hv
    refine Reading.expression_returns_of_operator hleft 
      (Reading.nextOperator?_keyword ht hop) ?_
    rw [if_pos hv]
    obtain ⟨u, us, rfl, hu, hlist⟩ := Piece.list_returns_of_group hbudget hts'
    exact Reading.valueList_returns_of_list hu hlist
  | not inner =>
    obtain ⟨t, ts, rfl, ht, hts⟩ := List.map_eq_cons_iff.1 hts
    have hop : t.kind.unary? = some .not := by rw [ht]; rfl
    have hinner := inner.expression_returns (Nat.le_refl _) Operator.not.operandPower hts
    exact Reading.expression_returns_of_operand (Reading.operand_returns_of_unary hop hinner) rfl
  | neg inner =>
    obtain ⟨t, ts, rfl, ht, hts⟩ := List.map_eq_cons_iff.1 hts
    have hop : t.kind.unary? = some .neg := by rw [ht]; rfl
    have hinner := inner.expression_returns (Nat.le_refl _) Operator.neg.operandPower hts
    exact Reading.expression_returns_of_operand (Reading.operand_returns_of_unary hop hinner) rfl
  | call name _ hplain args =>
    obtain ⟨t, ts, rfl, ht, hts⟩ := List.map_eq_cons_iff.1 hts
    have hnot : name ≠ "not" := by
      rintro rfl
      exact hplain List.mem_cons_self
    obtain ⟨u, us, rfl, hu, hlist⟩ := Piece.list_returns_of_group hbudget hts
    exact Reading.expression_leadsTo_of_call ht hnot hu hlist

theorem kinds_ne_nil (c : p.Composite) : c.kinds ≠ [] := by
  cases c <;> exact List.cons_ne_nil _ _

end Composite

/-- A text put together of pieces is read as what is put together of their expressions, if two more
    expressions may be nested. The requests are those of the pieces in their order; for a call, the
    one to the method resolver is the last one, and its answer is the outcome. -/
theorem parse_composite (c : p.Composite) {maxLength : Nat}
    (hlength : c.text.toList.length ≤ maxLength) :
    let q : Parser := ⟨p.resolvers, ⟨p.limits.maxDepth + 2, maxLength⟩⟩
    (q.parse c.text).outcome = (c.answer.mapError ParseError.ofMethodError).map some ∧
      (q.parse c.text).requests = c.requests := by
  intro q
  obtain ⟨ts, hts, hkinds⟩ := tokens_of_lexed (p := q) c.lexed hlength
  have hne : ts ≠ [] := by
    rintro rfl
    exact c.kinds_ne_nil hkinds.symm
  obtain ⟨houtcome, hrequests⟩ :=
    report_of_leadsTo Reading.filter hts (Reading.filter_leadsTo hne (c.leadsTo hkinds))
  refine ⟨houtcome.trans ?_, hrequests⟩
  cases c.answer with
  | ok e => rfl
  | error e => rfl

/-- A value list of a sum with a call in it and of a minus, behind the same minus. -/
theorem parse_composite_membership :
    let minus : Expr := .unary .neg (.member ⟨["a", "b"]⟩)
    let sum : Expr := .binary (.call "length" [.member ⟨["c"]⟩]) .add (.literal (.int 5))
    let report := (⟨standard.resolvers, ⟨66, 8192⟩⟩ : Parser).parse
      "(-a/b) nin (length(c) add 5,-a/b)"
    report.outcome = .ok (some (.binary minus .notIn (.collection [sum, minus]))) ∧
      report.requests = [.member ["a", "b"], .member ["c"], .method "length" [.member ⟨["c"]⟩],
        .member ["a", "b"]] := by
  intro minus sum report
  let first : standard.Piece := ⟨"-a/b", minus, rfl⟩
  let second : standard.Piece := ⟨"length(c) add 5", sum, rfl⟩
  let whole : standard.Composite := .membership first .notIn rfl [second, first]
  have htext : whole.text = "(-a/b) nin (length(c) add 5,-a/b)" := by decide +kernel
  have hlength : whole.text.toList.length ≤ 8192 := by decide +kernel
  have hfirst : (standard.parse "-a/b").requests = [.member ["a", "b"]] := rfl
  have hsecond : (standard.parse "length(c) add 5").requests =
      [.member ["c"], .method "length" [.member ⟨["c"]⟩]] := rfl
  obtain ⟨houtcome, hrequests⟩ := parse_composite whole hlength
  rw [htext] at houtcome hrequests
  refine ⟨houtcome, hrequests.trans ?_⟩
  show (standard.parse "-a/b").requests ++ ((standard.parse "length(c) add 5").requests ++
    ((standard.parse "-a/b").requests ++ [])) = _
  rw [hfirst, hsecond]
  rfl

end Parser

end QueryExpr
