import QueryExpr.Proofs.Answers
import QueryExpr.Proofs.Budgets
import QueryExpr.Proofs.Operands
import QueryExpr.Proofs.Spacing

/-!
# Flat expressions

Operands with binary operators between them nest expressions although there is nothing to nest: a
right operand is an expression of its own. But it is read for a larger minimum than the expression
that it is part of, and there are six levels of operators, so no more than seven expressions are
ever nested, however long the chain is and in whatever order its operators stand.

* `Flat`: operands with binary operators between them, of which none takes a value list.
* `Reading.expression_flat`: a budget that covers the levels above the minimum is enough.
* `Parser.parse_flat`: under a limit of seven a flat text is read, unless it is too long. Six are
  too few.
-/

namespace QueryExpr

namespace Token.Kind

/-- Whether a token is an operand by itself: a literal, or a name that is no operator. -/
def IsOperand : Token.Kind → Prop
  | literal _ => True
  | name word => Operator.ofKeyword? word = none
  | mark _ => False

/-- Whether a token is a binary operator between two operands. -/
def Joins (k : Token.Kind) : Prop := ∃ op, k.binary? = some op ∧ op.takesValues = false

end Token.Kind

/-- Operands with binary operators between them, without parentheses, calls or unary operators. -/
inductive Flat : List Token → Prop where
  | operand {t} (ht : t.kind.IsOperand) : Flat [t]
  | joined {t u ts} (ht : t.kind.IsOperand) (hu : u.kind.Joins) (more : Flat ts) :
      Flat (t :: u :: ts)

/-- What can stand behind an operand of a flat expression. -/
inductive FlatRest : List Token → Prop where
  | nil : FlatRest []
  | joined {u ts} (hu : u.kind.Joins) (more : Flat ts) : FlatRest (u :: ts)

namespace Flat

variable {ts : List Token}

theorem eq_cons (h : Flat ts) :
    ∃ t rest, ts = t :: rest ∧ t.kind.IsOperand ∧ FlatRest rest := by
  cases h with
  | operand ht => exact ⟨_, [], rfl, ht, .nil⟩
  | joined ht hu more => exact ⟨_, _, rfl, ht, .joined hu more⟩

end Flat

namespace Reading

open Run (outcome_bind_ok outcome_enter)

/-- Whether the literals among the tokens have values. -/
def Valued (ts : List Token) : Prop :=
  ∀ t ∈ ts, ∀ raw, t.kind = .literal raw → ∃ l, raw.value = .ok l

theorem Valued.of_suffix {ts rest : List Token} (h : Valued ts) (hrest : rest <:+ ts) :
    Valued rest :=
  fun t ht => h t (hrest.subset ht)

/-- A reader takes flat tokens up to an operator that does not reach the minimum, if there is one,
    and does not fail. -/
def TakesFlat (run : Reader Expr) (minPower : Nat) (ts : List Token) : Prop :=
  ∃ e rest, (run ts).outcome = .ok (e, rest) ∧ rest <:+ ts ∧ FlatRest rest ∧
    nextOperator? minPower rest = none

/-- No parenthesis stands behind an operand. -/
theorem startsWith_flatRest {ts : List Token} (h : FlatRest ts) :
    startsWith .parenOpen ts = false := by
  cases h with
  | nil => rfl
  | joined hu _ =>
    obtain ⟨op, hop, -⟩ := hu
    obtain ⟨word, hword, -⟩ := binary?_eq_some hop
    simp [startsWith, hword]

variable {r : Resolvers} {sub : Nat → Reader Expr} {minPower : Nat} {ts : List Token}

theorem operand_flat (hr : r.Accepting) (sub : Nat → Reader Expr) (h : Flat ts)
    (hvalued : Valued ts) :
    ∃ e rest, (operand r sub ts).outcome = .ok (e, rest) ∧ rest <:+ ts ∧ FlatRest rest := by
  obtain ⟨t, rest, rfl, ht, hrest⟩ := h.eq_cons
  have hread : ∃ e, (operand r sub (t :: rest)).outcome = .ok (e, rest) := by
    cases hk : t.kind with
    | literal raw =>
      obtain ⟨l, hl⟩ := hvalued t List.mem_cons_self raw hk
      exact ⟨_, operand_of_literal hk hl⟩
    | name word =>
      rw [hk] at ht
      obtain ⟨m, hm⟩ := hr.member_ok (pathSegments word)
      exact ⟨_, operand_of_member hk ht (startsWith_flatRest hrest) hm⟩
    | mark m =>
      rw [hk] at ht
      exact ht.elim
  obtain ⟨e, he⟩ := hread
  exact ⟨e, rest, he, List.suffix_cons t rest, hrest⟩

/-- A chain takes as many operators as reach the minimum, if the right operands of these are
    taken. -/
theorem chain_flat
    (hsub : ∀ op : Operator, minPower / 2 < op.precedence → op.precedence ≤ 6 →
      ∀ ts, Flat ts → Valued ts → TakesFlat (sub op.rightPower) op.rightPower ts)
    (bound : List Token) (left : Expr) (h : FlatRest ts) (hvalued : Valued ts)
    (hbound : ts.length ≤ bound.length) : TakesFlat (chain sub minPower bound left) minPower ts := by
  induction bound generalizing left ts with
  | nil =>
    obtain rfl := List.eq_nil_of_length_eq_zero (Nat.le_zero.1 hbound)
    exact ⟨left, [], rfl, List.suffix_rfl, .nil, rfl⟩
  | cons b bound ih =>
    cases hnext : nextOperator? minPower ts with
    | none => exact ⟨left, ts, by rw [chain_of_none hnext]; rfl, List.suffix_rfl, h, hnext⟩
    | some op =>
      obtain ⟨hlevel, hsix⟩ := level_of_nextOperator? hnext
      cases h with
      | nil => cases hnext
      | @joined u ts hu hflat =>
        obtain ⟨op', hop', hvalues⟩ := hu
        obtain rfl : op' = op :=
          Option.some.inj (hop'.symm.trans (nextOperator?_eq_some.1 hnext).1)
        obtain ⟨right, ts', hright, hsuffix, hrest, -⟩ :=
          hsub op' hlevel hsix ts hflat (hvalued.of_suffix (List.suffix_cons u ts))
        have hsuffix' : ts' <:+ u :: ts := hsuffix.trans (List.suffix_cons u ts)
        have hlength : ts'.length ≤ bound.length := by
          have := hsuffix.length_le
          simp only [List.length_cons] at hbound
          omega
        obtain ⟨e, rest, he, hsuffix'', hrest', hnone⟩ :=
          ih (.binary left op' right) hrest (hvalued.of_suffix hsuffix') hlength
        refine ⟨e, rest, ?_, hsuffix''.trans hsuffix', hrest', hnone⟩
        rw [chain_of_some hnext, hvalues]
        exact (outcome_bind_ok hright _).trans he

/-- The minimum grows by a level with each expression that a right operand nests, so a budget that
    covers the levels above the minimum covers all that are nested. -/
theorem expression_flat (hr : r.Accepting) (budget : Nat) (hpositive : 1 ≤ budget)
    (hbudget : 7 ≤ budget + minPower / 2) (h : Flat ts) (hvalued : Valued ts) :
    TakesFlat (expression r budget minPower) minPower ts := by
  induction budget generalizing minPower ts with
  | zero => omega
  | succ budget ih =>
    obtain ⟨left, ts', hleft, hsuffix, hrest⟩ := operand_flat hr (expression r budget) h
      hvalued
    have hsub : ∀ op : Operator, minPower / 2 < op.precedence → op.precedence ≤ 6 →
        ∀ ts, Flat ts → Valued ts →
          TakesFlat (expression r budget op.rightPower) op.rightPower ts := by
      intro op hlevel hsix ts hflat hvalued
      have hhalf := rightPower_half op
      exact ih (by omega) (by omega) hflat hvalued
    obtain ⟨e, rest, he, hsuffix', hrest', hnone⟩ := chain_flat hsub ts' left hrest
      (hvalued.of_suffix hsuffix) (Nat.le_refl _)
    refine ⟨e, rest, ?_, hsuffix'.trans hsuffix, hrest', hnone⟩
    rw [Reading.expression, outcome_bind_ok (outcome_enter _), outcome_bind_ok hleft]
    exact he

/-- Every binary operator reaches the least minimum. -/
theorem eq_nil_of_flatRest (h : FlatRest ts) (hnone : nextOperator? 0 ts = none) : ts = [] := by
  cases h with
  | nil => rfl
  | @joined u ts hu _ =>
    obtain ⟨op, hop, -⟩ := hu
    have hfront : frontOperator? (u :: ts) = some op := hop
    have hleast := frontOperator?_precedence hfront
    have hmost := nextOperator?_eq_none.1 hnone op hfront
    omega

theorem filter_flat (hr : r.Accepting) {budget : Nat} (hbudget : 7 ≤ budget) (h : Flat ts)
    (hvalued : Valued ts) : ∃ e, (filter r budget ts).outcome = .ok (some e) := by
  obtain ⟨e, rest, he, -, hrest, hnone⟩ := expression_flat hr budget (by omega)
    (show 7 ≤ budget + 0 / 2 from hbudget) h hvalued
  obtain rfl := eq_nil_of_flatRest hrest hnone
  obtain ⟨t, ts', rfl, -, -⟩ := h.eq_cons
  refine ⟨e, ?_⟩
  rw [filter, if_neg (by simp), outcome_bind_ok he]
  rfl

end Reading

namespace Parser

/-- Under a limit of seven or more, a flat text is a filter unless it is too long, whatever its
    length and the order of its operators. It is never nested too deeply. -/
theorem parse_flat (p : Parser) (hr : p.resolvers.Accepting) (hdepth : 7 ≤ p.limits.maxDepth)
    {text : String} {ts : List Token} (hts : Lexer.tokenize text = .ok ts) (hflat : Flat ts) :
    ∃ e, (p.parse text).outcome =
      if p.limits.maxLength < text.toList.length then
        .error (.lex ⟨.tooLong p.limits.maxLength, p.limits.maxLength⟩)
      else .ok (some e) := by
  have hvalued := value_of_cuts (Lexer.cuts_of_tokenize hts)
  obtain ⟨e, he⟩ := Reading.filter_flat hr hdepth hflat hvalued
  refine ⟨e, ?_⟩
  rw [parse, report, tokens, hts]
  by_cases hlong : p.limits.maxLength < text.toList.length
  · simp only [if_pos hlong]
  · simp only [if_neg hlong]
    exact Reading.Run.mapError_eq_ok.2 he

/-- An operator of each level nests seven expressions if the loosest one comes first. -/
theorem parse_flat_levels :
    ∃ e, ((⟨.transparent, ⟨7, 100⟩⟩ : Parser).parse
      "a or b and 1 eq c lt d add e mul 'f'").outcome = .ok (some e) := by
  have hflat : ∃ ts, Lexer.tokenize "a or b and 1 eq c lt d add e mul 'f'" = .ok ts ∧ Flat ts :=
    ⟨_, rfl, .joined rfl ⟨.or, rfl, rfl⟩ <| .joined rfl ⟨.and, rfl, rfl⟩ <|
      .joined trivial ⟨.eq, rfl, rfl⟩ <| .joined rfl ⟨.lt, rfl, rfl⟩ <|
      .joined rfl ⟨.add, rfl, rfl⟩ <| .joined rfl ⟨.mul, rfl, rfl⟩ <| .operand trivial⟩
  obtain ⟨ts, hts, hflat⟩ := hflat
  have haccepting := Resolvers.transparent_transparent.accepting
  exact parse_flat ⟨.transparent, ⟨7, 100⟩⟩ haccepting (Nat.le_refl 7) hts hflat

/-- Under a limit of six the seventh expression is nested too deeply. -/
example : ((⟨.transparent, ⟨6, 100⟩⟩ : Parser).parse
    "a or b and 1 eq c lt d add e mul 'f'").TooDeep 6 :=
  ⟨_, rfl⟩

end Parser

end QueryExpr
