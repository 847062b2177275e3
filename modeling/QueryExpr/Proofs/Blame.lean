import QueryExpr.Parser
import QueryExpr.Proofs.Completion

/-!
# The place of a syntax error

Where a reader stops, nothing could have gone on: the token there is the one that is told, or there
is none, and the tokens in front of it are the beginning of something that is read.

* `Problem.At`: what a problem says of the tokens at its place.
* `Run.Blames`: where a run puts the blame, and what is in front of it.
* `expression_blames`: how expressions do so; likewise filters and lists of items.
* `SyntaxError.PointsInto`: what the error tells of its place.
* `Parser.errorsPointInto_of_accepting`: it does so in each parser that refuses no name.
-/

namespace QueryExpr

namespace Reading

/-- What the problem says of the tokens that are left. -/
def Problem.At (rest : List Token) : Problem → Prop
  | .unexpected _ found => ∃ t ts, rest = t :: ts ∧ t.kind = found
  | .ended _ => rest = []
  | .unmatchedClose => ∃ t ts, rest = t :: ts ∧ t.kind = .mark .parenClose
  | .tooDeep => True

/-- If the tokens `ts` are to blame for the fault of a run, what it says of the tokens left is so,
    and `Before` holds of those in front of them. -/
def Run.Blames {α : Type} (run : Run α) (ts : List Token) (Before : List Token → Prop) : Prop :=
  ∀ problem left, run.outcome = .error (.grammar problem left) →
    ∃ before rest, ts = before ++ rest ∧ left = rest.length ∧ problem.At rest ∧ Before before

variable {α β : Type}

namespace Run.Blames

variable {ts : List Token} {run : Run α} {Before Before' : List Token → Prop}

theorem pure {a : α} : (pure a : Run α).Blames ts Before := by
  rintro _ _ ⟨⟩

theorem failAt {problem : Problem} (hat : problem.At ts) (h : Before []) :
    (failAt problem ts : Run α).Blames ts Before := by
  rintro _ _ ⟨⟩
  exact ⟨[], ts, rfl, rfl, hat, h⟩

theorem missing {wanted : Wanted} (h : Before []) :
    (missing wanted ts : Run α).Blames ts Before := by
  cases ts with
  | nil => exact failAt rfl h
  | cons t ts => exact failAt ⟨t, ts, rfl, rfl⟩ h

theorem bind {f : α → Run β} {P : List Request → α → Prop} (h : run.Blames ts Before)
    (hP : run.Gives P) (hf : ∀ qs a, P qs a → (f a).Blames ts Before) :
    (run >>= f).Blames ts Before := by
  intro problem left hfault
  cases hrun : run.outcome with
  | ok a =>
    rw [outcome_bind_ok hrun] at hfault
    exact hf _ a (hP a hrun) problem left hfault
  | error e =>
    rw [bind_error hrun] at hfault
    exact h problem left (hrun.trans (congrArg Except.error (Except.error.inj hfault)))

/-- The rule for a run after which nothing can fail. -/
theorem bind_last {f : α → Run β} (h : run.Blames ts Before) (hf : ∀ a, (f a).Blames ts Before) :
    (run >>= f).Blames ts Before :=
  h.bind (P := fun _ _ => True) (fun _ _ => trivial) fun _ a _ => hf a

/-- The rule for what cannot fail, or fails for another reason than the tokens. -/
theorem innocent_bind {f : α → Run β}
    (h : ∀ problem left, run.outcome ≠ .error (.grammar problem left))
    (hf : ∀ a, (f a).Blames ts Before) : (run >>= f).Blames ts Before :=
  bind_last (fun problem left hfault => absurd hfault (h problem left)) hf

theorem enter_bind {phase : Phase} {f : Unit → Run β} (hf : (f ()).Blames ts Before) :
    (Run.enter phase >>= f).Blames ts Before :=
  innocent_bind (by rintro _ _ ⟨⟩) fun _ => hf

theorem mark_bind {m : Mark} {wanted : Wanted} {f : Unit × List Token → Run β} (h : Before [])
    (hf : ∀ t rest, ts = t :: rest → t.kind = .mark m → (f ((), rest)).Blames ts Before) :
    (mark m wanted ts >>= f).Blames ts Before := by
  refine bind (P := fun _ x => ∃ t, ts = t :: x.2 ∧ t.kind = .mark m) ?_ ?_ ?_
  · cases ts with
    | nil => exact missing h
    | cons t rest =>
      rw [mark]
      split
      · exact pure
      · exact missing h
  · rintro ⟨⟨⟩, rest⟩ hrest
    exact mark_eq_ok.1 hrest
  · rintro _ ⟨⟨⟩, rest⟩ ⟨t, hts, ht⟩
    exact hf t rest hts ht

theorem mono (h : run.Blames ts Before')
    (himp : ∀ before rest, ts = before ++ rest → Before' before → Before before) :
    run.Blames ts Before := by
  intro problem left hfault
  obtain ⟨before, rest, hts, hleft, hat, hbefore⟩ := h problem left hfault
  exact ⟨before, rest, hts, hleft, hat, himp before rest hts hbefore⟩

/-- The rule for tokens in front of which others have been read. -/
theorem append (consumed : List Token)
    (h : run.Blames ts fun before => Before (consumed ++ before)) :
    run.Blames (consumed ++ ts) Before := by
  intro problem left hfault
  obtain ⟨before, rest, rfl, hleft, hat, hbefore⟩ := h problem left hfault
  exact ⟨consumed ++ before, rest, (List.append_assoc _ _ _).symm, hleft, hat, hbefore⟩

theorem cons {t : Token} (h : run.Blames ts fun before => Before (t :: before)) :
    run.Blames (t :: ts) Before :=
  append [t] h

/-- The rule for a reader and what is read of the tokens that it leaves. -/
theorem behind {rules : Rules α} (hrules : Resumes rules) {run : Run (α × List Token)}
    {f : α × List Token → Run β} (h : run.Blames ts Before)
    (hgives : run.Gives fun qs x => rules ts qs x.1 x.2)
    (hf : ∀ consumed rest qs a, rules (consumed ++ rest) qs a rest →
      (f (a, rest)).Blames rest fun before => Before (consumed ++ before)) :
    (run >>= f).Blames ts Before := by
  refine bind h hgives ?_
  rintro qs ⟨a, rest⟩ ha
  obtain ⟨consumed, rfl⟩ := hrules.exists_consumed ha
  exact append consumed (hf consumed rest qs a ha)

end Run.Blames

/-! ## Expressions -/

section

variable {r : Resolvers} {sub : Nat → Reader Expr}
  (hsub : ∀ minPower ts, (sub minPower ts).Gives fun qs x =>
    Reads r (.expression minPower) ts qs x.1 x.2)
  (hblames : ∀ minPower ts, (sub minPower ts).Blames ts
    (Completable (Reads r (.expression minPower))))

include hsub hblames

/-- The items behind the first one, which is in front of the tokens. -/
theorem laterItems_blames (bound : List Token) {consumed ts : List Token} {qs : List Request}
    {e : Expr} (he : Reads r (.expression 0) (consumed ++ ts) qs e ts) :
    (laterItems sub bound ts).Blames ts fun before =>
      Completable (Reads r .items) (consumed ++ before) := by
  induction bound generalizing consumed ts qs e with
  | nil => exact .enter_bind (.missing he.completable_items)
  | cons b bound ih =>
    refine .enter_bind ?_
    show Run.Blames (if startsWith .comma ts then _ else _) _ _
    split
    next hcomma =>
      obtain ⟨u, ts, rfl, hu⟩ := startsWith_eq_true.1 hcomma
      refine .cons (.behind (resumes_reads r _) ?_ (hsub 0 ts) fun c rest qs' e' he' => ?_)
      · exact (hblames 0 ts).mono fun before _ _ hbefore => .nextItem he hu hbefore.lastItem
      · refine .bind_last ?_ fun _ => .pure
        exact (ih he').mono fun before _ _ hbefore => .nextItem he hu hbefore
    next => exact .mark_bind he.completable_items fun _ _ _ _ => .pure

/-- What stands behind an opening parenthesis. -/
theorem list_blames {t : Token} (ht : t.kind = .mark .parenOpen) (ts : List Token) :
    (list sub ts).Blames ts fun before => Completable (Reads r .values) (t :: before) := by
  refine .enter_bind ?_
  show Run.Blames (if startsWith .parenClose ts then _ else _) _ _
  split
  · exact .pure
  · refine .behind (resumes_reads r _) ?_ (hsub 0 ts) fun c rest qs e he => ?_
    · exact (hblames 0 ts).mono fun before _ _ hbefore => .values ht hbefore.lastItem
    · refine .bind_last ?_ fun _ => .pure
      exact (laterItems_blames hsub hblames rest he).mono fun before _ _ hbefore =>
        .values ht hbefore

theorem valueList_blames (ts : List Token) :
    (valueList sub ts).Blames ts (Completable (Reads r .values)) := by
  refine .mark_bind completable_values fun t rest hts ht => ?_
  subst hts
  exact .cons (.bind_last (list_blames hsub hblames ht rest) fun _ => .enter_bind .pure)

omit hsub hblames in
theorem literalValue_innocent (raw : Literal.Raw) (span : Span) (problem : Problem) (left : Nat) :
    (literalValue raw span).outcome ≠ .error (.grammar problem left) := by
  unfold literalValue
  split <;> rintro ⟨⟩

omit hsub hblames in
theorem member_blames (word : String) (ts : List Token) (Before : List Token → Prop) :
    (member r word).Blames ts Before := by
  refine .enter_bind (.innocent_bind ?_ fun _ => .enter_bind .pure)
  intro problem left hfault
  obtain ⟨e, -, he⟩ := Run.mapError_eq_error.1 hfault
  cases he

omit hsub hblames in
theorem call_blames (word : String) (args : List Expr) (ts : List Token)
    (Before : List Token → Prop) : (call r word args).Blames ts Before := by
  refine .innocent_bind ?_ fun _ => .enter_bind .pure
  intro problem left hfault
  obtain ⟨e, -, he⟩ := Run.mapError_eq_error.1 hfault
  cases he

theorem primary_blames (hr : r.Accepting) {t : Token} (ht : t.kind.unary? = none)
    (ts : List Token) :
    (primary r sub (t :: ts)).Blames (t :: ts) (Completable (Reads r .operand)) := by
  rw [primary]
  split
  next raw hraw => exact .innocent_bind (literalValue_innocent raw t.span) fun _ => .pure
  next hopen =>
    refine .cons (.behind (resumes_reads r _) ?_ (hsub 0 ts) fun c rest qs e he => ?_)
    · exact (hblames 0 ts).mono fun before _ _ hbefore => hbefore.parens hopen
    · dsimp only
      split
      · exact .pure
      · refine .missing ?_
        rw [List.append_nil]
        exact ((resumes_reads r _).completable he).parens hopen
  next => exact .missing (completable_operand hr)
  next word hword =>
    have hnot := ne_not_of_unary? ht hword
    split
    next hopen =>
      obtain ⟨u, ts, rfl, hu⟩ := startsWith_eq_true.1 hopen
      refine .bind_last ?_ fun x => .bind_last (call_blames word x.1 _ _) fun _ => .pure
      refine .cons (.cons ?_)
      exact (list_blames hsub hblames hu ts).mono fun before _ _ hbefore =>
        .call hr hword hnot hbefore
    next =>
      split
      · exact .missing (completable_operand hr)
      · exact .bind_last (member_blames word _ _) fun _ => .pure

theorem operand_blames (hr : r.Accepting) (ts : List Token) :
    (operand r sub ts).Blames ts (Completable (Reads r .operand)) := by
  cases ts with
  | nil =>
    rw [operand]
    exact .missing (completable_operand hr)
  | cons t ts =>
    rw [operand]
    split
    next op hop =>
      refine .cons (.bind_last ?_ fun _ => .pure)
      exact (hblames op.operandPower ts).mono fun before _ _ hbefore => .unary hop hbefore
    next hop => exact primary_blames hsub hblames hr hop ts

/-- A chain takes an operator before it can fail. -/
theorem chain_blames (minPower : Nat) (bound : List Token) (left : Expr)
    (ts : List Token) : (chain sub minPower bound left ts).Blames ts fun before =>
      before ≠ [] ∧ Completable (Reads r (.chain minPower left)) before := by
  induction bound generalizing left ts with
  | nil => exact .pure
  | cons b bound ih =>
    cases hop : nextOperator? minPower ts with
    | none =>
      rw [chain_of_none hop]
      exact .pure
    | some op =>
      obtain ⟨t, ts, rfl⟩ := eq_cons_of_nextOperator? hop
      have hop' : nextOperator? minPower [t] = some op := hop
      rw [chain_of_some hop]
      refine .cons ?_
      split
      next hv =>
        refine .behind (resumes_reads r _) ?_ ((Reads.layer r).valueList_gives hsub ts) fun c rest qs e he => ?_
        · exact (valueList_blames hsub hblames ts).mono fun before _ _ hbefore =>
            ⟨List.cons_ne_nil _ _, .membership hop' hv hbefore⟩
        · refine (ih (.binary left op e) rest).mono ?_
          rintro before _ rfl ⟨hne, hbefore⟩
          exact ⟨List.cons_ne_nil _ _, .membershipBehind hne hop' hv he hbefore⟩
      next hv =>
        have hv' : op.takesValues = false := by simpa using hv
        refine .behind (resumes_reads r _) ?_ (hsub op.rightPower ts) fun c rest qs e he => ?_
        · exact (hblames op.rightPower ts).mono fun before _ _ hbefore =>
            ⟨List.cons_ne_nil _ _, .binary hop' hv' hbefore⟩
        · refine (ih (.binary left op e) rest).mono ?_
          rintro before _ rfl ⟨hne, hbefore⟩
          exact ⟨List.cons_ne_nil _ _, .binaryBehind hne hop' hv' he hbefore⟩

end

/-- Where an expression fails, the tokens in front are the beginning of one. -/
theorem expression_blames {r : Resolvers} (hr : r.Accepting) (budget minPower : Nat)
    (ts : List Token) : (expression r budget minPower ts).Blames ts
      (Completable (Reads r (.expression minPower))) := by
  induction budget generalizing minPower ts with
  | zero => exact .failAt trivial (completable_operand hr).expression
  | succ budget ih =>
    have hsub := expression_gives r budget
    refine .enter_bind (.behind (resumes_reads r _) ?_ ((Reads.layer r).operand_gives hsub ts) ?_)
    · exact (operand_blames hsub ih hr ts).mono fun before _ _ hbefore => hbefore.expression
    · intro c rest qs left hleft
      refine (chain_blames hsub ih minPower rest left rest).mono ?_
      rintro before _ rfl ⟨hne, hbefore⟩
      exact .chainBehind hne hleft hbefore

/-! ## Filters, orderings and selections -/

/-- Where there are tokens too many, what is in front of them is all that was wanted. -/
theorem inputEnd_blames (ts : List Token) : (inputEnd ts).Blames ts fun before => before = [] := by
  cases ts with
  | nil => exact .pure
  | cons t ts =>
    rw [inputEnd]
    split
    next ht => exact .failAt ⟨t, ts, rfl, ht⟩ rfl
    next => exact .missing rfl

theorem filter_blames {r : Resolvers} (hr : r.Accepting) (budget : Nat) (ts : List Token) :
    (filter r budget ts).Blames ts (Completable (Reads r (.expression 0))) := by
  cases ts with
  | nil => exact .pure
  | cons t ts =>
    refine .behind (resumes_reads r _) (expression_blames hr budget 0 (t :: ts))
      (expression_gives r budget 0 (t :: ts)) fun c rest qs e he => ?_
    refine .bind_last ?_ fun _ => .pure
    refine (inputEnd_blames rest).mono ?_
    rintro _ _ - rfl
    rw [List.append_nil]
    exact (resumes_reads r _).completable he

theorem orderItem_blames {r : Resolvers} (hr : r.Accepting) (budget : Nat) (ts : List Token) :
    (orderItem r budget ts).Blames ts (Completable (ReadsOrderItem r)) := by
  refine .bind_last ?_ fun x => ?_
  · exact (expression_blames hr budget 0 ts).mono fun _ _ _ hbefore =>
      completable_orderItem hbefore
  · dsimp only
    split <;> exact .pure

theorem itemName_blames (ts : List Token) : (itemName ts).Blames ts fun before => before = [] := by
  unfold itemName
  split
  · split
    · exact .pure
    · exact .missing rfl
  · exact .missing rfl

theorem selectItem_blames {r : Resolvers} (hr : r.Accepting) (budget : Nat) (ts : List Token) :
    (selectItem r budget ts).Blames ts (Completable (ReadsSelectItem r)) := by
  refine .behind (resumes_reads r _) ?_ (expression_gives r budget 0 ts) fun c rest qs e he => ?_
  · exact (expression_blames hr budget 0 ts).mono fun _ _ _ hbefore =>
      completable_selectItem hbefore
  · dsimp only
    split
    next has =>
      obtain ⟨t, rest, rfl, ht⟩ := word?_eq_some.1 has
      refine .cons (.bind_last ?_ fun _ => .pure)
      refine (itemName_blames rest).mono ?_
      rintro _ _ - rfl
      exact completable_named he ht
    next => exact .pure

section

variable {item : Nat → Reader α} {rules : Rules α} (hrules : Resumes rules)
  (hitem : ReadBy item rules)
  (hblames : ∀ budget ts, (item budget ts).Blames ts (Completable rules))

include hrules hitem hblames

theorem separated_blames (budget limit : Nat) (ts : List Token) :
    (separated (item budget) limit ts).Blames ts (BeginsList rules) := by
  induction limit generalizing ts with
  | zero => exact .pure
  | succ limit ih =>
    refine .behind hrules ?_ (hitem.gives budget ts) fun c rest qs a ha => ?_
    · exact (hblames budget ts).mono fun _ _ _ hbefore => .ofItem hbefore
    · dsimp only
      split
      next hcomma =>
        obtain ⟨u, rest, rfl, hu⟩ := startsWith_eq_true.1 hcomma
        refine .cons (.bind_last ?_ fun _ => .pure)
        exact (ih rest).mono fun _ _ _ hbefore => .next hrules ha hu hbefore
      next => exact .pure

theorem wholeList_blames (budget : Nat) (ts : List Token) :
    (wholeList (item budget) ts).Blames ts (BeginsList rules) := by
  cases ts with
  | nil => exact .pure
  | cons t ts =>
    refine .bind (separated_blames hrules hitem hblames budget _ (t :: ts))
      (separated_reads hitem budget (Nat.lt_succ_self _)) ?_
    rintro qs ⟨as, rest⟩ has
    obtain ⟨c, hc, hlist⟩ := has.exists_consumed hrules
    dsimp only at hc ⊢
    rw [hc]
    refine .append c (.bind_last ?_ fun _ => .pure)
    refine (inputEnd_blames rest).mono ?_
    rintro _ _ - rfl
    rw [List.append_nil]
    exact ⟨[], qs, as, by rwa [List.append_nil]⟩

end

/-- A fault that is an error in the tokens is one of the grammar. -/
theorem Fault.eq_grammar_of_toError {f : Fault} {text : String} {count limit : Nat} {e : SyntaxError}
    (h : f.toError text count limit = .grammar e) :
    ∃ problem left, f = .grammar problem left ∧
      e = ⟨problem.toCause count limit, count - left⟩ := by
  cases f with
  | grammar problem left =>
    cases h
    exact ⟨problem, left, rfl, rfl⟩
  | literal => cases h
  | member => cases h
  | method e => cases e <;> cases h

/-- The reader makes something of the tokens within any budget that covers them. -/
def Accepts (read : Nat → List Token → Run α) (ts : List Token) : Prop :=
  ∃ a, ∀ budget, ts.length ≤ budget → (read budget ts).outcome = .ok a

end Reading

/-! ## Errors -/

open Reading (Accepts)

/-- The error points at the right one of the tokens: a token that is told is the one there, an
    end that is told is that of the tokens, and what is in front of the place could have gone on to
    be accepted. A parenthesis said to close nothing is there. -/
structure SyntaxError.PointsInto (e : SyntaxError) (ts : List Token)
    (Accepted : List Token → Prop) : Prop where
  index_le : e.tokenIndex ≤ ts.length
  found : ∀ s, e.cause.found? = some s → ∃ t, ts[e.tokenIndex]? = some t ∧ t.text = s
  ended : e.cause.expected?.isSome = true → e.cause.found? = none → e.tokenIndex = ts.length
  unmatched : e.cause = .unmatchedClose →
    ∃ t, ts[e.tokenIndex]? = some t ∧ t.kind = .mark .parenClose
  before : ∃ more, Accepted (ts.take e.tokenIndex ++ more)

theorem SyntaxError.pointsInto_of_at {problem : Reading.Problem} {before rest : List Token}
    {Accepted : List Token → Prop} (hat : problem.At rest) (h : ∃ more, Accepted (before ++ more))
    (limit : Nat) :
    PointsInto ⟨problem.toCause (before ++ rest).length limit,
      (before ++ rest).length - rest.length⟩ (before ++ rest) Accepted := by
  have hindex : (before ++ rest).length - rest.length = before.length := by simp
  have hfront : ∀ t ts, rest = t :: ts → (before ++ rest)[before.length]? = some t := by
    rintro t ts rfl
    simp
  refine ⟨?_, ?_, ?_, ?_, ?_⟩
  · exact Nat.sub_le _ _
  · intro s hs
    dsimp only at hs ⊢
    rw [hindex]
    cases problem with
    | unexpected wanted found =>
      obtain ⟨t, ts, hrest, rfl⟩ := hat
      exact ⟨t, hfront t ts hrest, Option.some.inj hs⟩
    | _ => cases hs
  · intro hexpected hfound
    cases problem with
    | ended wanted =>
      obtain rfl : rest = [] := hat
      rfl
    | unexpected => cases hfound
    | _ => cases hexpected
  · intro hcause
    dsimp only at hcause ⊢
    rw [hindex]
    cases problem with
    | unmatchedClose =>
      obtain ⟨t, ts, hrest, ht⟩ := hat
      exact ⟨t, hfront t ts hrest, ht⟩
    | _ => cases hcause
  · dsimp only
    rw [hindex, List.take_left]
    exact h

theorem Reading.Run.Blames.pointsInto {α : Type} {run : Reading.Run α} {ts : List Token}
    {Before Accepted : List Token → Prop} (h : run.Blames ts Before)
    (himp : ∀ before, Before before → ∃ more, Accepted (before ++ more)) {text : String}
    {limit : Nat} {e : SyntaxError}
    (he : run.outcome.mapError (Fault.toError text ts.length limit) = .error (.grammar e)) :
    e.PointsInto ts Accepted := by
  obtain ⟨f, hrun, hf⟩ := Reading.Run.mapError_eq_error.1 he
  obtain ⟨problem, left, rfl, rfl⟩ := Reading.Fault.eq_grammar_of_toError hf
  obtain ⟨before, rest, rfl, rfl, hat, hbefore⟩ := h problem left hrun
  exact SyntaxError.pointsInto_of_at hat (himp before hbefore) limit

namespace Parser

/-- Wherever the parser finds an error in the tokens of the text, it points at the right one. -/
structure ErrorsPointInto (p : Parser) (text : String) (ts : List Token) : Prop where
  filter : ∀ e, (p.parse text).outcome = .error (.grammar e) →
    e.PointsInto ts (Accepts (Reading.filter p.resolvers))
  ordering : ∀ e, (p.parseOrderBy text).outcome = .error (.grammar e) →
    e.PointsInto ts (Accepts (Reading.ordering p.resolvers))
  selection : ∀ e, (p.parseSelect text).outcome = .error (.grammar e) →
    e.PointsInto ts (Accepts (Reading.selection p.resolvers))

theorem report_pointsInto (p : Parser) {text : String} {ts : List Token}
    (hts : Lexer.tokenize text = .ok ts) {α : Type} (mode : Reading.Mode)
    (read : Resolvers → Nat → List Token → Reading.Run α) {Before : List Token → Prop}
    (hread : (read p.resolvers p.limits.maxDepth ts).Blames ts Before)
    (himp : ∀ before, Before before → ∃ more, Accepts (read p.resolvers) (before ++ more))
    (e : SyntaxError) (he : (p.report mode read text).outcome = .error (.grammar e)) :
    e.PointsInto ts (Accepts (read p.resolvers)) := by
  rw [report, tokens] at he
  split at he
  next e' hlex => cases he
  next ts' hlex =>
    split at hlex
    · cases hlex
    · obtain rfl : ts = ts' := Except.ok.inj (hts.symm.trans hlex)
      exact hread.pointsInto himp he

/-- If no name is refused, an error points at the first token that cannot go on. -/
theorem errorsPointInto_of_accepting (p : Parser) (h : p.resolvers.Accepting) {text : String}
    {ts : List Token} (hts : Lexer.tokenize text = .ok ts) : p.ErrorsPointInto text ts where
  filter := by
    refine p.report_pointsInto hts .filter Reading.filter (Reading.filter_blames h _ ts) ?_
    rintro before ⟨more, hmore⟩
    obtain ⟨qs, e, he⟩ := hmore [] Reading.closed_nil
    rw [List.append_nil] at he
    exact ⟨more, some e, fun budget hb => Reading.filter_of_reads he hb⟩
  ordering := by
    refine p.report_pointsInto hts .ordering Reading.ordering (Reading.wholeList_blames
      (Reading.resumes_orderItem _) (Reading.orderItem_readBy _) (Reading.orderItem_blames h) _ ts) ?_
    rintro before ⟨more, qs, as, has⟩
    exact ⟨more, as, fun budget hb => Reading.wholeList_of_reads (Reading.orderItem_readBy _) has hb⟩
  selection := by
    refine p.report_pointsInto hts .selection Reading.selection (Reading.wholeList_blames
      (Reading.resumes_selectItem _) (Reading.selectItem_readBy _) (Reading.selectItem_blames h) _ ts)
      ?_
    rintro before ⟨more, qs, as, has⟩
    exact ⟨more, as, fun budget hb =>
      Reading.wholeList_of_reads (Reading.selectItem_readBy _) has hb⟩

/-- A name for what is read can only stand in a selection, and a number is none. -/
theorem errorsPointInto_of_accepting_alias :
    let p : Parser := ⟨.transparent, .standard⟩
    let text := "f(a) as 1"
    let tokens : List Token := [⟨.name "f", ⟨0, 1⟩⟩, ⟨.mark .parenOpen, ⟨1, 2⟩⟩,
      ⟨.name "a", ⟨2, 3⟩⟩, ⟨.mark .parenClose, ⟨3, 4⟩⟩, ⟨.name "as", ⟨5, 7⟩⟩,
      ⟨.literal ⟨"1", .int⟩, ⟨8, 9⟩⟩]
    p.ErrorsPointInto text tokens ∧
      (p.parse text).outcome = .error (.grammar ⟨.unexpected "end of input" "as", 4⟩) ∧
      (p.parseOrderBy text).outcome = .error (.grammar ⟨.unexpected "end of input" "as", 4⟩) ∧
      (p.parseSelect text).outcome = .error (.grammar ⟨.unexpected "an alias" "1", 5⟩) :=
  ⟨errorsPointInto_of_accepting _ Resolvers.transparent_transparent.accepting rfl, rfl, rfl, rfl⟩

end Parser

end QueryExpr
