import QueryExpr.Proofs.Answers
import QueryExpr.Proofs.Items

/-!
# Completing the beginning of a query

What is read of some tokens depends on the others only by the first of them, and on none of them if
they begin with a closing parenthesis or a comma. So the beginning of an expression, up to wherever
a reader has come in it, is completed by what the reader still needs.

* `Closed`: tokens that end whatever is in front of them.
* `Resumes`: by some rules, what is left may be replaced.
* `Completable`: some tokens can be completed, whatever closed tokens are behind them.
* `completable_operand`, `Completable.expression` and others: the beginnings of each part.
* `completable_orderItem`, `completable_selectItem`: those of items.
-/

namespace QueryExpr.Reading

variable {α β : Type}

/-! ## What is behind -/

/-- The tokens end whatever is in front of them: there are none, or the first of them is a closing
    parenthesis or a comma. -/
def Closed (ts : List Token) : Prop :=
  ∀ t ∈ ts.head?, t.kind = .mark .parenClose ∨ t.kind = .mark .comma

theorem closed_nil : Closed [] := by rintro _ ⟨⟩

theorem closed_close {t : Token} (ht : t.kind = .mark .parenClose) (ts : List Token) :
    Closed (t :: ts) := by
  rintro _ ⟨⟩
  exact .inl ht

theorem closed_comma {t : Token} (ht : t.kind = .mark .comma) (ts : List Token) :
    Closed (t :: ts) := by
  rintro _ ⟨⟩
  exact .inr ht

/-- The tokens `rest'` may stand where `rest` does: they are closed, or begin in the same way. -/
def MayReplace (rest' rest : List Token) : Prop :=
  Closed rest' ∨ ∃ t ts ts', rest = t :: ts ∧ rest' = t :: ts'

section

variable {rest rest' : List Token}

theorem mayReplace_of_front {front : List Token} (h : front ≠ []) (ts ts' : List Token) :
    MayReplace (front ++ ts') (front ++ ts) := by
  obtain ⟨t, front, rfl⟩ := List.exists_cons_of_ne_nil h
  exact .inr ⟨t, front ++ ts, front ++ ts', rfl, rfl⟩

theorem MayReplace.append (h : MayReplace rest' rest) (front : List Token) :
    MayReplace (front ++ rest') (front ++ rest) := by
  by_cases hfront : front = []
  · subst hfront
    exact h
  · exact mayReplace_of_front hfront rest rest'

/-- A test of the first token that all closed tokens answer in the same way. -/
theorem MayReplace.test {α : Type} (h : MayReplace rest' rest) (test : List Token → α)
    (hhead : ∀ t ts ts', test (t :: ts) = test (t :: ts')) {answer : α}
    (hclosed : ∀ ts, Closed ts → test ts = answer) (hrest : test rest = answer) :
    test rest' = answer := by
  rcases h with h | ⟨t, ts, ts', rfl, rfl⟩
  · exact hclosed rest' h
  · rw [hhead t ts' ts, hrest]

theorem Closed.startsWith_open (h : Closed rest) : startsWith .parenOpen rest = false := by
  cases rest with
  | nil => rfl
  | cons t ts => rcases h t rfl with ht | ht <;> simp [startsWith, ht]

theorem Closed.word? (h : Closed rest) : word? rest = none := by
  cases rest with
  | nil => rfl
  | cons t ts => rcases h t rfl with ht | ht <;> simp [Reading.word?, Token.Kind.word?, ht]

theorem Closed.nextOperator? (h : Closed rest) (minPower : Nat) :
    nextOperator? minPower rest = none := by
  cases rest with
  | nil => rfl
  | cons t ts =>
    rcases h t rfl with ht | ht <;>
      simp [Reading.nextOperator?, Token.Kind.binary?, Token.Kind.word?, ht]

theorem MayReplace.startsWith_open (h : MayReplace rest' rest)
    (hrest : startsWith .parenOpen rest = false) : startsWith .parenOpen rest' = false :=
  h.test (startsWith .parenOpen) (fun _ _ _ => rfl) (fun _ => Closed.startsWith_open) hrest

theorem MayReplace.nextOperator? (h : MayReplace rest' rest) {minPower : Nat}
    (hrest : nextOperator? minPower rest = none) : nextOperator? minPower rest' = none :=
  h.test (Reading.nextOperator? minPower) (fun _ _ _ => rfl) (fun _ hts => hts.nextOperator? _) hrest

end

/-! ## Replacing what is left -/

/-- What is left is the end of the tokens, and what may replace it may be left instead. -/
def Resumes (rules : Rules α) : Prop :=
  ∀ ⦃ts qs a rest rest'⦄, rules ts qs a rest → MayReplace rest' rest →
    ∃ consumed, ts = consumed ++ rest ∧ rules (consumed ++ rest') qs a rest'

section

variable {rules : Rules α} {ts consumed rest rest' : List Token} {qs : List Request} {a : α}

theorem Resumes.exists_consumed (hrules : Resumes rules) (h : rules ts qs a rest) :
    ∃ consumed, ts = consumed ++ rest := by
  obtain ⟨consumed, hts, -⟩ := hrules h (.inl closed_nil)
  exact ⟨consumed, hts⟩

theorem Resumes.resume (hrules : Resumes rules) (h : rules (consumed ++ rest) qs a rest)
    (hrest : MayReplace rest' rest) : rules (consumed ++ rest') qs a rest' := by
  obtain ⟨consumed', hts, hread⟩ := hrules h hrest
  rwa [← List.append_cancel_right hts] at hread

end

section

variable {r : Resolvers} {part : Part} {ts consumed rest rest' : List Token} {qs : List Request}
  {e : Expr}

theorem resumes_reads (r : Resolvers) (part : Part) : Resumes (Reads r part) := by
  intro ts qs e rest rest' h hrest
  induction h generalizing rest' with
  | expression _ _ ihf ihm =>
    obtain ⟨c, rfl, hmore⟩ := ihm hrest
    obtain ⟨d, rfl, hfirst⟩ := ihf (hrest.append c)
    refine ⟨d ++ c, (List.append_assoc _ _ _).symm, ?_⟩
    rw [List.append_assoc]
    exact .expression hfirst hmore
  | @unary t _ _ _ _ _ ht _ ih =>
    obtain ⟨c, rfl, hinner⟩ := ih hrest
    exact ⟨t :: c, rfl, .unary ht hinner⟩
  | @literal t _ _ _ ht hl => exact ⟨[t], rfl, .literal ht hl⟩
  | @parens t u _ _ _ rest ht _ hu ih =>
    obtain ⟨c, rfl, hinner⟩ := ih (hrest.append [u])
    refine ⟨t :: (c ++ [u]), by simp, ?_⟩
    rw [List.cons_append, List.append_assoc]
    exact .parens ht hinner hu
  | @call t _ _ _ _ _ _ ht hw _ hc ih =>
    obtain ⟨c, rfl, hlist⟩ := ih hrest
    exact ⟨t :: c, rfl, .call ht hw hlist hc⟩
  | @member t _ _ _ ht hw hopen hm =>
    exact ⟨[t], rfl, .member ht hw (hrest.startsWith_open hopen) hm⟩
  | stop hop => exact ⟨[], rfl, .stop (hrest.nextOperator? hop)⟩
  | @binary _ _ _ t _ _ _ _ _ _ _ hop hv _ _ iho ihm =>
    obtain ⟨c, rfl, hmore⟩ := ihm hrest
    obtain ⟨d, rfl, hoperand⟩ := iho (hrest.append c)
    refine ⟨t :: (d ++ c), by simp, ?_⟩
    rw [List.cons_append, List.append_assoc]
    exact .binary hop hv hoperand hmore
  | @membership _ _ _ t _ _ _ _ _ _ _ hop hv _ _ ihl ihm =>
    obtain ⟨c, rfl, hmore⟩ := ihm hrest
    obtain ⟨d, rfl, hlist⟩ := ihl (hrest.append c)
    refine ⟨t :: (d ++ c), by simp, ?_⟩
    rw [List.cons_append, List.append_assoc]
    exact .membership hop hv hlist hmore
  | @noValues t u _ ht hu => exact ⟨[t, u], rfl, .noValues ht hu⟩
  | @values t _ _ _ _ ht _ ih =>
    obtain ⟨c, rfl, hitems⟩ := ih hrest
    exact ⟨t :: c, rfl, .values ht hitems⟩
  | @lastItem _ _ _ u _ _ hu ih =>
    obtain ⟨c, rfl, hitem⟩ := ih (hrest.append [u])
    refine ⟨c ++ [u], by simp, ?_⟩
    rw [List.append_assoc]
    exact .lastItem hitem hu
  | @nextItem _ _ _ u _ _ _ _ _ hu _ ihi ihm =>
    obtain ⟨c, rfl, hmore⟩ := ihm hrest
    obtain ⟨d, rfl, hitem⟩ := ihi ((hrest.append c).append [u])
    refine ⟨d ++ u :: c, by simp, ?_⟩
    rw [List.append_assoc]
    exact .nextItem hitem hu hmore

theorem Reads.resume (h : Reads r part (consumed ++ rest) qs e rest)
    (hrest : MayReplace rest' rest) : Reads r part (consumed ++ rest') qs e rest' :=
  (resumes_reads r part).resume h hrest

theorem Reads.eq_collection (h : Reads r part ts qs e rest)
    (hpart : part = .values ∨ part = .items) : ∃ es, e = .collection es := by
  cases h with
  | noValues | values | lastItem | nextItem => exact ⟨_, rfl⟩
  | _ => simp at hpart

end

/-! ## Beginnings that can be completed -/

/-- Some tokens behind `before` complete what the rules read, so that exactly what is closed is
    left. -/
def Completable (rules : Rules α) (before : List Token) : Prop :=
  ∃ more, ∀ behind, Closed behind → ∃ qs a, rules (before ++ more ++ behind) qs a behind

theorem Completable.mono {rules : Rules α} {rules' : Rules β} {before before' : List Token}
    (h : Completable rules before)
    (himp : ∀ ts rest qs a, Closed rest → rules (before ++ ts) qs a rest →
      ∃ qs b, rules' (before' ++ ts) qs b rest) : Completable rules' before' := by
  obtain ⟨more, hmore⟩ := h
  refine ⟨more, fun behind hbehind => ?_⟩
  obtain ⟨qs, a, ha⟩ := hmore behind hbehind
  rw [List.append_assoc] at ha ⊢
  exact himp _ behind qs a hbehind ha

/-- What is read needs no completion. -/
theorem Resumes.completable {rules : Rules α} (hrules : Resumes rules) {consumed rest : List Token}
    {qs : List Request} {a : α} (h : rules (consumed ++ rest) qs a rest) :
    Completable rules consumed := by
  refine ⟨[], fun behind hbehind => ⟨qs, a, ?_⟩⟩
  rw [List.append_nil]
  exact hrules.resume h (.inl hbehind)

section

variable {r : Resolvers} {t : Token} {before : List Token} {minPower : Nat} {left : Expr}

theorem completable_operand (hr : r.Accepting) : Completable (Reads r .operand) [] := by
  obtain ⟨m, hm⟩ := hr.member_ok (pathSegments "a")
  refine ⟨[⟨.name "a", default⟩], fun behind hbehind => ?_⟩
  have hread : Reads r .operand (⟨.name "a", default⟩ :: behind) _ (.member m) behind :=
    .member rfl rfl hbehind.startsWith_open hm
  exact ⟨_, _, hread⟩

theorem completable_values : Completable (Reads r .values) [] :=
  ⟨[⟨.mark .parenOpen, default⟩, ⟨.mark .parenClose, default⟩],
    fun _ _ => ⟨_, _, .noValues rfl rfl⟩⟩

namespace Completable

theorem expression (h : Completable (Reads r .operand) before) :
    Completable (Reads r (.expression minPower)) before :=
  h.mono fun _ _ _ _ hrest hread => ⟨_, _, .expression hread (.stop (hrest.nextOperator? minPower))⟩

theorem unary {op : Operator} (ht : t.kind.unary? = some op)
    (h : Completable (Reads r (.expression op.operandPower)) before) :
    Completable (Reads r .operand) (t :: before) :=
  h.mono fun _ _ _ _ _ hread => ⟨_, _, .unary ht hread⟩

/-- A closing parenthesis behind an expression is taken with it. -/
theorem close {rules : Rules α} {before' : List Token}
    (h : Completable (Reads r (.expression 0)) before)
    (himp : ∀ ts u rest qs e, u.kind = .mark .parenClose →
      Reads r (.expression 0) (before ++ ts) qs e (u :: rest) →
        ∃ qs a, rules (before' ++ ts) qs a rest) : Completable rules before' := by
  obtain ⟨more, hmore⟩ := h
  refine ⟨more ++ [⟨.mark .parenClose, default⟩], fun behind hbehind => ?_⟩
  obtain ⟨qs, e, he⟩ := hmore (⟨.mark .parenClose, default⟩ :: behind) (closed_close rfl behind)
  rw [List.append_assoc] at he ⊢
  rw [List.append_assoc, List.singleton_append]
  exact himp _ _ behind qs e rfl he

theorem parens (ht : t.kind = .mark .parenOpen)
    (h : Completable (Reads r (.expression 0)) before) :
    Completable (Reads r .operand) (t :: before) :=
  h.close fun _ _ _ _ _ hu hread => ⟨_, _, .parens ht hread hu⟩

theorem lastItem (h : Completable (Reads r (.expression 0)) before) :
    Completable (Reads r .items) before :=
  h.close fun _ _ _ _ _ hu hread => ⟨_, _, .lastItem hread hu⟩

theorem values (ht : t.kind = .mark .parenOpen) (h : Completable (Reads r .items) before) :
    Completable (Reads r .values) (t :: before) := by
  refine h.mono fun ts rest qs e _ hread => ?_
  obtain ⟨es, rfl⟩ := hread.eq_collection (.inr rfl)
  exact ⟨_, _, .values ht hread⟩

theorem call (hr : r.Accepting) {word : String} (ht : t.kind = .name word) (hw : word ≠ "not")
    (h : Completable (Reads r .values) before) : Completable (Reads r .operand) (t :: before) := by
  refine h.mono fun ts rest qs e _ hread => ?_
  obtain ⟨args, rfl⟩ := hread.eq_collection (.inl rfl)
  obtain ⟨c, hc⟩ := hr.method_ok word args
  exact ⟨_, _, .call ht hw hread hc⟩

theorem membership {op : Operator} (hop : nextOperator? minPower [t] = some op)
    (hv : op.takesValues = true) (h : Completable (Reads r .values) before) :
    Completable (Reads r (.chain minPower left)) (t :: before) :=
  h.mono fun _ _ _ _ hrest hread =>
    ⟨_, _, .membership hop hv hread (.stop (hrest.nextOperator? minPower))⟩

theorem binary {op : Operator} (hop : nextOperator? minPower [t] = some op)
    (hv : op.takesValues = false) (h : Completable (Reads r (.expression op.rightPower)) before) :
    Completable (Reads r (.chain minPower left)) (t :: before) :=
  h.mono fun _ _ _ _ hrest hread =>
    ⟨_, _, .binary hop hv hread (.stop (hrest.nextOperator? minPower))⟩

/-! A beginning is also a part that has been read, and the beginning of the part behind it. -/

section

variable {consumed rest : List Token} {qs : List Request} {e : Expr} (hne : before ≠ [])

include hne

theorem chainBehind (h : Reads r .operand (consumed ++ (before ++ rest)) qs left (before ++ rest))
    (hbefore : Completable (Reads r (.chain minPower left)) before) :
    Completable (Reads r (.expression minPower)) (consumed ++ before) := by
  refine hbefore.mono fun ts rest' qs' e _ hmore => ?_
  rw [List.append_assoc]
  exact ⟨_, _, .expression (h.resume (mayReplace_of_front hne rest ts)) hmore⟩

theorem binaryBehind {op : Operator} (hop : nextOperator? minPower [t] = some op)
    (hv : op.takesValues = false)
    (h : Reads r (.expression op.rightPower) (consumed ++ (before ++ rest)) qs e (before ++ rest))
    (hbefore : Completable (Reads r (.chain minPower (.binary left op e))) before) :
    Completable (Reads r (.chain minPower left)) (t :: (consumed ++ before)) := by
  refine hbefore.mono fun ts rest' qs' e' _ hmore => ?_
  rw [List.cons_append, List.append_assoc]
  exact ⟨_, _, .binary hop hv (h.resume (mayReplace_of_front hne rest ts)) hmore⟩

theorem membershipBehind {op : Operator} (hop : nextOperator? minPower [t] = some op)
    (hv : op.takesValues = true)
    (h : Reads r .values (consumed ++ (before ++ rest)) qs e (before ++ rest))
    (hbefore : Completable (Reads r (.chain minPower (.binary left op e))) before) :
    Completable (Reads r (.chain minPower left)) (t :: (consumed ++ before)) := by
  refine hbefore.mono fun ts rest' qs' e' _ hmore => ?_
  rw [List.cons_append, List.append_assoc]
  exact ⟨_, _, .membership hop hv (h.resume (mayReplace_of_front hne rest ts)) hmore⟩

end

theorem nextItem {consumed rest : List Token} {qs : List Request} {e : Expr}
    (h : Reads r (.expression 0) (consumed ++ t :: rest) qs e (t :: rest))
    (ht : t.kind = .mark .comma) (hbefore : Completable (Reads r .items) before) :
    Completable (Reads r .items) (consumed ++ t :: before) := by
  refine hbefore.mono fun ts rest' qs' e' _ hmore => ?_
  obtain ⟨es, rfl⟩ := hmore.eq_collection (.inr rfl)
  rw [List.append_assoc]
  exact ⟨_, _, .nextItem (h.resume (.inr ⟨t, _, _, rfl, rfl⟩)) ht hmore⟩

end Completable

/-- An expression that is read is a list of items but for the closing parenthesis. -/
theorem Reads.completable_items {consumed rest : List Token} {qs : List Request} {e : Expr}
    (h : Reads r (.expression 0) (consumed ++ rest) qs e rest) :
    Completable (Reads r .items) (consumed ++ []) := by
  rw [List.append_nil]
  exact ((resumes_reads r _).completable h).lastItem

end

/-! ## Items and lists of them -/

section

variable {r : Resolvers} {before : List Token}

theorem resumes_orderItem (r : Resolvers) : Resumes (ReadsOrderItem r) := by
  intro ts qs a rest rest' h hrest
  cases h with
  | @directed _ _ _ t _ _ expr ht =>
    obtain ⟨c, rfl, hexpr⟩ := resumes_reads _ _ expr (hrest.append [t])
    refine ⟨c ++ [t], by simp, ?_⟩
    rw [List.append_assoc]
    exact .directed hexpr ht
  | plain expr hdirection =>
    obtain ⟨c, rfl, hexpr⟩ := resumes_reads _ _ expr hrest
    refine ⟨c, rfl, .plain hexpr ?_⟩
    refine hrest.test (fun ts => (word? ts).bind Direction.ofKeyword?) (fun _ _ _ => rfl) ?_ hdirection
    intro ts hts
    simp [hts.word?]

theorem resumes_selectItem (r : Resolvers) : Resumes (ReadsSelectItem r) := by
  intro ts qs a rest rest' h hrest
  cases h with
  | @named _ _ _ t u _ _ expr ht hu hname =>
    obtain ⟨c, rfl, hexpr⟩ := resumes_reads _ _ expr (hrest.append [t, u])
    refine ⟨c ++ [t, u], by simp, ?_⟩
    rw [List.append_assoc]
    exact .named hexpr ht hu hname
  | plain expr has =>
    obtain ⟨c, rfl, hexpr⟩ := resumes_reads _ _ expr hrest
    refine ⟨c, rfl, .plain hexpr ?_⟩
    have hnot := hrest.test (fun ts => decide (word? ts = some "as")) (fun _ _ _ => rfl)
      (fun ts hts => by simp [hts.word?]) (decide_eq_false has)
    exact of_decide_eq_false hnot

theorem completable_orderItem (h : Completable (Reads r (.expression 0)) before) :
    Completable (ReadsOrderItem r) before :=
  h.mono fun _ _ _ _ hrest hread => ⟨_, _, .plain hread (by simp [hrest.word?])⟩

theorem completable_selectItem (h : Completable (Reads r (.expression 0)) before) :
    Completable (ReadsSelectItem r) before :=
  h.mono fun _ _ _ _ hrest hread => ⟨_, _, .plain hread (by simp [hrest.word?])⟩

/-- A name can stand behind `as`. -/
theorem completable_named {t : Token} {rest : List Token} {qs : List Request} {e : Expr}
    (h : Reads r (.expression 0) (before ++ t :: rest) qs e (t :: rest))
    (ht : t.kind.word? = some "as") : Completable (ReadsSelectItem r) (before ++ [t]) := by
  refine ⟨[⟨.name "a", default⟩], fun behind _ => ⟨qs, ⟨e, some "a"⟩, ?_⟩⟩
  simp only [List.append_assoc, List.singleton_append]
  exact .named (h.resume (.inr ⟨t, _, _, rfl, rfl⟩)) ht rfl (by decide)

/-- Items are a list of their own without what is behind them. -/
theorem ReadsList.exists_consumed {rules : Rules α} (hrules : Resumes rules) {ts rest : List Token}
    {qs : List Request} {as : List α} (h : ReadsList rules ts qs as rest) :
    ∃ consumed, ts = consumed ++ rest ∧ ReadsList rules consumed qs as [] := by
  induction h with
  | last item _ =>
    obtain ⟨c, rfl, hitem⟩ := hrules item (.inl closed_nil)
    rw [List.append_nil] at hitem
    exact ⟨c, rfl, .last hitem rfl⟩
  | @next _ _ _ u _ _ _ _ item hu _ ih =>
    obtain ⟨c, rfl, hmore⟩ := ih
    obtain ⟨d, rfl, hitem⟩ := hrules item (.inr ⟨u, _, c, rfl, rfl⟩)
    refine ⟨d ++ u :: c, by simp, .next hitem hu hmore⟩

/-- The tokens are the beginning of a list of items. -/
def BeginsList (rules : Rules α) (before : List Token) : Prop :=
  ∃ more qs as, ReadsList rules (before ++ more) qs as []

theorem BeginsList.ofItem {rules : Rules α} (h : Completable rules before) :
    BeginsList rules before := by
  obtain ⟨more, hmore⟩ := h
  obtain ⟨qs, a, ha⟩ := hmore [] closed_nil
  rw [List.append_nil] at ha
  exact ⟨more, qs, [a], .last ha rfl⟩

theorem BeginsList.next {rules : Rules α} (hrules : Resumes rules) {consumed rest : List Token}
    {qs : List Request} {a : α} {t : Token} (h : rules (consumed ++ t :: rest) qs a (t :: rest))
    (ht : t.kind = .mark .comma) (hbefore : BeginsList rules before) :
    BeginsList rules (consumed ++ t :: before) := by
  obtain ⟨more, qs', as, has⟩ := hbefore
  refine ⟨more, qs ++ qs', a :: as, ?_⟩
  rw [List.append_assoc]
  exact .next (hrules.resume h (.inr ⟨t, rest, before ++ more, rfl, rfl⟩)) ht has

end

end QueryExpr.Reading
