import QueryExpr.Proofs.Reads

/-!
# What the readers of whole queries do

A filter is one expression. An ordering and a selection are items with commas between them, each
of which is an expression and what may stand behind it. As for expressions, there is one rule for
each way to go on, without limits.

* `ReadsOrderItem`, `ReadsSelectItem`: the rules for items.
* `ReadBy`: a reader gives what some rules read, and nothing else.
* `ReadsFilter`, `ReadsList`, `ReadsWhole`: the rules for filters and for lists of items.
* `filter_of_reads`, `ReadsWhole.returns`: what they read is read if the budget covers the tokens.
-/

namespace QueryExpr.Reading

open Run (outcome_bind_ok)

variable {α : Type} {r : Resolvers}

/-- Rules say what is read off the first tokens, with which requests, and which tokens are left. -/
abbrev Rules (α : Type) := List Token → List Request → α → List Token → Prop

/-! ## Items -/

/-- An item of an ordering is an expression and, if there is one, a direction. -/
inductive ReadsOrderItem (r : Resolvers) : Rules OrderItem where
  | directed {ts qs e t direction rest} (expr : Reads r (.expression 0) ts qs e (t :: rest))
      (ht : t.kind.word?.bind Direction.ofKeyword? = some direction) :
      ReadsOrderItem r ts qs ⟨e, direction⟩ rest
  | plain {ts qs e rest} (expr : Reads r (.expression 0) ts qs e rest)
      (hrest : (word? rest).bind Direction.ofKeyword? = none) :
      ReadsOrderItem r ts qs ⟨e, .standard⟩ rest

/-- An item of a selection is an expression and, behind the word `as`, a name for it. -/
inductive ReadsSelectItem (r : Resolvers) : Rules SelectItem where
  | named {ts qs e t u name rest} (expr : Reads r (.expression 0) ts qs e (t :: u :: rest))
      (ht : t.kind.word? = some "as") (hu : u.kind.word? = some name)
      (hname : isItemName name = true) : ReadsSelectItem r ts qs ⟨e, some name⟩ rest
  | plain {ts qs e rest} (expr : Reads r (.expression 0) ts qs e rest)
      (hrest : word? rest ≠ some "as") : ReadsSelectItem r ts qs ⟨e, none⟩ rest

/-- What the reader gives is read by the rules, and what they read is given within a budget that
    covers the tokens. Each item takes a token. -/
structure ReadBy (item : Nat → Reader α) (rules : Rules α) : Prop where
  gives : ∀ budget ts, (item budget ts).Gives fun qs x => rules ts qs x.1 x.2
  returns : ∀ {ts qs a rest}, rules ts qs a rest → ∀ budget, ts.length ≤ budget →
    (item budget ts).outcome = .ok (a, rest)
  length_lt : ∀ {ts qs a rest}, rules ts qs a rest → rest.length < ts.length

theorem Reads.expression_returns {ts rest : List Token} {qs : List Request} {e : Expr}
    (h : Reads r (.expression 0) ts qs e rest) {budget : Nat} (hb : ts.length ≤ budget) :
    (Reading.expression r budget 0 ts).outcome = .ok (e, rest) :=
  h.returns budget (Nat.le_trans hb (Nat.le_add_right _ _))

theorem Reads.expression_length_lt {ts rest : List Token} {qs : List Request} {e : Expr}
    (h : Reads r (.expression 0) ts qs e rest) : rest.length < ts.length :=
  h.length_lt (by rintro _ _ ⟨⟩)

theorem word?_eq_some {ts : List Token} {word : String} :
    word? ts = some word ↔ ∃ t rest, ts = t :: rest ∧ t.kind.word? = some word := by
  cases ts <;> simp [word?]

theorem orderItem_readBy (r : Resolvers) : ReadBy (orderItem r) (ReadsOrderItem r) where
  gives budget ts := by
    refine (expression_gives r budget 0 ts).bind ?_
    rintro qs ⟨e, rest⟩ he
    dsimp only
    split
    next direction hdirection =>
      refine .pure ?_
      rw [List.append_nil]
      cases rest with
      | nil => cases hdirection
      | cons t rest => exact .directed he hdirection
    next hnone =>
      refine .pure ?_
      rw [List.append_nil]
      exact .plain he hnone
  returns h budget hb := by
    cases h with
    | directed expr ht =>
      refine (outcome_bind_ok (expr.expression_returns hb) _).trans ?_
      simp [word?, ht]
    | plain expr hrest =>
      refine (outcome_bind_ok (expr.expression_returns hb) _).trans ?_
      simp [hrest]
  length_lt h := by
    cases h with
    | directed expr _ =>
      have := expr.expression_length_lt
      simp only [List.length_cons] at this
      omega
    | plain expr _ => exact expr.expression_length_lt

theorem itemName_gives (ts : List Token) : (itemName ts).Gives fun qs x =>
    qs = [] ∧ isItemName x.1 = true ∧ ∃ u, ts = u :: x.2 ∧ u.kind.word? = some x.1 := by
  unfold itemName
  split
  next word hword =>
    obtain ⟨u, rest, rfl, hu⟩ := word?_eq_some.1 hword
    split
    next hname => exact .pure ⟨rfl, hname, u, rfl, hu⟩
    next => exact .missing
  next => exact .missing

theorem selectItem_readBy (r : Resolvers) : ReadBy (selectItem r) (ReadsSelectItem r) where
  gives budget ts := by
    refine (expression_gives r budget 0 ts).bind ?_
    rintro qs ⟨e, rest⟩ he
    dsimp only
    split
    next has =>
      obtain ⟨t, rest, rfl, ht⟩ := word?_eq_some.1 has
      refine (itemName_gives rest).bind ?_
      rintro _ ⟨name, rest'⟩ ⟨rfl, hname, u, rfl, hu⟩
      refine .pure ?_
      simpa using ReadsSelectItem.named he ht hu hname
    next hnone =>
      refine .pure ?_
      rw [List.append_nil]
      exact .plain he hnone
  returns := by
    intro ts qs a rest h budget hb
    cases h with
    | @named _ _ e t u name _ expr ht hu hname =>
      refine (outcome_bind_ok (expr.expression_returns hb) _).trans ?_
      have has : word? (t :: u :: rest) = some "as" := ht
      have hread : (itemName (u :: rest)).outcome = .ok (name, rest) := by
        have hword : word? (u :: rest) = some name := hu
        simp [itemName, hword, hname]
      simp only [has, if_true, List.tail_cons]
      exact (outcome_bind_ok hread _).trans rfl
    | plain expr hrest =>
      refine (outcome_bind_ok (expr.expression_returns hb) _).trans ?_
      simp [hrest]
  length_lt h := by
    cases h with
    | named expr _ _ _ =>
      have := expr.expression_length_lt
      simp only [List.length_cons] at this
      omega
    | plain expr _ => exact expr.expression_length_lt

/-! ## Filters -/

/-- A filter is an expression or nothing. -/
inductive ReadsFilter (r : Resolvers) : List Token → List Request → Option Expr → Prop where
  | none : ReadsFilter r [] [] none
  | some {ts qs e} (expr : Reads r (.expression 0) ts qs e []) : ReadsFilter r ts qs (some e)

theorem inputEnd_gives (ts : List Token) : (inputEnd ts).Gives fun qs _ => qs = [] ∧ ts = [] := by
  cases ts with
  | nil => exact .pure ⟨rfl, rfl⟩
  | cons t rest =>
    rw [inputEnd]
    split
    · exact .fail
    · exact .missing

theorem filter_reads (r : Resolvers) (budget : Nat) (ts : List Token) :
    (filter r budget ts).Gives fun qs e? => ReadsFilter r ts qs e? := by
  cases ts with
  | nil => exact .pure .none
  | cons t ts =>
    refine (expression_gives r budget 0 (t :: ts)).bind ?_
    rintro qs ⟨e, rest⟩ he
    refine (inputEnd_gives rest).bind ?_
    rintro _ ⟨⟩ ⟨rfl, rfl⟩
    refine .pure ?_
    simpa using ReadsFilter.some he

theorem filter_of_reads {ts : List Token} {qs : List Request} {e : Expr}
    (h : Reads r (.expression 0) ts qs e []) {budget : Nat} (hb : ts.length ≤ budget) :
    (filter r budget ts).outcome = .ok (some e) := by
  have hlt := h.expression_length_lt
  cases ts with
  | nil => cases hlt
  | cons t ts => exact (outcome_bind_ok (h.expression_returns hb) _).trans rfl

/-! ## Lists of items -/

section

variable (rules : Rules α)

/-- Items with commas between them, and no comma behind the last one. -/
inductive ReadsList : List Token → List Request → List α → List Token → Prop where
  | last {ts qs a rest} (item : rules ts qs a rest) (hrest : startsWith .comma rest = false) :
      ReadsList ts qs [a] rest
  | next {ts qs a u ts' qs' as rest} (item : rules ts qs a (u :: ts'))
      (hu : u.kind = .mark .comma) (more : ReadsList ts' qs' as rest) :
      ReadsList ts (qs ++ qs') (a :: as) rest

/-- Items that are all of the tokens, or nothing. -/
inductive ReadsWhole : List Token → List Request → List α → Prop where
  | none : ReadsWhole [] [] []
  | some {ts qs as} (list : ReadsList rules ts qs as []) : ReadsWhole ts qs as

end

section

variable {item : Nat → Reader α} {rules : Rules α} (hitem : ReadBy item rules)

include hitem

theorem ReadsList.length_lt {ts rest : List Token} {qs : List Request} {as : List α}
    (h : ReadsList rules ts qs as rest) : rest.length < ts.length := by
  induction h with
  | last h _ => exact hitem.length_lt h
  | next h _ _ ih =>
    have := hitem.length_lt h
    simp only [List.length_cons] at this
    omega

theorem separated_reads (budget : Nat) {limit : Nat} {ts : List Token} (hl : ts.length < limit) :
    (separated (item budget) limit ts).Gives fun qs x => ReadsList rules ts qs x.1 x.2 := by
  induction limit generalizing ts with
  | zero => omega
  | succ limit ih =>
    refine (hitem.gives budget ts).bind ?_
    rintro qs ⟨a, rest⟩ ha
    have hlt := hitem.length_lt ha
    dsimp only at ha hlt ⊢
    split
    next hcomma =>
      obtain ⟨u, rest, rfl, hu⟩ := startsWith_eq_true.1 hcomma
      have hrest : rest.length < limit := by
        rw [List.length_cons] at hlt
        omega
      refine (ih hrest).bind ?_
      rintro qs' ⟨as, rest'⟩ has
      refine .pure ?_
      rw [List.append_nil]
      exact .next ha hu has
    next hcomma =>
      refine .pure ?_
      rw [List.append_nil]
      exact .last ha (by simpa using hcomma)

theorem wholeList_reads (budget : Nat) (ts : List Token) :
    (wholeList (item budget) ts).Gives fun qs as => ReadsWhole rules ts qs as := by
  cases ts with
  | nil => exact .pure .none
  | cons t ts =>
    refine (separated_reads hitem budget (Nat.lt_succ_self _)).bind ?_
    rintro qs ⟨as, rest⟩ has
    refine (inputEnd_gives rest).bind ?_
    rintro _ ⟨⟩ ⟨rfl, rfl⟩
    refine .pure ?_
    simpa using ReadsWhole.some has

theorem ReadsList.returns {ts rest : List Token} {qs : List Request} {as : List α}
    (h : ReadsList rules ts qs as rest) {budget limit : Nat} (hb : ts.length ≤ budget)
    (hl : ts.length < limit) : (separated (item budget) limit ts).outcome = .ok (as, rest) := by
  induction h generalizing limit with
  | last h hrest =>
    cases limit with
    | zero => omega
    | succ limit =>
      refine (outcome_bind_ok (hitem.returns h budget hb) _).trans ?_
      simp [hrest]
  | @next ts qs a u ts' qs' as rest h hu more ih =>
    have hlt := hitem.length_lt h
    rw [List.length_cons] at hlt
    cases limit with
    | zero => omega
    | succ limit =>
      refine (outcome_bind_ok (hitem.returns h budget hb) _).trans ?_
      simp only [startsWith_cons hu, if_true, List.tail_cons]
      exact (outcome_bind_ok (ih (by omega) (by omega)) _).trans rfl

theorem wholeList_of_reads {ts : List Token} {qs : List Request} {as : List α}
    (h : ReadsList rules ts qs as []) {budget : Nat} (hb : ts.length ≤ budget) :
    (wholeList (item budget) ts).outcome = .ok as := by
  have hlt := h.length_lt hitem
  cases ts with
  | nil => cases hlt
  | cons t ts => exact (outcome_bind_ok (h.returns hitem hb (Nat.lt_succ_self _)) _).trans rfl

end

end QueryExpr.Reading
