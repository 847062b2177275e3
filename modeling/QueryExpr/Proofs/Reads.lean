import QueryExpr.Proofs.Run

/-!
# What the reader of expressions does

`Reads r part ts qs e rest` says that a part of the reader, put to the tokens `ts`, makes the
requests `qs`, gives the tree `e` and leaves the tokens `rest`. There is one rule for each way to
go on; limits on nesting and on the length of chains do not occur.

* `Reads`: the rules.
* `Layer`: relations that hold of a part of the reader if they hold of the expressions nested in it.
* `expression_gives_of_layers`: such relations hold of what is read.
* `expression_gives`: an expression that is read is read by the rules.
* `Reads.returns`: what the rules read is read if the budget covers the tokens.
-/

namespace QueryExpr.Reading

open Run (mapError_eq_ok)

/-- A part of the reader of expressions. -/
inductive Part where
  /-- An expression whose operators have at least the given left power. -/
  | expression (minPower : Nat)
  | operand
  /-- The operators behind `left` that have at least the given left power. -/
  | chain (minPower : Nat) (left : Expr)
  /-- A value list with its parentheses; its tree is a collection. -/
  | values
  /-- The items of a value list, one at least, and the closing parenthesis. -/
  | items

/-- The part of the reader, put to the first tokens, makes the requests, gives the tree and leaves
    the other tokens. -/
inductive Reads (r : Resolvers) :
    Part → List Token → List Request → Expr → List Token → Prop where
  | expression {minPower ts qs left ts' qs' e rest} (first : Reads r .operand ts qs left ts')
      (more : Reads r (.chain minPower left) ts' qs' e rest) :
      Reads r (.expression minPower) ts (qs ++ qs') e rest
  | unary {t : Token} {op ts qs e rest} (ht : t.kind.unary? = some op)
      (inner : Reads r (.expression op.operandPower) ts qs e rest) :
      Reads r .operand (t :: ts) qs (.unary op e) rest
  | literal {t : Token} {raw l rest} (ht : t.kind = .literal raw) (hl : raw.value = .ok l) :
      Reads r .operand (t :: rest) [] (.literal l) rest
  | parens {t u : Token} {ts qs e rest} (ht : t.kind = .mark .parenOpen)
      (inner : Reads r (.expression 0) ts qs e (u :: rest)) (hu : u.kind = .mark .parenClose) :
      Reads r .operand (t :: ts) qs e rest
  | call {t : Token} {word ts qs args c rest} (ht : t.kind = .name word) (hw : word ≠ "not")
      (list : Reads r .values ts qs (.collection args) rest)
      (hc : r.methods.resolve word args = .ok c) :
      Reads r .operand (t :: ts) (qs ++ [.method word args]) c.toExpr rest
  | member {t : Token} {word m rest} (ht : t.kind = .name word)
      (hw : Operator.ofKeyword? word = none) (hrest : startsWith .parenOpen rest = false)
      (hm : r.members.resolve (pathSegments word) = .ok m) :
      Reads r .operand (t :: rest) [.member (pathSegments word)] (.member m) rest
  | stop {minPower left ts} (h : nextOperator? minPower ts = none) :
      Reads r (.chain minPower left) ts [] left ts
  | binary {minPower left op t ts qs right ts' qs' e rest}
      (h : nextOperator? minPower (t :: ts) = some op) (hop : op.takesValues = false)
      (operand : Reads r (.expression op.rightPower) ts qs right ts')
      (more : Reads r (.chain minPower (.binary left op right)) ts' qs' e rest) :
      Reads r (.chain minPower left) (t :: ts) (qs ++ qs') e rest
  | membership {minPower left op t ts qs right ts' qs' e rest}
      (h : nextOperator? minPower (t :: ts) = some op) (hop : op.takesValues = true)
      (list : Reads r .values ts qs right ts')
      (more : Reads r (.chain minPower (.binary left op right)) ts' qs' e rest) :
      Reads r (.chain minPower left) (t :: ts) (qs ++ qs') e rest
  | noValues {t u : Token} {rest} (ht : t.kind = .mark .parenOpen)
      (hu : u.kind = .mark .parenClose) :
      Reads r .values (t :: u :: rest) [] (.collection []) rest
  | values {t : Token} {ts qs es rest} (ht : t.kind = .mark .parenOpen)
      (list : Reads r .items ts qs (.collection es) rest) :
      Reads r .values (t :: ts) qs (.collection es) rest
  | lastItem {ts qs e u rest} (item : Reads r (.expression 0) ts qs e (u :: rest))
      (hu : u.kind = .mark .parenClose) : Reads r .items ts qs (.collection [e]) rest
  | nextItem {ts qs e u ts' qs' es rest} (item : Reads r (.expression 0) ts qs e (u :: ts'))
      (hu : u.kind = .mark .comma) (more : Reads r .items ts' qs' (.collection es) rest) :
      Reads r .items ts (qs ++ qs') (.collection (e :: es)) rest

namespace Reads

variable {r : Resolvers} {part : Part} {ts rest : List Token} {qs : List Request} {e : Expr}

/-- What is left is an end of the tokens. -/
theorem suffix (h : Reads r part ts qs e rest) : rest <:+ ts := by
  induction h with
  | expression _ _ ihf ihm => exact ihm.trans ihf
  | unary _ _ ih => exact ih.trans (List.suffix_cons _ _)
  | literal _ _ => exact List.suffix_cons _ _
  | parens _ _ _ ih => exact (List.suffix_cons _ _).trans (ih.trans (List.suffix_cons _ _))
  | call _ _ _ _ ih => exact ih.trans (List.suffix_cons _ _)
  | member _ _ _ _ => exact List.suffix_cons _ _
  | stop _ => exact List.suffix_rfl
  | binary _ _ _ _ iho ihm => exact ihm.trans (iho.trans (List.suffix_cons _ _))
  | membership _ _ _ _ ihl ihm => exact ihm.trans (ihl.trans (List.suffix_cons _ _))
  | noValues _ _ => exact (List.suffix_cons _ _).trans (List.suffix_cons _ _)
  | values _ _ ih => exact ih.trans (List.suffix_cons _ _)
  | lastItem _ _ ih => exact (List.suffix_cons _ _).trans ih
  | nextItem _ _ _ ihi ihm => exact ihm.trans ((List.suffix_cons _ _).trans ihi)

theorem length_le (h : Reads r part ts qs e rest) : rest.length ≤ ts.length := h.suffix.length_le

/-- Every part but a chain takes a token. -/
theorem length_lt (h : Reads r part ts qs e rest)
    (hp : ∀ minPower left, part ≠ .chain minPower left) :
    rest.length < ts.length := by
  induction h with
  | expression _ more ihf _ =>
    have := ihf (by rintro _ _ ⟨⟩)
    have := more.length_le
    omega
  | unary _ inner _ | values _ inner _ =>
    have := inner.length_le
    simp only [List.length_cons]
    omega
  | literal _ _ | member _ _ _ _ => exact Nat.lt_succ_self _
  | parens _ inner _ _ =>
    have := inner.length_le
    simp only [List.length_cons] at *
    omega
  | call _ _ list _ _ =>
    have := list.length_le
    simp only [List.length_cons]
    omega
  | stop _ | binary _ _ _ _ _ _ | membership _ _ _ _ _ _ => exact absurd rfl (hp _ _)
  | noValues _ _ =>
    simp only [List.length_cons]
    omega
  | lastItem item _ _ =>
    have := item.length_le
    simp only [List.length_cons] at *
    omega
  | nextItem item _ more _ _ =>
    have := item.length_le
    have := more.length_le
    simp only [List.length_cons] at *
    omega

end Reads

/-! ## Operators at the front -/

/-- The operator of a chain stands at the front of its tokens. -/
theorem eq_cons_of_nextOperator? {minPower : Nat} {ts : List Token} {op : Operator}
    (h : nextOperator? minPower ts = some op) : ∃ t ts', ts = t :: ts' := by
  cases ts with
  | nil => cases h
  | cons t ts' => exact ⟨t, ts', rfl⟩

/-- No unary operator is a name but the word `not`. -/
theorem ne_not_of_unary? {t : Token} {word : String} (h : t.kind.unary? = none)
    (hw : t.kind = .name word) : word ≠ "not" := by
  rintro rfl
  rw [hw] at h
  cases h

/-- A word that is neither a binary operator nor `not` is no operator. -/
theorem ofKeyword?_eq_none {word : String} (hw : word ≠ "not")
    (h : (Operator.binary? word).isSome = false) : Operator.ofKeyword? word = none := by
  cases ho : Operator.ofKeyword? word with
  | none => rfl
  | some op =>
    have hu : op.isUnary = true := by
      cases hu : op.isUnary with
      | true => rfl
      | false => simp [Operator.binary?, ho, hu] at h
    have hk := Operator.keyword_of_ofKeyword? ho
    cases op with
    | not => exact absurd hk.symm hw
    | neg => rw [← hk] at ho; exact absurd ho (by decide)
    | _ => cases hu

/-! ## What is read is read by the rules -/

/-- If `Sub` holds of whatever is read of the expressions nested in a part of the reader, `Rel`
    holds of what is read of the part: one clause for each rule. -/
structure Layer (r : Resolvers) (Sub : Nat → List Token → List Request → Expr → List Token → Prop)
    (Rel : Part → List Token → List Request → Expr → List Token → Prop) : Prop where
  unary {t : Token} {op ts qs e rest} (ht : t.kind.unary? = some op)
    (inner : Sub op.operandPower ts qs e rest) : Rel .operand (t :: ts) qs (.unary op e) rest
  literal {t : Token} {raw l rest} (ht : t.kind = .literal raw) (hl : raw.value = .ok l) :
    Rel .operand (t :: rest) [] (.literal l) rest
  parens {t u : Token} {ts qs e rest} (ht : t.kind = .mark .parenOpen)
    (inner : Sub 0 ts qs e (u :: rest)) (hu : u.kind = .mark .parenClose) :
    Rel .operand (t :: ts) qs e rest
  call {t : Token} {word ts qs args c rest} (ht : t.kind = .name word) (hw : word ≠ "not")
    (list : Rel .values ts qs (.collection args) rest)
    (hc : r.methods.resolve word args = .ok c) :
    Rel .operand (t :: ts) (qs ++ [.method word args]) c.toExpr rest
  member {t : Token} {word m rest} (ht : t.kind = .name word)
    (hw : Operator.ofKeyword? word = none) (hrest : startsWith .parenOpen rest = false)
    (hm : r.members.resolve (pathSegments word) = .ok m) :
    Rel .operand (t :: rest) [.member (pathSegments word)] (.member m) rest
  stop {minPower left ts} (h : nextOperator? minPower ts = none) :
    Rel (.chain minPower left) ts [] left ts
  binary {minPower left op t ts qs right ts' qs' e rest}
    (h : nextOperator? minPower (t :: ts) = some op) (hop : op.takesValues = false)
    (operand : Sub op.rightPower ts qs right ts')
    (more : Rel (.chain minPower (.binary left op right)) ts' qs' e rest) :
    Rel (.chain minPower left) (t :: ts) (qs ++ qs') e rest
  membership {minPower left op t ts qs right ts' qs' e rest}
    (h : nextOperator? minPower (t :: ts) = some op) (hop : op.takesValues = true)
    (list : Rel .values ts qs right ts')
    (more : Rel (.chain minPower (.binary left op right)) ts' qs' e rest) :
    Rel (.chain minPower left) (t :: ts) (qs ++ qs') e rest
  noValues {t u : Token} {rest} (ht : t.kind = .mark .parenOpen)
    (hu : u.kind = .mark .parenClose) : Rel .values (t :: u :: rest) [] (.collection []) rest
  values {t : Token} {ts qs es rest} (ht : t.kind = .mark .parenOpen)
    (list : Rel .items ts qs (.collection es) rest) :
    Rel .values (t :: ts) qs (.collection es) rest
  lastItem {ts qs e u rest} (item : Sub 0 ts qs e (u :: rest)) (hu : u.kind = .mark .parenClose) :
    Rel .items ts qs (.collection [e]) rest
  nextItem {ts qs e u ts' qs' es rest} (item : Sub 0 ts qs e (u :: ts'))
    (hu : u.kind = .mark .comma) (more : Rel .items ts' qs' (.collection es) rest) :
    Rel .items ts (qs ++ qs') (.collection (e :: es)) rest
  nested_le {minPower ts qs e rest} (h : Sub minPower ts qs e rest) : rest.length ≤ ts.length
  values_le {ts qs e rest} (h : Rel .values ts qs e rest) : rest.length ≤ ts.length

theorem literalValue_gives (raw : Literal.Raw) (span : Span) :
    (literalValue raw span).Gives fun qs e =>
      qs = [] ∧ ∃ l, raw.value = .ok l ∧ e = .literal l := by
  unfold literalValue
  split
  next l hl => exact .pure ⟨rfl, l, hl, rfl⟩
  next => exact .fail

theorem member_gives {r : Resolvers} (word : String) :
    (member r word).Gives fun qs e => qs = [.member (pathSegments word)] ∧
      ∃ m, r.members.resolve (pathSegments word) = .ok m ∧ e = .member m := by
  refine .enter_bind (.ask_bind ?_)
  intro m hm
  exact .enter_bind (.pure ⟨rfl, m, mapError_eq_ok.1 hm, rfl⟩)

theorem call_gives {r : Resolvers} (word : String) (args : List Expr) :
    (call r word args).Gives fun qs e => qs = [.method word args] ∧
      ∃ c, r.methods.resolve word args = .ok c ∧ e = c.toExpr := by
  refine .ask_bind ?_
  intro c hc
  exact .enter_bind (.pure ⟨rfl, c, mapError_eq_ok.1 hc, rfl⟩)

namespace Layer

variable {r : Resolvers} {sub : Nat → Reader Expr}
  {Sub : Nat → List Token → List Request → Expr → List Token → Prop}
  {Rel : Part → List Token → List Request → Expr → List Token → Prop}
  (layer : Layer r Sub Rel)
  (hsub : ∀ minPower ts, (sub minPower ts).Gives fun qs x => Sub minPower ts qs x.1 x.2)

include layer hsub

/-- The items behind the first one: they and the first one are the items of a list. -/
theorem laterItems_gives (bound : List Token) {ts₀ ts : List Token} {qs₀ : List Request} {e : Expr}
    (he : Sub 0 ts₀ qs₀ e ts) :
    (laterItems sub bound ts).Gives fun qs x =>
      Rel .items ts₀ (qs₀ ++ qs) (.collection (e :: x.1)) x.2 := by
  induction bound generalizing ts₀ ts qs₀ e with
  | nil => exact .enter_bind .missing
  | cons b bound ih =>
    refine .enter_bind ?_
    show Run.Gives (if startsWith .comma ts then _ else _) _
    split
    next hc =>
      obtain ⟨u, ts', rfl, hu⟩ := startsWith_eq_true.1 hc
      refine (hsub 0 ts').bind ?_
      rintro qs ⟨e', ts⟩ he'
      refine (ih he').bind ?_
      rintro qs' ⟨es, rest⟩ hes
      refine .pure ?_
      rw [List.append_nil]
      exact layer.nextItem he hu hes
    next =>
      apply Run.Gives.mark_bind
      intro t rest ht htk
      subst ht
      refine .pure ?_
      rw [List.append_nil]
      exact layer.lastItem he htk

/-- What stands behind an opening parenthesis is read as a value list. -/
theorem list_gives {t : Token} (ht : t.kind = .mark .parenOpen) (ts : List Token) :
    (list sub ts).Gives fun qs x => Rel .values (t :: ts) qs (.collection x.1) x.2 := by
  refine .enter_bind ?_
  show Run.Gives (if startsWith .parenClose ts then _ else _) _
  split
  next hc =>
    obtain ⟨u, rest, rfl, hu⟩ := startsWith_eq_true.1 hc
    exact .pure (layer.noValues ht hu)
  next =>
    refine (hsub 0 ts).bind ?_
    rintro qs ⟨e, ts'⟩ he
    refine (layer.laterItems_gives hsub ts' he).bind ?_
    rintro qs' ⟨es, rest⟩ hes
    refine .pure ?_
    rw [List.append_nil]
    exact layer.values ht hes

theorem valueList_gives (ts : List Token) :
    (valueList sub ts).Gives fun qs x => Rel .values ts qs x.1 x.2 := by
  apply Run.Gives.mark_bind
  intro t ts' hts ht
  subst hts
  refine (layer.list_gives hsub ht ts').bind ?_
  rintro qs ⟨es, rest⟩ hes
  refine .enter_bind (.pure ?_)
  rw [List.append_nil]
  exact hes

theorem primary_gives {t : Token} (ht : t.kind.unary? = none) (ts : List Token) :
    (primary r sub (t :: ts)).Gives fun qs x => Rel .operand (t :: ts) qs x.1 x.2 := by
  rw [primary]
  split
  next raw hraw =>
    refine (literalValue_gives raw t.span).bind ?_
    rintro _ _ ⟨rfl, l, hl, rfl⟩
    exact .pure (layer.literal hraw hl)
  next hopen =>
    refine (hsub 0 ts).bind ?_
    rintro qs ⟨e, ts'⟩ he
    show Run.Gives (if startsWith .parenClose ts' then _ else _) _
    split
    next hc =>
      obtain ⟨u, rest, rfl, hu⟩ := startsWith_eq_true.1 hc
      refine .pure ?_
      rw [List.append_nil]
      exact layer.parens hopen he hu
    next => exact .missing
  next => exact .missing
  next word hword =>
    have hnot := ne_not_of_unary? ht hword
    split
    next hc =>
      obtain ⟨u, ts', rfl, hu⟩ := startsWith_eq_true.1 hc
      refine (layer.list_gives hsub hu ts').bind ?_
      rintro qs ⟨args, rest⟩ hargs
      refine (call_gives word args).bind ?_
      rintro _ _ ⟨rfl, c, hc, rfl⟩
      refine .pure ?_
      rw [List.append_nil]
      exact layer.call hword hnot hargs hc
    next hopen =>
      split
      next => exact .missing
      next hb =>
        refine (member_gives word).bind ?_
        rintro _ _ ⟨rfl, m, hm, rfl⟩
        exact .pure (layer.member hword (ofKeyword?_eq_none hnot (by simpa using hb))
          (by simpa using hopen) hm)

theorem operand_gives (ts : List Token) :
    (operand r sub ts).Gives fun qs x => Rel .operand ts qs x.1 x.2 := by
  cases ts with
  | nil =>
    rw [operand]
    exact .missing
  | cons t ts =>
    rw [operand]
    split
    next op hop =>
      refine (hsub op.operandPower ts).bind ?_
      rintro qs ⟨e, rest⟩ he
      refine .pure ?_
      rw [List.append_nil]
      exact layer.unary hop he
    next hop => exact layer.primary_gives hsub hop ts

/-- A chain whose bound covers the tokens goes on for as long as it can. -/
theorem chain_gives (minPower : Nat) {bound ts : List Token} (hb : ts.length ≤ bound.length)
    (left : Expr) :
    (chain sub minPower bound left ts).Gives fun qs x =>
      Rel (.chain minPower left) ts qs x.1 x.2 := by
  induction bound generalizing ts left with
  | nil =>
    obtain rfl : ts = [] := List.eq_nil_of_length_eq_zero (Nat.le_zero.1 hb)
    exact .pure (layer.stop rfl)
  | cons b bound ih =>
    cases hop : nextOperator? minPower ts with
    | none =>
      rw [chain_of_none hop]
      exact .pure (layer.stop hop)
    | some op =>
      obtain ⟨t, ts, rfl⟩ := eq_cons_of_nextOperator? hop
      rw [chain_of_some hop]
      split
      next hv =>
        refine (layer.valueList_gives hsub ts).bind ?_
        rintro qs ⟨right, ts'⟩ hright
        have hle := layer.values_le hright
        exact (ih (by simp at *; omega) (.binary left op right)).mono fun _ _ =>
          layer.membership hop hv hright
      next hv =>
        refine (hsub op.rightPower ts).bind ?_
        rintro qs ⟨right, ts'⟩ hright
        have hle := layer.nested_le hright
        exact (ih (by simp at *; omega) (.binary left op right)).mono fun _ _ =>
          layer.binary hop (by simpa using hv) hright

end Layer

/-- What holds of the layers of an expression, from the innermost one, holds of what is read of the
    expression. -/
theorem expression_gives_of_layers {r : Resolvers}
    (Rel : Nat → Part → List Token → List Request → Expr → List Token → Prop)
    (hlayer : ∀ budget, Layer r (fun minPower => Rel budget (.expression minPower)) (Rel budget))
    (hnest : ∀ {budget minPower ts qs left ts' qs' e rest}, Rel budget .operand ts qs left ts' →
      Rel budget (.chain minPower left) ts' qs' e rest →
        Rel (budget + 1) (.expression minPower) ts (qs ++ qs') e rest)
    (budget minPower : Nat) (ts : List Token) :
    (expression r budget minPower ts).Gives fun qs x =>
      Rel budget (.expression minPower) ts qs x.1 x.2 := by
  induction budget generalizing minPower ts with
  | zero => exact .fail
  | succ budget ih =>
    have layer := hlayer budget
    refine .enter_bind ?_
    refine (layer.operand_gives ih ts).bind ?_
    rintro qs ⟨left, ts'⟩ hleft
    refine (layer.chain_gives ih minPower (Nat.le_refl ts'.length) left).mono ?_
    intro qs' x hmore
    exact hnest hleft hmore

/-- The rules are those of each layer. -/
theorem Reads.layer (r : Resolvers) : Layer r (fun minPower => Reads r (.expression minPower))
    (Reads r) where
  unary := unary
  literal := literal
  parens := parens
  call := call
  member := member
  stop := stop
  binary := binary
  membership := membership
  noValues := noValues
  values := values
  lastItem := lastItem
  nextItem := nextItem
  nested_le := length_le
  values_le := length_le

/-- What is read of an expression is read by the rules. -/
theorem expression_gives (r : Resolvers) (budget minPower : Nat) (ts : List Token) :
    (expression r budget minPower ts).Gives fun qs x =>
      Reads r (.expression minPower) ts qs x.1 x.2 :=
  expression_gives_of_layers (fun _ => Reads r) (fun _ => Reads.layer r) Reads.expression budget
    minPower ts

/-! ## What the rules read is read -/

/-- If the budget covers what it takes, the part of the reader gives the tree and leaves the other
    tokens. A list gives the items of its collection. -/
def Part.Returns (r : Resolvers) (budget : Nat) (ts : List Token) (e : Expr) (rest : List Token) :
    Part → Prop
  | .expression minPower => ts.length ≤ budget + rest.length →
      (Reading.expression r budget minPower ts).outcome = .ok (e, rest)
  | .operand => ts.length ≤ budget + 1 + rest.length →
      (Reading.operand r (Reading.expression r budget) ts).outcome = .ok (e, rest)
  | .chain minPower left => ts.length ≤ budget + rest.length → ∀ bound : List Token,
      ts.length ≤ bound.length →
        (Reading.chain (Reading.expression r budget) minPower bound left ts).outcome = .ok (e, rest)
  | .values => ts.length ≤ budget + 1 + rest.length → ∃ t ts' es,
      ts = t :: ts' ∧ t.kind = .mark .parenOpen ∧ e = .collection es ∧
        (Reading.list (Reading.expression r budget) ts').outcome = .ok (es, rest)
  | .items => ts.length ≤ budget + rest.length → ∃ e₀ ts' es,
      e = .collection (e₀ :: es) ∧
        (Reading.expression r budget 0 ts).outcome = .ok (e₀, ts') ∧ ∀ bound : List Token,
          ts'.length ≤ bound.length →
            (laterItems (Reading.expression r budget) bound ts').outcome = .ok (es, rest)

open Run (outcome_bind_ok outcome_enter)

/-- What follows the opening parenthesis of a value list decides how it is read. -/
theorem valueList_of_list {sub : Nat → Reader Expr} {t : Token} {ts rest : List Token}
    {es : List Expr} (ht : t.kind = .mark .parenOpen)
    (h : (list sub ts).outcome = .ok (es, rest)) :
    (valueList sub (t :: ts)).outcome = .ok (.collection es, rest) := by
  rw [valueList, mark_of_kind ht, Run.pure_bind]
  exact (outcome_bind_ok h _).trans rfl

theorem list_of_close {sub : Nat → Reader Expr} {u : Token} (hu : u.kind = .mark .parenClose)
    (rest : List Token) : (list sub (u :: rest)).outcome = .ok ([], rest) := by
  rw [list, outcome_bind_ok (outcome_enter _), if_pos (startsWith_cons hu)]
  rfl

theorem laterItems_of_close {sub : Nat → Reader Expr} {u : Token}
    (hu : u.kind = .mark .parenClose) (rest : List Token) (b : Token) (bound : List Token) :
    (laterItems sub (b :: bound) (u :: rest)).outcome = .ok ([], rest) := by
  rw [laterItems, outcome_bind_ok (outcome_enter _)]
  simp [startsWith, hu, mark_of_kind hu, Run.pure_bind]

theorem laterItems_of_comma {sub : Nat → Reader Expr} {u : Token} {ts ts' rest : List Token}
    {e : Expr} {es : List Expr} {b : Token} {bound : List Token} (hu : u.kind = .mark .comma)
    (he : (sub 0 ts).outcome = .ok (e, ts'))
    (hes : (laterItems sub bound ts').outcome = .ok (es, rest)) :
    (laterItems sub (b :: bound) (u :: ts)).outcome = .ok (e :: es, rest) := by
  rw [laterItems, outcome_bind_ok (outcome_enter _)]
  show Run.outcome (if startsWith .comma (u :: ts) then _ else _) = _
  rw [if_pos (startsWith_cons hu)]
  exact (outcome_bind_ok he _).trans ((outcome_bind_ok hes _).trans rfl)

theorem list_of_items {sub : Nat → Reader Expr} {ts ts' rest : List Token} {e : Expr}
    {es : List Expr} (hts : startsWith .parenClose ts = false)
    (he : (sub 0 ts).outcome = .ok (e, ts'))
    (hes : (laterItems sub ts' ts').outcome = .ok (es, rest)) :
    (list sub ts).outcome = .ok (e :: es, rest) := by
  rw [list, outcome_bind_ok (outcome_enter _), if_neg (by simp [hts])]
  exact (outcome_bind_ok he _).trans ((outcome_bind_ok hes _).trans rfl)

theorem call_of_ok {r : Resolvers} {word : String} {args : List Expr} {c : Call}
    (hc : r.methods.resolve word args = .ok c) : (call r word args).outcome = .ok c.toExpr := by
  rw [call, outcome_bind_ok (Run.outcome_ask _ _ _ |>.trans (mapError_eq_ok.2 hc))]
  rfl

theorem member_of_ok {r : Resolvers} {word : String} {m : Member}
    (hm : r.members.resolve (pathSegments word) = .ok m) :
    (member r word).outcome = .ok (.member m) := by
  rw [Reading.member, outcome_bind_ok (outcome_enter _),
    outcome_bind_ok (Run.outcome_ask _ _ _ |>.trans (mapError_eq_ok.2 hm))]
  rfl

/-- A name is no unary operator but for the word `not`. -/
theorem unary?_name {word : String} (hw : word ≠ "not") :
    (Token.Kind.name word).unary? = none := by
  unfold Token.Kind.unary?
  split
  · contradiction
  · rename_i h
    cases h
    exact absurd rfl hw
  · rfl

section

variable {r : Resolvers} {sub : Nat → Reader Expr} {t : Token} {ts rest : List Token}

theorem operand_of_unary {op : Operator} {e : Expr} (ht : t.kind.unary? = some op)
    (h : (sub op.operandPower ts).outcome = .ok (e, rest)) :
    (operand r sub (t :: ts)).outcome = .ok (.unary op e, rest) := by
  simp only [operand, ht]
  rw [outcome_bind_ok h]
  rfl

theorem operand_of_literal {raw : Literal.Raw} {l : Literal} (ht : t.kind = .literal raw)
    (hl : raw.value = .ok l) : (operand r sub (t :: rest)).outcome = .ok (.literal l, rest) := by
  simp [operand, primary, literalValue, Token.Kind.unary?, ht, hl, Run.pure_bind]

theorem operand_of_parens {u : Token} {e : Expr} (ht : t.kind = .mark .parenOpen)
    (hu : u.kind = .mark .parenClose) (h : (sub 0 ts).outcome = .ok (e, u :: rest)) :
    (operand r sub (t :: ts)).outcome = .ok (e, rest) := by
  simp only [operand, primary, Token.Kind.unary?, ht]
  rw [outcome_bind_ok h]
  simp [startsWith, hu]

theorem operand_of_call {u : Token} {word : String} {args : List Expr} {c : Call}
    (ht : t.kind = .name word) (hw : word ≠ "not") (hu : u.kind = .mark .parenOpen)
    (h : (list sub ts).outcome = .ok (args, rest)) (hc : r.methods.resolve word args = .ok c) :
    (operand r sub (t :: u :: ts)).outcome = .ok (c.toExpr, rest) := by
  simp only [operand, primary, ht, unary?_name hw, if_pos (startsWith_cons hu), List.tail_cons]
  rw [outcome_bind_ok h]
  exact (outcome_bind_ok (call_of_ok hc) _).trans rfl

theorem operand_of_member {word : String} {m : Member} (ht : t.kind = .name word)
    (hw : Operator.ofKeyword? word = none) (hrest : startsWith .parenOpen rest = false)
    (hm : r.members.resolve (pathSegments word) = .ok m) :
    (operand r sub (t :: rest)).outcome = .ok (.member m, rest) := by
  have hnot : word ≠ "not" := by
    rintro rfl
    cases hw
  have hb : Operator.binary? word = none := by rw [Operator.binary?, hw, Option.filter_none]
  simp only [operand, primary, ht, unary?_name hnot, hrest, hb]
  exact (outcome_bind_ok (member_of_ok hm) _).trans rfl

end

/-- No operand starts with a closing parenthesis. -/
theorem Reads.startsWith_close {r : Resolvers} {part : Part} {ts rest : List Token}
    {qs : List Request} {e : Expr} (h : Reads r part ts qs e rest)
    (hp : part = .operand ∨ part = .items ∨ ∃ minPower, part = .expression minPower) :
    startsWith .parenClose ts = false := by
  induction h with
  | expression _ _ ihf _ => exact ihf (.inl rfl)
  | unary ht _ _ =>
    unfold Token.Kind.unary? at ht
    split at ht <;> simp_all [startsWith]
  | literal ht _ | parens ht _ _ _ | call ht _ _ _ _ | member ht _ _ _ => simp [startsWith, ht]
  | lastItem _ _ ih | nextItem _ _ _ ih _ => exact ih (.inr (.inr ⟨_, rfl⟩))
  | _ => simp at hp

/-- What the rules read is read within a budget that covers the tokens. -/
theorem Reads.returns {r : Resolvers} {part : Part} {ts rest : List Token} {qs : List Request}
    {e : Expr} (h : Reads r part ts qs e rest) (budget : Nat) :
    part.Returns r budget ts e rest := by
  induction h generalizing budget with
  | @expression minPower ts qs left ts' qs' e rest first more ihf ihm =>
    intro hb
    have hlt := first.length_lt (by rintro _ _ ⟨⟩)
    have hle := more.length_le
    cases budget with
    | zero => omega
    | succ budget =>
      rw [Reading.expression, outcome_bind_ok (outcome_enter _),
        outcome_bind_ok (ihf budget (by omega))]
      exact ihm budget (by omega) ts' (Nat.le_refl _)
  | @unary t op ts qs e rest ht inner ih =>
    intro hb
    rw [List.length_cons] at hb
    exact operand_of_unary ht (ih budget (by omega))
  | literal ht hl => exact fun _ => operand_of_literal ht hl
  | @parens t u ts qs e rest ht inner hu ih =>
    intro hb
    simp only [List.length_cons] at hb
    exact operand_of_parens ht hu (ih budget (by simp only [List.length_cons]; omega))
  | @call t word ts qs args c rest ht hw list hc ih =>
    intro hb
    rw [List.length_cons] at hb
    obtain ⟨u, ts', es, rfl, hu, he, hlist⟩ := ih budget (by omega)
    cases he
    exact operand_of_call ht hw hu hlist hc
  | member ht hw hrest hm => exact fun _ => operand_of_member ht hw hrest hm
  | stop hop =>
    intro _ bound _
    rw [chain_of_none hop]
    rfl
  | @binary minPower left op t ts qs right ts' qs' e rest hop hv operand more iho ihm =>
    intro hb bound hbound
    -- the operator and its operand are read, so the bound and the budget cover what is left
    have hle := more.length_le
    have hlt := operand.length_lt (by rintro _ _ ⟨⟩)
    simp only [List.length_cons] at hb hbound
    cases bound with
    | nil => simp at hbound
    | cons b bound =>
      rw [List.length_cons] at hbound
      rw [chain_of_some hop, hv]
      exact (outcome_bind_ok (iho budget (by omega)) _).trans
        (ihm budget (by omega) bound (by omega))
  | @membership minPower left op t ts qs right ts' qs' e rest hop hv list more ihl ihm =>
    intro hb bound hbound
    have hle := more.length_le
    have hlt := list.length_lt (by rintro _ _ ⟨⟩)
    simp only [List.length_cons] at hb hbound
    obtain ⟨u, us, es, rfl, hu, rfl, hlist⟩ := ihl budget (by omega)
    cases bound with
    | nil => simp at hbound
    | cons b bound =>
      simp only [List.length_cons] at *
      rw [chain_of_some hop, hv]
      exact (outcome_bind_ok (valueList_of_list hu hlist) _).trans
        (ihm budget (by omega) bound (by omega))
  | @noValues t u rest ht hu =>
    intro _
    exact ⟨t, u :: rest, [], rfl, ht, rfl, list_of_close hu rest⟩
  | @values t ts qs es rest ht items ih =>
    intro hb
    rw [List.length_cons] at hb
    obtain ⟨e₀, ts', es', he, he₀, hmore⟩ := ih budget (by omega)
    cases he
    refine ⟨t, ts, e₀ :: es', rfl, ht, rfl, ?_⟩
    exact list_of_items (items.startsWith_close (.inr (.inl rfl))) he₀ (hmore ts' (Nat.le_refl _))
  | @lastItem ts qs e u rest item hu ih =>
    intro hb
    refine ⟨e, u :: rest, [], rfl, ih budget (by simp only [List.length_cons]; omega), ?_⟩
    intro bound hbound
    cases bound with
    | nil => simp at hbound
    | cons b bound => exact laterItems_of_close hu rest b bound
  | @nextItem ts qs e u ts' qs' es rest item hu more ihi ihm =>
    intro hb
    have hle := more.length_le
    have hle' := item.length_le
    rw [List.length_cons] at hle'
    obtain ⟨e₀, us, es', he, he₀, hmore⟩ := ihm budget (by omega)
    cases he
    refine ⟨e, u :: ts', e₀ :: es', rfl, ihi budget (by simp only [List.length_cons]; omega), ?_⟩
    intro bound hbound
    rw [List.length_cons] at hbound
    cases bound with
    | nil => simp at hbound
    | cons b bound =>
      have hlt := (expression_gives r budget 0 ts' _ he₀).length_le
      exact laterItems_of_comma hu he₀ (hmore bound (by simp only [List.length_cons] at *; omega))

end QueryExpr.Reading
