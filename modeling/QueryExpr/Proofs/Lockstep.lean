import Mathlib.Data.List.Forall2
import QueryExpr.Proofs.Run

/-!
# Two readings in step

A reading looks at the kinds of its tokens and at nothing else. So two readings of tokens of the
same kinds go in step: any relation between runs that respects the ways in which runs are made
holds between them.

* `Lockstep`: relations between the values, the tokens and the runs of two readings, with a rule
  for each way in which a run is made.
* `Lockstep.Readers`: two readers whose runs are related.
* `Lockstep.expression`: expressions are read in step; likewise filters, orderings and selections.
-/

namespace QueryExpr.Reading

open List (Forall₂)

variable {α β γ δ : Type}

/-- Two outcomes are values that are related, or the same fault. -/
inductive Ends (R : α → β → Prop) : Except Fault α → Except Fault β → Prop where
  | ok {a b} (h : R a b) : Ends R (.ok a) (.ok b)
  | error (f : Fault) : Ends R (.error f) (.error f)

theorem Ends.values_or_fault {R : α → β → Prop} {x : Except Fault α} {y : Except Fault β}
    (h : Ends R x y) :
    (∃ a b, x = .ok a ∧ y = .ok b ∧ R a b) ∨ ∃ f, x = .error f ∧ y = .error f := by
  cases h with
  | ok hab => exact .inl ⟨_, _, rfl, rfl, hab⟩
  | error f => exact .inr ⟨f, rfl, rfl⟩

/-- Lists of items are equal if the items are. -/
theorem eq_of_forall₂ {R : α → α → Prop} (hR : ∀ a b, R a b → a = b) {as bs : List α}
    (h : Forall₂ R as bs) : as = bs :=
  List.forall₂_eq_eq_eq ▸ h.imp hR

section

variable {e e' f f' : Expr} {es es' : List Expr}

theorem unary_congr (op : Operator) (h : e = e') : Expr.unary op e = .unary op e' :=
  congrArg (Expr.unary op) h

theorem binary_congr (op : Operator) (h : e = e') (h' : f = f') :
    Expr.binary e op f = .binary e' op f' := by rw [h, h']

theorem collection_congr (h : Forall₂ (fun e e' => e = e') es es') :
    Expr.collection es = .collection es' :=
  congrArg Expr.collection (eq_of_forall₂ (fun _ _ => id) h)

end

/-- Relations between a reading with the resolvers `r₀` and one with `r`. Values and tokens are
    related one by one, related tokens have the same kind, and runs that are made in the same way
    from related parts are related. -/
structure Lockstep (r₀ r : Resolvers) where
  Values : Expr → Expr → Prop
  Tokens : Token → Token → Prop
  /-- Two runs are related, and so are their values, by the given relation. -/
  Runs : ∀ {α β : Type}, (α → β → Prop) → Run α → Run β → Prop
  kind_eq : ∀ {t t' : Token}, Tokens t t' → t.kind = t'.kind
  unary : ∀ (op : Operator) {e e' : Expr}, Values e e' → Values (.unary op e) (.unary op e')
  binary : ∀ (op : Operator) {e e' f f' : Expr}, Values e e' → Values f f' →
    Values (.binary e op f) (.binary e' op f')
  collection : ∀ {es es' : List Expr}, Forall₂ Values es es' →
    Values (.collection es) (.collection es')
  pure : ∀ {α β : Type} {R : α → β → Prop} {a : α} {b : β}, R a b →
    Runs R (Pure.pure a) (Pure.pure b)
  grammar : ∀ {α β : Type} {R : α → β → Prop} (problem : Problem) (left : Nat),
    Runs R (.fail (.grammar problem left)) (.fail (.grammar problem left))
  bind : ∀ {α β γ δ : Type} {R : α → β → Prop} {S : γ → δ → Prop} {run : Run α} {run' : Run β}
    {f : α → Run γ} {g : β → Run δ}, Runs R run run' → (∀ a b, R a b → Runs S (f a) (g b)) →
      Runs S (run >>= f) (run' >>= g)
  enter : ∀ p : Phase, Runs (fun _ _ => True) (Run.enter p) (Run.enter p)
  literal : ∀ {t t' : Token} {raw : Literal.Raw}, Tokens t t' → t.kind = .literal raw →
    Runs Values (literalValue raw t.span) (literalValue raw t'.span)
  member : ∀ {t t' : Token} {word : String}, Tokens t t' → t.kind = .name word →
    Runs Values (member r₀ word) (member r word)
  call : ∀ (word : String) {args₀ args : List Expr}, Forall₂ Values args₀ args →
    Runs Values (call r₀ word args₀) (call r word args)

namespace Lockstep

variable {r₀ r : Resolvers} (c : Lockstep r₀ r)

/-- Values that are related and leave tokens that are. -/
def With (R : α → β → Prop) (x : α × List Token) (y : β × List Token) : Prop :=
  R x.1 y.1 ∧ Forall₂ c.Tokens x.2 y.2

/-- The runs of two readers over related tokens are related. -/
def Readers (R : α → β → Prop) (reader₀ : Reader α) (reader : Reader β) : Prop :=
  ∀ ts ts', Forall₂ c.Tokens ts ts' → c.Runs (c.With R) (reader₀ ts) (reader ts')

variable {c} {ts ts' : List Token} {R : α → β → Prop} {S : γ → δ → Prop}

/-! ## Looking at tokens -/

theorem startsWith_eq (h : Forall₂ c.Tokens ts ts') (m : Mark) :
    startsWith m ts = startsWith m ts' := by
  cases h with
  | nil => rfl
  | cons ht _ => rw [startsWith, startsWith, c.kind_eq ht]

theorem word?_eq (h : Forall₂ c.Tokens ts ts') : word? ts = word? ts' := by
  cases h with
  | nil => rfl
  | cons ht _ => rw [word?, word?, c.kind_eq ht]

theorem nextOperator?_eq (h : Forall₂ c.Tokens ts ts') (minPower : Nat) :
    nextOperator? minPower ts = nextOperator? minPower ts' := by
  cases h with
  | nil => rfl
  | cons ht _ => rw [nextOperator?, nextOperator?, c.kind_eq ht]

theorem tail (h : Forall₂ c.Tokens ts ts') : Forall₂ c.Tokens ts.tail ts'.tail := by
  cases h with
  | nil => exact .nil
  | cons _ hts => exact hts

/-! ## Rules -/

theorem failAt (h : Forall₂ c.Tokens ts ts') (problem : Problem) :
    c.Runs R (failAt problem ts) (failAt problem ts') := by
  rw [Reading.failAt, Reading.failAt, h.length_eq]
  exact c.grammar problem _

theorem missing (h : Forall₂ c.Tokens ts ts') (wanted : Wanted) :
    c.Runs R (missing wanted ts) (missing wanted ts') := by
  cases h with
  | nil => exact c.grammar _ _
  | cons ht hts =>
    rw [Reading.missing, Reading.missing, c.kind_eq ht]
    exact failAt (.cons ht hts) _

/-- The rule for a phase that is entered first. -/
theorem enter_bind {p : Phase} {f : Unit → Run γ} {g : Unit → Run δ}
    (h : c.Runs S (f ()) (g ())) : c.Runs S (Run.enter p >>= f) (Run.enter p >>= g) :=
  c.bind (c.enter p) fun _ _ _ => h

/-- The rule for a mark that is read first. -/
theorem mark_bind {m : Mark} {wanted : Wanted} {f : Unit × List Token → Run γ}
    {g : Unit × List Token → Run δ} (h : Forall₂ c.Tokens ts ts')
    (hf : ∀ rest rest', Forall₂ c.Tokens rest rest' → c.Runs S (f ((), rest)) (g ((), rest'))) :
    c.Runs S (mark m wanted ts >>= f) (mark m wanted ts' >>= g) := by
  have hmark : c.Runs (c.With fun _ _ => True) (mark m wanted ts) (mark m wanted ts') := by
    cases h with
    | nil => exact missing .nil wanted
    | cons ht hts =>
      rw [mark, mark, c.kind_eq ht]
      split
      · exact c.pure ⟨trivial, hts⟩
      · exact missing (.cons ht hts) wanted
  apply c.bind hmark
  rintro ⟨⟨⟩, rest⟩ ⟨⟨⟩, rest'⟩ ⟨-, hrest⟩
  exact hf rest rest' hrest

/-! ## Lists in parentheses -/

section

variable {sub₀ sub : Nat → Reader Expr}
  (hsub : ∀ minPower, c.Readers c.Values (sub₀ minPower) (sub minPower))

include hsub

theorem laterItems {bound bound' : List Token} (hbound : Forall₂ c.Tokens bound bound') :
    c.Readers (Forall₂ c.Values) (laterItems sub₀ bound) (laterItems sub bound') := by
  induction hbound with
  | nil => exact fun ts ts' h => enter_bind (missing h _)
  | cons _ _ ih =>
    intro ts ts' h
    refine enter_bind ?_
    dsimp only
    rw [startsWith_eq h]
    split
    · apply c.bind (hsub 0 _ _ (tail h))
      rintro ⟨e, rest⟩ ⟨e', rest'⟩ ⟨he, hrest⟩
      apply c.bind (ih rest rest' hrest)
      rintro ⟨es, rest⟩ ⟨es', rest'⟩ ⟨hes, hrest⟩
      exact c.pure ⟨.cons he hes, hrest⟩
    · exact mark_bind h fun _ _ hrest => c.pure ⟨.nil, hrest⟩

theorem list : c.Readers (Forall₂ c.Values) (list sub₀) (list sub) := by
  intro ts ts' h
  refine enter_bind ?_
  rw [startsWith_eq h]
  split
  · exact c.pure ⟨.nil, tail h⟩
  · apply c.bind (hsub 0 ts ts' h)
    rintro ⟨e, rest⟩ ⟨e', rest'⟩ ⟨he, hrest⟩
    apply c.bind (laterItems hsub hrest rest rest' hrest)
    rintro ⟨es, rest⟩ ⟨es', rest'⟩ ⟨hes, hrest⟩
    exact c.pure ⟨.cons he hes, hrest⟩

theorem valueList : c.Readers c.Values (valueList sub₀) (valueList sub) := by
  intro ts ts' h
  refine mark_bind h fun rest rest' hrest => ?_
  apply c.bind (list hsub rest rest' hrest)
  rintro ⟨es, rest⟩ ⟨es', rest'⟩ ⟨hes, hrest⟩
  exact enter_bind (c.pure ⟨c.collection hes, hrest⟩)

/-! ## Operands and chains -/

theorem primary : c.Readers c.Values (primary r₀ sub₀) (primary r sub) := by
  intro ts ts' h
  cases h with
  | nil => exact missing .nil _
  | @cons t t' rest rest' ht hrest =>
    have hkind := c.kind_eq ht
    rw [Reading.primary, Reading.primary, ← hkind]
    cases hk : t.kind with
    | literal raw =>
      apply c.bind (c.literal ht hk)
      intro e e' he
      exact c.pure ⟨he, hrest⟩
    | name word =>
      dsimp only
      rw [startsWith_eq hrest]
      split
      · apply c.bind (list hsub _ _ (tail hrest))
        rintro ⟨args, rest⟩ ⟨args', rest'⟩ ⟨hargs, hrest⟩
        apply c.bind (c.call word hargs)
        intro e e' he
        exact c.pure ⟨he, hrest⟩
      · split
        · exact missing (.cons ht hrest) _
        · apply c.bind (c.member ht hk)
          intro e e' he
          exact c.pure ⟨he, hrest⟩
    | mark m =>
      cases m with
      | parenOpen =>
        apply c.bind (hsub 0 rest rest' hrest)
        rintro ⟨e, ts⟩ ⟨e', ts'⟩ ⟨he, hts⟩
        dsimp only
        rw [startsWith_eq hts, hrest.length_eq]
        split
        · exact c.pure ⟨he, tail hts⟩
        · exact missing hts _
      | _ => exact missing (.cons ht hrest) _

theorem operand : c.Readers c.Values (operand r₀ sub₀) (operand r sub) := by
  intro ts ts' h
  cases h with
  | nil => exact missing .nil _
  | @cons t t' rest rest' ht hrest =>
    rw [Reading.operand, Reading.operand, ← c.kind_eq ht]
    split
    next op _ =>
      apply c.bind (hsub op.operandPower rest rest' hrest)
      rintro ⟨e, ts⟩ ⟨e', ts'⟩ ⟨he, hts⟩
      exact c.pure ⟨c.unary op he, hts⟩
    next => exact primary hsub _ _ (.cons ht hrest)

/-- A chain takes the same operators whatever its left operand is. -/
theorem chain (minPower : Nat) {bound bound' : List Token}
    (hbound : Forall₂ c.Tokens bound bound') {left left' : Expr} (hleft : c.Values left left') :
    c.Readers c.Values (chain sub₀ minPower bound left) (chain sub minPower bound' left') := by
  induction hbound generalizing left left' with
  | nil => exact fun ts ts' h => c.pure ⟨hleft, h⟩
  | cons _ _ ih =>
    intro ts ts' h
    have hnext := nextOperator?_eq h minPower
    cases hop : nextOperator? minPower ts with
    | none =>
      rw [chain_of_none hop, chain_of_none (hnext ▸ hop)]
      exact c.pure ⟨hleft, h⟩
    | some op =>
      rw [chain_of_some hop, chain_of_some (hnext ▸ hop)]
      have hright : c.Runs (c.With c.Values)
          (if op.takesValues then Reading.valueList sub₀ ts.tail else sub₀ op.rightPower ts.tail)
          (if op.takesValues then Reading.valueList sub ts'.tail
            else sub op.rightPower ts'.tail) := by
        split
        · exact valueList hsub _ _ (tail h)
        · exact hsub _ _ _ (tail h)
      apply c.bind hright
      rintro ⟨e, rest⟩ ⟨e', rest'⟩ ⟨he, hrest⟩
      exact ih (c.binary op hleft he) rest rest' hrest

end

variable (c)

/-- Expressions are read in step. -/
theorem expression (budget minPower : Nat) :
    c.Readers c.Values (expression r₀ budget minPower) (expression r budget minPower) := by
  induction budget generalizing minPower with
  | zero => exact fun ts ts' h => failAt h _
  | succ budget ih =>
    intro ts ts' h
    refine enter_bind ?_
    apply c.bind (operand ih ts ts' h)
    rintro ⟨left, rest⟩ ⟨left', rest'⟩ ⟨hleft, hrest⟩
    exact chain ih minPower hrest hleft rest rest' hrest

/-! ## Filters, orderings and selections -/

/-- Items of an ordering with related expressions and the same direction. -/
def OrderItems (a b : OrderItem) : Prop := c.Values a.expr b.expr ∧ a.direction = b.direction

/-- Items of a selection with related expressions and the same name. -/
def SelectItems (a b : SelectItem) : Prop := c.Values a.expr b.expr ∧ a.alias? = b.alias?

theorem inputEnd (h : Forall₂ c.Tokens ts ts') :
    c.Runs (fun _ _ => True) (inputEnd ts) (inputEnd ts') := by
  cases h with
  | nil => exact c.pure trivial
  | cons ht hts =>
    rw [Reading.inputEnd, Reading.inputEnd, c.kind_eq ht]
    split
    · exact failAt (.cons ht hts) _
    · exact missing (.cons ht hts) _

theorem itemName : c.Readers (fun a b => a = b) itemName itemName := by
  intro ts ts' h
  rw [Reading.itemName, Reading.itemName, word?_eq h]
  split
  · split
    · exact c.pure ⟨rfl, tail h⟩
    · exact missing h _
  · exact missing h _

variable {c}

/-! Where related values are equal, so are what is made of them. -/

section

variable (hc : ∀ {e e'}, c.Values e e' → e = e')

include hc

theorem eq_of_rel {e? e?' : Option Expr} (h : Option.Rel c.Values e? e?') : e? = e?' := by
  cases h with
  | some he => exact congrArg some (hc he)
  | none => rfl

theorem eq_of_orderItems {items items' : List OrderItem} (h : Forall₂ c.OrderItems items items') :
    items = items' := by
  refine eq_of_forall₂ ?_ h
  rintro ⟨e, direction⟩ ⟨e', _⟩ ⟨he, rfl⟩
  obtain rfl : e = e' := hc he
  rfl

theorem eq_of_selectItems {items items' : List SelectItem}
    (h : Forall₂ c.SelectItems items items') : items = items' := by
  refine eq_of_forall₂ ?_ h
  rintro ⟨e, name⟩ ⟨e', _⟩ ⟨he, rfl⟩
  obtain rfl : e = e' := hc he
  rfl

end

section

variable {budget₀ budget : Nat}
  (hexpr : c.Readers c.Values (Reading.expression r₀ budget₀ 0) (Reading.expression r budget 0))

include hexpr

theorem filter (h : Forall₂ c.Tokens ts ts') :
    c.Runs (Option.Rel c.Values) (filter r₀ budget₀ ts) (filter r budget ts') := by
  cases h with
  | nil => exact c.pure .none
  | cons ht hts =>
    apply c.bind (hexpr _ _ (.cons ht hts))
    rintro ⟨e, rest⟩ ⟨e', rest'⟩ ⟨he, hrest⟩
    exact c.bind (c.inputEnd hrest) fun _ _ _ => c.pure (.some he)

theorem orderItem : c.Readers c.OrderItems (orderItem r₀ budget₀) (orderItem r budget) := by
  intro ts ts' h
  apply c.bind (hexpr ts ts' h)
  rintro ⟨e, rest⟩ ⟨e', rest'⟩ ⟨he, hrest⟩
  have hword : word? rest = word? rest' := word?_eq hrest
  dsimp only
  rw [hword]
  cases (word? rest').bind Direction.ofKeyword? with
  | some direction => exact c.pure ⟨⟨he, rfl⟩, tail hrest⟩
  | none => exact c.pure ⟨⟨he, rfl⟩, hrest⟩

theorem selectItem : c.Readers c.SelectItems (selectItem r₀ budget₀) (selectItem r budget) := by
  intro ts ts' h
  apply c.bind (hexpr ts ts' h)
  rintro ⟨e, rest⟩ ⟨e', rest'⟩ ⟨he, hrest⟩
  dsimp only
  rw [word?_eq hrest]
  split
  · apply c.bind (c.itemName _ _ (tail hrest))
    rintro ⟨name, rest⟩ ⟨_, rest'⟩ ⟨rfl, hrest⟩
    exact c.pure ⟨⟨he, rfl⟩, hrest⟩
  · exact c.pure ⟨⟨he, rfl⟩, hrest⟩

end

variable {item₀ : Reader α} {item : Reader β}

theorem separated (hitem : c.Readers R item₀ item) (limit : Nat) :
    c.Readers (Forall₂ R) (separated item₀ limit) (separated item limit) := by
  induction limit with
  | zero => exact fun ts ts' h => c.pure ⟨.nil, h⟩
  | succ limit ih =>
    intro ts ts' h
    apply c.bind (hitem ts ts' h)
    rintro ⟨a, rest⟩ ⟨b, rest'⟩ ⟨hab, hrest⟩
    dsimp only
    rw [startsWith_eq hrest]
    split
    · apply c.bind (ih _ _ (tail hrest))
      rintro ⟨as, rest⟩ ⟨bs, rest'⟩ ⟨habs, hrest⟩
      exact c.pure ⟨.cons hab habs, hrest⟩
    · exact c.pure ⟨.cons hab .nil, hrest⟩

theorem wholeList (hitem : c.Readers R item₀ item) (h : Forall₂ c.Tokens ts ts') :
    c.Runs (Forall₂ R) (wholeList item₀ ts) (wholeList item ts') := by
  cases h with
  | nil => exact c.pure .nil
  | cons ht hts =>
    have hlength := (Forall₂.cons ht hts).length_eq
    rw [Reading.wholeList, Reading.wholeList, ← hlength]
    apply c.bind (separated hitem _ _ _ (.cons ht hts))
    rintro ⟨as, rest⟩ ⟨bs, rest'⟩ ⟨habs, hrest⟩
    exact c.bind (c.inputEnd hrest) fun _ _ _ => c.pure habs

end Lockstep

end QueryExpr.Reading
