import QueryExpr.Expr.Text
import QueryExpr.Proofs.Operands

/-!
# Nesting

In what is written for a tree, expressions may be nested more deeply than in the tokens that the
tree was read of: parentheses of the tokens are dropped, but others are written where there were
none. There are new ones behind a minus, unless a name or a parenthesis stands there, and around a
membership that is an operand of arithmetic. Each of them nests expressions at most once more.

* `Expr.depth`: how deep expressions are nested in what is written.
* `missingParens`: the places in the tokens where parentheses are written that are not there.
* `Part.Nests`: how deep a part of the reader nests what it reads, with one clause for each rule in
  `nests_layer`.
* `depth_le_of_expression`: a tree is at most as deep as the budget it was read within, but for
  these places.
-/

namespace QueryExpr

namespace Expr

/-! ## The depth of what is written -/

/-- Parentheses around an expression nest it once more. -/
def nested (wraps : Bool) (depth : Nat) : Nat := if wraps then depth + 1 else depth

/-- How deep expressions are nested in what is written for an expression. The left operand of an
    operator is not nested, unless it stands in parentheses; other operands, arguments and items
    are. -/
def depth : Expr → Nat
  | member _ | literal _ => 1
  | call _ args => depthAll args + 1
  | binary left op right =>
    max (nested (left.wrapsLeft op) left.depth) (nested (right.wrapsRight op) right.depth + 1)
  | unary op inner => nested (inner.wrapsBehind op) inner.depth + 1
  | collection items => depthAll items
where
  /-- The depth of the deepest expression. -/
  depthAll : List Expr → Nat
    | [] => 0
    | e :: es => max e.depth (depthAll es)

/-- The depth of an expression where something of the precedence `n` has to stand. -/
def depthAt (n : Nat) (e : Expr) : Nat := nested (e.precedence < n) e.depth

variable {e : Expr} {m n : Nat}

theorem le_nested (wraps : Bool) (depth : Nat) : depth ≤ nested wraps depth := by
  cases wraps
  · exact Nat.le_refl depth
  · exact Nat.le_succ depth

theorem nested_le (wraps : Bool) (depth : Nat) : nested wraps depth ≤ depth + 1 := by
  cases wraps
  · exact Nat.le_succ depth
  · exact Nat.le_refl (depth + 1)

theorem depth_le_depthAt (n : Nat) (e : Expr) : e.depth ≤ e.depthAt n := le_nested _ _

theorem depthAt_le (n : Nat) (e : Expr) : e.depthAt n ≤ e.depth + 1 := nested_le _ _

theorem depthAt_of_le (h : n ≤ e.precedence) : e.depthAt n = e.depth := by
  simp [depthAt, nested, Nat.not_lt.2 h]

theorem depthAt_of_lt (h : e.precedence < n) : e.depthAt n = e.depth + 1 := by
  simp [depthAt, nested, h]

theorem depthAt_mono (h : m ≤ n) (e : Expr) : e.depthAt m ≤ e.depthAt n := by
  rcases Nat.lt_or_ge e.precedence m with hlt | hle
  · have heq := (depthAt_of_lt hlt).trans (depthAt_of_lt (Nat.lt_of_lt_of_le hlt h)).symm
    exact Nat.le_of_eq heq
  · rw [depthAt_of_le hle]
    exact depth_le_depthAt n e

theorem depthAt_operator (left : Expr) (op : Operator) (right : Expr) :
    (binary left op right).depthAt op.precedence = (binary left op right).depth :=
  depthAt_of_le (Nat.le_refl op.precedence)

theorem depth_binary (left : Expr) (op : Operator) (right : Expr) :
    (binary left op right).depth =
      max (left.depthAt op.precedence) (right.depthAt (op.precedence + 1) + 1) := by
  simp only [depth, depthAt, wrapsLeft, wrapsRight, Nat.lt_succ_iff]

theorem depth_not (inner : Expr) : (unary .not inner).depth = inner.depthAt 7 + 1 := by
  rfl

theorem depth_neg (inner : Expr) :
    (unary .neg inner).depth = nested (!inner.isReference) inner.depth + 1 := rfl

theorem depth_le_depthAll {es : List Expr} (h : e ∈ es) : e.depth ≤ depth.depthAll es := by
  induction es with
  | nil => cases h
  | cons f es ih =>
    rw [depth.depthAll]
    rcases List.mem_cons.1 h with rfl | h
    · exact Nat.le_max_left _ _
    · exact Nat.le_trans (ih h) (Nat.le_max_right _ _)

theorem depthAll_le {es : List Expr} (h : ∀ e ∈ es, e.depth ≤ n) : depth.depthAll es ≤ n := by
  induction es with
  | nil => exact Nat.zero_le n
  | cons e es ih =>
    obtain ⟨he, hes⟩ := List.forall_mem_cons.1 h
    exact Nat.max_le.2 ⟨he, ih hes⟩

end Expr

namespace Reading

/-! ## Missing parentheses -/

/-- Whether the tokens begin with a parenthesis or with a name but `not`. -/
def startsReference : List Token → Bool
  | t :: _ =>
    match t.kind with
    | .mark .parenOpen => true
    | .name word => word != "not"
    | _ => false
  | [] => false

/-- If the tokens begin with a minus, a parenthesis or a name but `not` stands behind it. -/
def PlainMinus : List Token → Prop
  | t :: ts => t.kind = .mark .minus → startsReference ts = true
  | [] => True

instance : (ts : List Token) → Decidable (PlainMinus ts)
  | [] => isTrue trivial
  | t :: ts => inferInstanceAs (Decidable (t.kind = .mark .minus → startsReference ts = true))

/-- The number of places where parentheses may be written that are not in the tokens: behind a
    minus, and around a membership in front of an operator of arithmetic. -/
def missingParens : List Token → Nat
  | [] => 0
  | t :: ts =>
    (if GuardedFront (t :: ts) ∧ PlainMinus (t :: ts) then 0 else 1) + missingParens ts

variable {r : Resolvers} {t : Token} {ts rest : List Token} {qs : List Request} {e : Expr}

theorem missingParens_le_cons (t : Token) (ts : List Token) :
    missingParens ts ≤ missingParens (t :: ts) := Nat.le_add_left _ _

theorem missingParens_le (h : rest <:+ ts) : missingParens rest ≤ missingParens ts := by
  induction ts with
  | nil => exact Nat.le_of_eq (congrArg missingParens (List.suffix_nil.1 h))
  | cons t ts ih =>
    rcases List.suffix_cons_iff.1 h with rfl | h
    · exact Nat.le_refl _
    · exact Nat.le_trans (ih h) (missingParens_le_cons t ts)

theorem missingParens_cons_of_not (t : Token) (ts : List Token)
    (h : ¬(GuardedFront (t :: ts) ∧ PlainMinus (t :: ts))) :
    missingParens (t :: ts) = missingParens ts + 1 := by
  rw [missingParens, if_neg h, Nat.add_comm]

/-! ## The depth of what is read -/

/-- How deep a part of the reader, with a budget for the expressions nested in it, nests what it
    reads, counting the missing parentheses ahead. Behind a minus a reference is not nested. A chain
    makes what it does of a left operand within a bound that covers the right operands too. -/
def Part.Nests (budget : Nat) (ts : List Token) (e : Expr) (rest : List Token) : Part → Prop
  | .expression minPower => minPower ≤ 13 →
      e.depthAt (minPower / 2 + 1) + missingParens rest ≤ budget + missingParens ts ∧
        (minPower = 13 → startsReference ts = true →
          Expr.nested (!e.isReference) e.depth + missingParens rest ≤ budget + missingParens ts)
  | .operand => e.depthAt 7 + missingParens rest ≤ budget + 1 + missingParens ts ∧
      (startsReference ts = true →
        Expr.nested (!e.isReference) e.depth + missingParens rest ≤ budget + 1 + missingParens ts)
  | .chain minPower left => ∀ bound level, minPower / 2 + 1 ≤ level → FrontWithin level ts →
      left.depthAt level + missingParens ts ≤ bound → budget + 1 + missingParens ts ≤ bound →
        e.depthAt (minPower / 2 + 1) + missingParens rest ≤ bound
  | .values | .items => e.depth + missingParens rest ≤ budget + missingParens ts

/-- No operator continues an operand of a unary operator. -/
theorem eq_of_chain_operandPower {left : Expr} (h : Reads r (.chain 13 left) ts qs e rest) :
    e = left ∧ rest = ts := by
  cases h with
  | stop _ => exact ⟨rfl, rfl⟩
  | binary hop | membership hop =>
    obtain ⟨hlow, hhigh⟩ := level_of_nextOperator? hop
    omega

theorem nests_unary {op : Operator} {budget : Nat} (ht : t.kind.unary? = some op)
    (h : (Part.expression op.operandPower).Nests budget ts e rest) :
    Part.operand.Nests budget (t :: ts) (.unary op e) rest := by
  have hle := missingParens_le_cons t ts
  rcases unary?_eq_some ht with ⟨hk, rfl⟩ | ⟨hk, rfl⟩
  · obtain ⟨hdepth, -⟩ := h (Nat.le_refl 13)
    have hseven : e.depthAt 7 + missingParens rest ≤ budget + missingParens ts := hdepth
    refine ⟨?_, fun hstart => ?_⟩
    · rw [Expr.depthAt_of_le (Nat.le_refl 7), Expr.depth_not]
      omega
    · simp [startsReference, hk] at hstart
  · obtain ⟨hdepth, hreference⟩ := h (Nat.le_refl 13)
    refine ⟨?_, fun hstart => ?_⟩
    · rw [Expr.depthAt_of_le (Nat.le_refl 7), Expr.depth_neg]
      cases hstart : startsReference ts with
      | true =>
        have := hreference rfl hstart
        omega
      | false =>
        -- the parentheses that are written here are missing in the tokens
        have hmissing := missingParens_cons_of_not t ts fun hplain => by
          rw [hplain.2 hk] at hstart
          cases hstart
        have hnested := Expr.nested_le (!e.isReference) e.depth
        have hseven := Expr.depth_le_depthAt 7 e
        have hdepth : e.depthAt 7 + missingParens rest ≤ budget + missingParens ts := hdepth
        omega
    · simp [startsReference, hk] at hstart

theorem nests_membership {minPower budget : Nat} {left right : Expr} {op : Operator}
    {ts' : List Token} (hop : nextOperator? minPower (t :: ts) = some op)
    (hv : op.takesValues = true) (list : Reads r .values ts qs right ts')
    (hright : right.depth + missingParens ts' ≤ budget + missingParens ts)
    (more : (Part.chain minPower (.binary left op right)).Nests budget ts' e rest) :
    (Part.chain minPower left).Nests budget (t :: ts) e rest := by
  intro bound level hlevel hfront hleft hbudget
  have hcons := missingParens_le_cons t ts
  have hsuffix := missingParens_le list.suffix
  obtain ⟨hlow, -⟩ := level_of_nextOperator? hop
  have hwhole := Expr.depth_binary left op right
  have hin := Expr.depthAt_mono (hfront op (nextOperator?_eq_some.1 hop).1) left
  obtain ⟨items, rfl⟩ := list.eq_collection (.inl rfl)
  have htight : (Expr.collection items).depthAt (op.precedence + 1) =
      (Expr.collection items).depth := by
    apply Expr.depthAt_of_le
    rw [Operator.precedence_of_takesValues hv]
    exact Nat.le_add_left 5 3
  rw [htight] at hwhole
  by_cases hg : GuardedFront (t :: ts)
  · -- an operator that continues the chain is no tighter than the membership
    have hbehind : FrontWithin op.precedence ts' := by
      obtain ⟨u, after, rfl, hu, hrest⟩ := list.behindGroup_values
      obtain ⟨word, hword, hbinary⟩ := binary?_eq_some (nextOperator?_eq_some.1 hop).1
      obtain ⟨rfl, -⟩ := keyword_of_binary? hbinary
      rw [← hrest, Operator.precedence_of_takesValues hv]
      refine frontWithin_four (hg ?_ hu)
      cases op with
      | isIn => exact .inl hword
      | notIn => exact .inr hword
      | _ => cases hv
    refine more bound op.precedence hlow hbehind ?_ (by omega)
    rw [Expr.depthAt_operator]
    omega
  · have hmissing := missingParens_cons_of_not t ts fun hplain => hg hplain.1
    refine more bound (max op.precedence 6) (by omega) ((frontWithin_six ts').mono (by omega)) ?_
      (by omega)
    have := Expr.depthAt_le (max op.precedence 6) (.binary left op (.collection items))
    omega

/-- Each rule nests what it reads within the budget. -/
theorem nests_layer (hr : r.KeepsArguments) (budget : Nat) :
    Layer r (fun minPower ts qs e rest => Reads r (.expression minPower) ts qs e rest ∧
        (Part.expression minPower).Nests budget ts e rest)
      (fun part ts qs e rest => Reads r part ts qs e rest ∧ part.Nests budget ts e rest) where
  unary ht inner := ⟨.unary ht inner.1, nests_unary ht inner.2⟩
  literal {t _ _ rest} ht hl := by
    have := missingParens_le_cons t rest
    refine ⟨.literal ht hl, ?_, fun hstart => ?_⟩
    · rw [Expr.depthAt_of_le (Nat.le_succ 7), Expr.depth]
      omega
    · simp [startsReference, ht] at hstart
  parens {t u ts _ e rest} ht inner hu := by
    have htoken := missingParens_le_cons t ts
    have hclose := missingParens_le_cons u rest
    have hdepth := Expr.depth_le_depthAt (0 / 2 + 1) e
    have hinner := (inner.2 (Nat.zero_le 13)).1
    refine ⟨.parens ht inner.1 hu, ?_, fun _ => ?_⟩
    · have := Expr.depthAt_le 7 e
      omega
    · have := Expr.nested_le (!e.isReference) e.depth
      omega
  call {t _ ts _ args c rest} ht hw list hc := by
    have := missingParens_le_cons t ts
    have hlist : Expr.depth.depthAll args + missingParens rest ≤ budget + missingParens ts := list.2
    have hargs : Expr.depth.depthAll c.args ≤ Expr.depth.depthAll args :=
      Expr.depthAll_le fun arg harg => Expr.depth_le_depthAll (hr _ _ _ hc arg harg)
    have hdepth : c.toExpr.depth = Expr.depth.depthAll c.args + 1 := rfl
    have hreference : Expr.nested (!c.toExpr.isReference) c.toExpr.depth = c.toExpr.depth := rfl
    refine ⟨.call ht hw list.1 hc, ?_, fun _ => ?_⟩
    · rw [Expr.depthAt_of_le (Nat.le_succ 7)]
      omega
    · omega
  member {t _ m rest} ht hw hrest hm := by
    have := missingParens_le_cons t rest
    have hdepth : (Expr.member m).depth = 1 := rfl
    have hreference : Expr.nested (!(Expr.member m).isReference) (Expr.member m).depth = 1 := rfl
    refine ⟨.member ht hw hrest hm, ?_, fun _ => ?_⟩
    · rw [Expr.depthAt_of_le (Nat.le_succ 7)]
      omega
    · omega
  stop {_ left _} hop := by
    refine ⟨.stop hop, ?_⟩
    intro bound level hlevel _ hleft _
    have := Expr.depthAt_mono hlevel left
    omega
  binary {_ left op t ts _ right ts' _ _ _} hop hv operand more := by
    refine ⟨.binary hop hv operand.1 more.1, ?_⟩
    intro bound level hlevel hfront hleft hbudget
    have hcons := missingParens_le_cons t ts
    have hsuffix := missingParens_le operand.1.suffix
    obtain ⟨hlow, hsix⟩ := level_of_nextOperator? hop
    have hwhole := Expr.depth_binary left op right
    have hin := Expr.depthAt_mono (hfront op (nextOperator?_eq_some.1 hop).1) left
    have hright := (operand.2 (by unfold Operator.rightPower; omega)).1
    have hstop : FrontWithin (op.rightPower / 2) ts' := operand.1.stops
    rw [rightPower_half] at hright hstop
    refine more.2 bound op.precedence hlow hstop ?_ (by omega)
    rw [Expr.depthAt_operator]
    omega
  membership hop hv list more :=
    ⟨.membership hop hv list.1 more.1, nests_membership hop hv list.1 list.2 more.2⟩
  noValues {t u rest} ht hu := by
    have htoken := missingParens_le_cons t (u :: rest)
    have hclose := missingParens_le_cons u rest
    refine ⟨.noValues ht hu, ?_⟩
    show 0 + missingParens rest ≤ budget + missingParens (t :: u :: rest)
    omega
  values {t ts _ _ _} ht list :=
    ⟨.values ht list.1, Nat.le_trans list.2 (Nat.add_le_add_left (missingParens_le_cons t ts) _)⟩
  lastItem {ts _ e u rest} item hu := by
    have hclose := missingParens_le_cons u rest
    have hdepth := Expr.depth_le_depthAt (0 / 2 + 1) e
    have hitem := (item.2 (Nat.zero_le 13)).1
    refine ⟨.lastItem item.1 hu, ?_⟩
    show max e.depth 0 + missingParens rest ≤ budget + missingParens ts
    omega
  nextItem {ts _ e u ts' _ es rest} item hu more := by
    have hcomma := missingParens_le_cons u ts'
    have hitems := missingParens_le item.1.suffix
    have hdepth := Expr.depth_le_depthAt (0 / 2 + 1) e
    have hitem := (item.2 (Nat.zero_le 13)).1
    have hmore : Expr.depth.depthAll es + missingParens rest ≤ budget + missingParens ts' := more.2
    have hrest := missingParens_le more.1.suffix
    refine ⟨.nextItem item.1 hu more.1, ?_⟩
    show max e.depth (Expr.depth.depthAll es) + missingParens rest ≤ budget + missingParens ts
    omega
  nested_le h := h.1.length_le
  values_le h := h.1.length_le

/-- Where expressions are read, they are nested within the budget, but for missing parentheses. -/
theorem expression_nests (hr : r.KeepsArguments) (budget minPower : Nat) (ts : List Token) :
    (expression r budget minPower ts).Gives fun qs x =>
      Reads r (.expression minPower) ts qs x.1 x.2 ∧
        (Part.expression minPower).Nests budget ts x.1 x.2 := by
  refine expression_gives_of_layers
    (fun budget part ts qs e rest => Reads r part ts qs e rest ∧ part.Nests budget ts e rest)
    (nests_layer hr) ?_ budget minPower ts
  rintro budget minPower ts qs left ts' qs' e rest ⟨first, hfirst, hreference⟩ ⟨more, hmore⟩
  refine ⟨.expression first more, fun hm => ⟨?_, ?_⟩⟩
  · have hsuffix := missingParens_le first.suffix
    exact hmore (budget + 1 + missingParens ts) 7 (by omega)
      ((frontWithin_six ts').mono (by decide)) hfirst (by omega)
  · rintro rfl hstart
    obtain ⟨rfl, rfl⟩ := eq_of_chain_operandPower more
    exact hreference hstart

/-- What is written for a tree nests expressions at most as deep as the budget that the tree was
    read within, but for missing parentheses. -/
theorem depth_le_of_expression (hr : r.KeepsArguments) {budget : Nat}
    (h : (expression r budget 0 ts).outcome = .ok (e, rest)) :
    e.depth ≤ budget + missingParens ts := by
  obtain ⟨-, hnests⟩ := expression_nests hr budget 0 ts _ h
  have hdepth : e.depthAt 1 + missingParens rest ≤ budget + missingParens ts :=
    (hnests (Nat.zero_le 13)).1
  have := Expr.depth_le_depthAt 1 e
  omega

end Reading

end QueryExpr
