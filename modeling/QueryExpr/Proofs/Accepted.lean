import QueryExpr.Proofs.Composition
import QueryExpr.Proofs.Operands

/-!
# What the reader accepts

The grammar has no value list as an operand of arithmetic, but the reader accepts one there. What it
accepts has rules of its own, in which each phrase says how tight an operator may be that goes on
behind it: behind an operation no tighter than its operator, behind an operand or a value list of
any level.

* `Accepted`: the kinds of tokens that are accepted as an expression, with its tree.
* `Reads.accepted`: what is read is accepted.
* `Accepted.goesOn`: what is accepted is read.
* `accepted_of_filter`, `filter_of_accepted`: filters are what is accepted.
-/

namespace QueryExpr.Reading

open Lexer (joinKinds)
open QueryExpr.Parser (groupKinds exists_of_groupKinds)

/-! ## Rules for kinds of tokens -/

/-- An item of a list: the kinds of its tokens, the level of the operators that may go on behind it,
    and its tree. -/
structure ListItem where
  kinds : List Token.Kind
  level : Nat
  tree : Expr

/-- The tokens of items in parentheses. -/
def listKinds (items : List ListItem) : List Token.Kind :=
  groupKinds (joinKinds (items.map ListItem.kinds))

/-- Tokens of these kinds are accepted as an expression whose operators have at least the given left
    power. An operator goes on behind it if its level is at most the given one. -/
inductive Accepted (r : Resolvers) : Nat → Nat → List Token.Kind → Expr → Prop where
  | literal {minPower raw l} (hl : raw.value = .ok l) :
      Accepted r minPower 6 [.literal raw] (.literal l)
  | member {minPower word m} (hw : Operator.ofKeyword? word = none)
      (hm : r.members.resolve (pathSegments word) = .ok m) :
      Accepted r minPower 6 [.name word] (.member m)
  | call {minPower word c} {items : List ListItem} (hw : word ≠ "not")
      (hitems : ∀ x ∈ items, Accepted r 0 x.level x.kinds x.tree)
      (hc : r.methods.resolve word (items.map ListItem.tree) = .ok c) :
      Accepted r minPower 6 (.name word :: listKinds items) c.toExpr
  | unary {minPower op level ks e} {k : Token.Kind} (hk : k.unary? = some op)
      (inner : Accepted r op.operandPower level ks e) :
      Accepted r minPower 6 (k :: ks) (.unary op e)
  | parens {minPower level ks e} (inner : Accepted r 0 level ks e) :
      Accepted r minPower 6 (groupKinds ks) e
  | binary {minPower level level' op ks ks' left right} (hop : op.isUnary = false)
      (hv : op.takesValues = false) (hpower : minPower ≤ op.leftPower)
      (hlevel : op.precedence ≤ level) (hleft : Accepted r minPower level ks left)
      (hright : Accepted r op.rightPower level' ks' right) :
      Accepted r minPower op.precedence (ks ++ .name op.keyword :: ks') (.binary left op right)
  | membership {minPower level op ks left} {items : List ListItem} (hv : op.takesValues = true)
      (hpower : minPower ≤ op.leftPower) (hlevel : op.precedence ≤ level)
      (hleft : Accepted r minPower level ks left)
      (hitems : ∀ x ∈ items, Accepted r 0 x.level x.kinds x.tree) :
      Accepted r minPower 6 (ks ++ .name op.keyword :: listKinds items)
        (.binary left op (.collection (items.map ListItem.tree)))

theorem joinKinds_cons_cons (ks ks' : List Token.Kind) (kss : List (List Token.Kind)) :
    joinKinds (ks :: ks' :: kss) = ks ++ .mark .comma :: joinKinds (ks' :: kss) := rfl

variable {r : Resolvers} {ts rest : List Token} {qs : List Request} {e : Expr}

/-! ## What is read is accepted -/

/-- What a part of the reader has taken is accepted. A chain goes on with what is accepted in front
    of it, if the operator at its front may. -/
def Part.Accepts (r : Resolvers) (ts : List Token) (e : Expr) (rest : List Token) : Part → Prop
  | .expression minPower => ∃ ks level, ts.map Token.kind = ks ++ rest.map Token.kind ∧
      Accepted r minPower level ks e
  | .operand => ∃ ks, ts.map Token.kind = ks ++ rest.map Token.kind ∧
      ∀ minPower, Accepted r minPower 6 ks e
  | .chain minPower left => ∀ ks₀ level, Accepted r minPower level ks₀ left →
      FrontWithin level ts → ∃ ks level', ts.map Token.kind = ks ++ rest.map Token.kind ∧
        Accepted r minPower level' (ks₀ ++ ks) e
  | .values => ∃ items : List ListItem, e = .collection (items.map ListItem.tree) ∧
      (∀ x ∈ items, Accepted r 0 x.level x.kinds x.tree) ∧
      ts.map Token.kind = listKinds items ++ rest.map Token.kind
  | .items => ∃ (first : ListItem) (items : List ListItem),
      e = .collection ((first :: items).map ListItem.tree) ∧
      (∀ x ∈ first :: items, Accepted r 0 x.level x.kinds x.tree) ∧
      ts.map Token.kind =
        joinKinds ((first :: items).map ListItem.kinds) ++
          .mark .parenClose :: rest.map Token.kind

/-- The operator of a chain is a name and binary. -/
theorem kind_of_nextOperator? {minPower : Nat} {t : Token} {op : Operator}
    (h : nextOperator? minPower (t :: ts) = some op) :
    t.kind = .name op.keyword ∧ op.isUnary = false ∧ minPower ≤ op.leftPower := by
  obtain ⟨hfront, hpower⟩ := nextOperator?_eq_some.1 h
  obtain ⟨word, hword, hbinary⟩ := binary?_eq_some hfront
  obtain ⟨rfl, hop⟩ := keyword_of_binary? hbinary
  exact ⟨hword, hop, hpower⟩

theorem Reads.accepted {part : Part} (h : Reads r part ts qs e rest) :
    part.Accepts r ts e rest := by
  induction h with
  | @expression minPower _ _ _ ts' _ _ _ _ _ ihf ihm =>
    obtain ⟨ks, hks, hfirst⟩ := ihf
    obtain ⟨ks', level, hks', haccepted⟩ := ihm ks 6 (hfirst minPower) (frontWithin_six ts')
    exact ⟨ks ++ ks', level, by rw [hks, hks', List.append_assoc], haccepted⟩
  | @unary t _ _ _ _ _ ht _ ih =>
    obtain ⟨ks, level, hks, hinner⟩ := ih
    exact ⟨t.kind :: ks, by rw [List.map_cons, hks, List.cons_append], fun _ => .unary ht hinner⟩
  | @literal t raw _ _ ht hl =>
    exact ⟨[.literal raw], by rw [List.map_cons, ht]; rfl, fun _ => .literal hl⟩
  | @parens t u _ _ _ _ ht _ hu ih =>
    obtain ⟨ks, level, hks, hinner⟩ := ih
    refine ⟨groupKinds ks, ?_, fun _ => .parens hinner⟩
    simp [groupKinds, ht, hks, hu]
  | @call t word _ _ _ _ _ ht hw _ hc ih =>
    obtain ⟨items, heq, hitems, hks⟩ := ih
    obtain rfl := Expr.collection.inj heq
    refine ⟨.name word :: listKinds items, ?_, fun _ => .call hw hitems hc⟩
    rw [List.map_cons, ht, hks, List.cons_append]
  | @member t word _ _ ht hw _ hm =>
    exact ⟨[.name word], by rw [List.map_cons, ht]; rfl, fun _ => .member hw hm⟩
  | stop _ =>
    intro ks₀ level hleft _
    exact ⟨[], level, rfl, by rwa [List.append_nil]⟩
  | @binary minPower left op t _ _ right ts' _ _ _ hop hv operand _ iho ihm =>
    intro ks₀ level hleft hfront
    obtain ⟨ht, hu, hpower⟩ := kind_of_nextOperator? hop
    obtain ⟨ks, level', hks, hright⟩ := iho
    have hlevel := hfront op (nextOperator?_eq_some.1 hop).1
    have hstop : FrontWithin (op.rightPower / 2) ts' := operand.stops
    rw [rightPower_half] at hstop
    obtain ⟨ks', level'', hks', haccepted⟩ := ihm (ks₀ ++ .name op.keyword :: ks) op.precedence
      (.binary hu hv hpower hlevel hleft hright) hstop
    refine ⟨.name op.keyword :: (ks ++ ks'), level'', ?_, ?_⟩
    · rw [List.map_cons, ht, hks, hks', List.cons_append, List.append_assoc]
    · simpa using haccepted
  | @membership minPower left op t _ _ _ ts' _ _ _ hop hv _ _ ihl ihm =>
    intro ks₀ level hleft hfront
    obtain ⟨ht, -, hpower⟩ := kind_of_nextOperator? hop
    obtain ⟨items, rfl, hitems, hks⟩ := ihl
    have hlevel := hfront op (nextOperator?_eq_some.1 hop).1
    -- behind a value list, the chain goes on with any operator
    obtain ⟨ks', level', hks', haccepted⟩ := ihm (ks₀ ++ .name op.keyword :: listKinds items) 6
      (.membership hv hpower hlevel hleft hitems) (frontWithin_six ts')
    refine ⟨.name op.keyword :: (listKinds items ++ ks'), level', ?_, ?_⟩
    · rw [List.map_cons, ht, hks, hks', List.cons_append, List.append_assoc]
    · simpa using haccepted
  | noValues ht hu =>
    exact ⟨[], rfl, List.forall_mem_nil _, by simp [listKinds, groupKinds, joinKinds, ht, hu]⟩
  | values ht _ ih =>
    obtain ⟨first, items, heq, hitems, hks⟩ := ih
    exact ⟨first :: items, heq, hitems, by simp [listKinds, groupKinds, ht, hks]⟩
  | @lastItem _ _ e _ _ _ hu ih =>
    obtain ⟨ks, level, hks, hitem⟩ := ih
    refine ⟨⟨ks, level, e⟩, [], rfl, List.forall_mem_singleton.2 hitem, ?_⟩
    simp [joinKinds, hks, hu]
  | @nextItem _ _ e _ _ _ _ _ _ hu _ ihi ihm =>
    obtain ⟨ks, level, hks, hitem⟩ := ihi
    obtain ⟨first, items, heq, hitems, hks'⟩ := ihm
    obtain rfl := Expr.collection.inj heq
    refine ⟨⟨ks, level, e⟩, first :: items, rfl, List.forall_mem_cons.2 ⟨hitem, hitems⟩, ?_⟩
    rw [hks, List.map_cons, hu, hks']
    simp [joinKinds_cons_cons]

/-! ## What is accepted is read -/

/-- Tokens of the kinds are read as the tree: whatever a chain makes of the tree and of the tokens
    behind it is read of all the tokens, if the operator there may go on. -/
def GoesOn (r : Resolvers) (minPower level : Nat) (ks : List Token.Kind) (e : Expr) : Prop :=
  ∀ {ts rest : List Token}, ts.map Token.kind = ks → FrontWithin level rest →
    startsWith .parenOpen rest = false → ∀ {qs e' rest'},
      Reads r (.chain minPower e) rest qs e' rest' →
        ∃ qs, Reads r (.expression minPower) (ts ++ rest) qs e' rest'

/-- Nothing goes on where no operator reaches the minimum. -/
theorem GoesOn.stop {minPower level : Nat} {ks : List Token.Kind}
    (h : GoesOn r minPower level ks e) (hts : ts.map Token.kind = ks)
    (hlevel : FrontWithin level rest) (hopen : startsWith .parenOpen rest = false)
    (hrest : FrontWithin (minPower / 2) rest) :
    ∃ qs, Reads r (.expression minPower) (ts ++ rest) qs e rest :=
  h hts hlevel hopen (.stop (nextOperator?_eq_none.2 hrest))

/-- An operand is an expression, whatever goes on behind it. -/
theorem goesOn_of_operand {minPower : Nat} {ks : List Token.Kind}
    (h : ∀ ts rest : List Token, ts.map Token.kind = ks → startsWith .parenOpen rest = false →
      ∃ qs, Reads r .operand (ts ++ rest) qs e rest) : GoesOn r minPower 6 ks e := by
  intro ts rest hts _ hopen qs' e' rest' more
  obtain ⟨qs, hfirst⟩ := h ts rest hts hopen
  exact ⟨_, .expression hfirst more⟩

section

variable {items : List ListItem} (h : ∀ x ∈ items, GoesOn r 0 x.level x.kinds x.tree)

/-- Items behind one another, the first of which is there, are read up to the parenthesis behind
    them. -/
theorem reads_items {first : ListItem} (hfirst : GoesOn r 0 first.level first.kinds first.tree)
    (h : ∀ x ∈ items, GoesOn r 0 x.level x.kinds x.tree)
    (hts : ts.map Token.kind = joinKinds ((first :: items).map ListItem.kinds)) {u : Token}
    (hu : u.kind = .mark .parenClose) (rest : List Token) :
    ∃ qs, Reads r .items (ts ++ u :: rest) qs
      (.collection ((first :: items).map ListItem.tree)) rest := by
  induction items generalizing first ts with
  | nil =>
    have hkinds : ts.map Token.kind = first.kinds := by simpa [joinKinds] using hts
    obtain ⟨qs, hread⟩ := hfirst.stop hkinds (frontWithin_of_mark hu rest)
      (by simp [startsWith, hu]) (frontWithin_of_mark hu rest)
    exact ⟨qs, .lastItem hread hu⟩
  | cons next items ih =>
    obtain ⟨hnext, hitems⟩ := List.forall_mem_cons.1 h
    rw [List.map_cons, List.map_cons, joinKinds_cons_cons] at hts
    obtain ⟨us, ws, rfl, hus, hws⟩ := List.map_eq_append_iff.1 hts
    obtain ⟨v, vs, rfl, hv, hvs⟩ := List.map_eq_cons_iff.1 hws
    obtain ⟨qs', hmore⟩ := ih hnext hitems hvs
    obtain ⟨qs, hread⟩ := hfirst.stop hus (frontWithin_of_mark hv (vs ++ u :: rest))
      (by simp [startsWith, hv]) (frontWithin_of_mark hv _)
    rw [List.append_assoc]
    exact ⟨_, .nextItem hread hv hmore⟩

include h

/-- Items in parentheses are read as a value list. -/
theorem reads_values (hts : ts.map Token.kind = listKinds items) (rest : List Token) :
    ∃ qs, Reads r .values (ts ++ rest) qs (.collection (items.map ListItem.tree)) rest := by
  rw [← List.append_nil (listKinds items)] at hts
  obtain ⟨t, us, u, vs, rfl, ht, hus, hu, hvs⟩ := exists_of_groupKinds hts
  obtain rfl := List.map_eq_nil_iff.1 hvs
  rw [List.cons_append, List.append_assoc, List.singleton_append]
  cases items with
  | nil =>
    obtain rfl := List.map_eq_nil_iff.1 hus
    exact ⟨_, .noValues ht hu⟩
  | cons first items =>
    obtain ⟨hfirst, hitems⟩ := List.forall_mem_cons.1 h
    obtain ⟨qs, hread⟩ := reads_items hfirst hitems hus hu rest
    exact ⟨qs, .values ht hread⟩

end

/-- An operator may go on behind what is accepted if it does not reach the minimum. -/
theorem Accepted.half_le {minPower level : Nat} {ks : List Token.Kind}
    (h : Accepted r minPower level ks e) (hpower : minPower ≤ 13) : minPower / 2 ≤ level := by
  cases h with
  | binary _ _ hle _ _ _ =>
    unfold Operator.leftPower at hle
    omega
  | _ => omega

theorem frontOperator?_keyword {t : Token} {op : Operator} (ht : t.kind = .name op.keyword)
    (hop : op.isUnary = false) (ts : List Token) : frontOperator? (t :: ts) = some op := by
  rw [frontOperator?, ht]
  exact Operator.binary?_keyword hop

/-- The left operand of a binary operator that may go on behind it. -/
theorem GoesOn.left {minPower level : Nat} {ks ks' : List Token.Kind} {op : Operator}
    (h : GoesOn r minPower level ks e) (hop : op.isUnary = false)
    (hpower : minPower ≤ op.leftPower) (hlevel : op.precedence ≤ level)
    (hts : ts.map Token.kind = ks ++ .name op.keyword :: ks') (rest : List Token) :
    ∃ t vs, vs.map Token.kind = ks' ∧ nextOperator? minPower (t :: (vs ++ rest)) = some op ∧
      ∀ {qs e' rest'}, Reads r (.chain minPower e) (t :: (vs ++ rest)) qs e' rest' →
        ∃ qs, Reads r (.expression minPower) (ts ++ rest) qs e' rest' := by
  obtain ⟨us, ws, rfl, hus, hws⟩ := List.map_eq_append_iff.1 hts
  obtain ⟨t, vs, rfl, ht, hvs⟩ := List.map_eq_cons_iff.1 hws
  have hfront := frontOperator?_keyword ht hop (vs ++ rest)
  refine ⟨t, vs, hvs, nextOperator?_eq_some.2 ⟨hfront, hpower⟩, ?_⟩
  have hwithin : FrontWithin level (t :: (vs ++ rest)) := by
    intro op' hop'
    rw [hfront] at hop'
    cases hop'
    exact hlevel
  intro qs e' rest' more
  rw [List.append_assoc]
  exact h hus hwithin (by simp [startsWith, ht]) more

/-- What is accepted is read. -/
theorem Accepted.goesOn {minPower level : Nat} {ks : List Token.Kind}
    (h : Accepted r minPower level ks e) : GoesOn r minPower level ks e := by
  induction h with
  | literal hl =>
    refine goesOn_of_operand fun ts rest hts _ => ?_
    obtain ⟨t, ts, rfl, ht, hts⟩ := List.map_eq_cons_iff.1 hts
    obtain rfl := List.map_eq_nil_iff.1 hts
    exact ⟨_, .literal ht hl⟩
  | member hw hm =>
    refine goesOn_of_operand fun ts rest hts hopen => ?_
    obtain ⟨t, ts, rfl, ht, hts⟩ := List.map_eq_cons_iff.1 hts
    obtain rfl := List.map_eq_nil_iff.1 hts
    exact ⟨_, .member ht hw hopen hm⟩
  | call hw _ hc ih =>
    refine goesOn_of_operand fun ts rest hts _ => ?_
    obtain ⟨t, ts, rfl, ht, hts⟩ := List.map_eq_cons_iff.1 hts
    obtain ⟨qs, hlist⟩ := reads_values ih hts rest
    exact ⟨_, .call ht hw hlist hc⟩
  | @unary _ op _ _ _ _ hk hinner ih =>
    refine goesOn_of_operand fun ts rest hts hopen => ?_
    obtain ⟨t, ts, rfl, ht, hts⟩ := List.map_eq_cons_iff.1 hts
    rw [← ht] at hk
    -- no binary operator reaches the power of a unary one
    have hpower : op.operandPower = 13 := by
      rcases unary?_eq_some hk with ⟨-, rfl⟩ | ⟨-, rfl⟩ <;> rfl
    have hsix := hinner.half_le (Nat.le_of_eq hpower)
    rw [hpower] at hsix
    have hfront := frontWithin_six rest
    obtain ⟨qs, hread⟩ := ih.stop hts (hfront.mono hsix) hopen (by rwa [hpower])
    exact ⟨qs, .unary hk hread⟩
  | parens _ ih =>
    refine goesOn_of_operand fun ts rest hts _ => ?_
    rw [← List.append_nil (groupKinds _)] at hts
    obtain ⟨t, us, u, vs, rfl, ht, hus, hu, hvs⟩ := exists_of_groupKinds hts
    obtain rfl := List.map_eq_nil_iff.1 hvs
    obtain ⟨qs, hinner⟩ := ih.stop hus (frontWithin_of_mark hu rest) (by simp [startsWith, hu])
      (frontWithin_of_mark hu rest)
    rw [List.cons_append, List.append_assoc, List.singleton_append]
    exact ⟨_, .parens ht hinner hu⟩
  | @binary minPower level level' op ks ks' left right hop hv hpower hlevel _ hright ihl ihr =>
    intro ts rest hts hfront hopen qs' e' rest' more
    obtain ⟨t, vs, hvs, hnext, hleft⟩ := ihl.left hop hpower hlevel hts rest
    -- the right operand stops in front of the operators that go on behind the operation
    have hle := (level_of_nextOperator? hnext).2
    have hsix := hright.half_le (by unfold Operator.rightPower; omega)
    rw [rightPower_half] at hsix
    obtain ⟨qs, hread⟩ := ihr.stop hvs (hfront.mono hsix) hopen (by rwa [rightPower_half])
    exact hleft (.binary hnext hv hread more)
  | membership hv hpower hlevel _ _ ihl ihv =>
    intro ts rest hts _ _ qs' e' rest' more
    obtain ⟨t, vs, hvs, hnext, hleft⟩ :=
      ihl.left (Operator.isUnary_of_takesValues hv) hpower hlevel hts rest
    obtain ⟨qs, hlist⟩ := reads_values ihv hvs rest
    exact hleft (.membership hnext hv hlist more)

/-! ## Filters -/

/-- The kinds of tokens that are read as a filter are accepted as its tree. Here value lists may be
    operands of arithmetic. -/
theorem accepted_of_filter {budget : Nat} (h : (filter r budget ts).outcome = .ok (some e)) :
    ∃ level, Accepted r 0 level (ts.map Token.kind) e := by
  have hread := expression_gives r budget 0 ts _ (expression_of_filter h)
  obtain ⟨ks, level, hks, haccepted⟩ := hread.accepted
  rw [List.map_nil, List.append_nil] at hks
  exact ⟨level, hks ▸ haccepted⟩

/-- Tokens are read as a filter if their kinds are accepted as its tree and the budget covers
    them. -/
theorem filter_of_accepted {budget : Nat} (hb : ts.length ≤ budget)
    (h : Accepted r 0 level (ts.map Token.kind) e) :
    (filter r budget ts).outcome = .ok (some e) := by
  have hnone : ∀ n, FrontWithin n [] := fun n op hop => by cases hop
  have hgoesOn : GoesOn r 0 level (ts.map Token.kind) e := h.goesOn
  obtain ⟨qs, hread⟩ := hgoesOn.stop rfl (hnone level) rfl (hnone 0)
  rw [List.append_nil] at hread
  exact filter_of_reads hread hb

end QueryExpr.Reading
