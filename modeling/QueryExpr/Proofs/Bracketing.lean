import QueryExpr.Proofs.Matching

/-!
# Expressions with parentheses

An expression can be written with more or fewer parentheses around its operands. The reader makes
the expression of what is written exactly if the parentheses suffice: where there are none, an
operator has to reach the power that its place asks for, and the operator behind an operand may be
no tighter than the operand's own.

* `Bracketed`: an expression with the parentheses around its operands.
* `Bracketed.Proper`: its names and literals are read back, and the operators are in their places.
* `Bracketed.Suffices`: the reader makes the expression of it.
* `Bracketed.Proper.suffices`, `Bracketed.Suffices.accepted`: it does, and of nothing else.
-/

namespace QueryExpr

open Lexer (kindsOf joinKinds)
open QueryExpr.Parser (groupKinds)
open Reading (Accepted ListItem listKinds Matched)

/-- An expression with the parentheses that are written around its operands. -/
inductive Bracketed where
  | member (m : Member)
  | literal (l : Literal)
  | call (name : String) (args : List Bracketed)
  | binary (left : Bracketed) (op : Operator) (right : Bracketed)
  | unary (op : Operator) (operand : Bracketed)
  | collection (items : List Bracketed)
  | parens (inner : Bracketed)

namespace Bracketed

/-- What is written. -/
def text : Bracketed → String
  | member m => m.text
  | literal l => l.text
  | call name args => name ++ "(" ++ commaSeparated args ++ ")"
  | binary left op right => left.text ++ " " ++ op.keyword ++ " " ++ right.text
  | unary op b => Expr.opening op ++ b.text
  | collection items => "(" ++ commaSeparated items ++ ")"
  | parens b => "(" ++ b.text ++ ")"
where
  /-- Expressions with commas between them. -/
  commaSeparated : List Bracketed → String
    | [] => ""
    | [b] => b.text
    | b :: c :: bs => b.text ++ "," ++ commaSeparated (c :: bs)

/-- The expression without its parentheses. -/
def tree : Bracketed → Expr
  | member m => .member m
  | literal l => .literal l
  | call name args => .call name (trees args)
  | binary left op right => .binary left.tree op right.tree
  | unary op b => .unary op b.tree
  | collection items => .collection (trees items)
  | parens b => b.tree
where
  /-- Several expressions without their parentheses. -/
  trees : List Bracketed → List Expr
    | [] => []
    | b :: bs => b.tree :: trees bs

/-- The token of a unary operator. -/
def unaryKind (op : Operator) : Token.Kind :=
  if op = .neg then .mark .minus else .name op.keyword

/-- The kinds of the tokens that are written, each name and each literal being one. -/
def kinds : Bracketed → List Token.Kind
  | member m => [.name m.text]
  | literal l => kindsOf l.text
  | call name args => .name name :: groupKinds (joinKinds (kindsAll args))
  | binary left op right => left.kinds ++ .name op.keyword :: right.kinds
  | unary op b => unaryKind op :: b.kinds
  | collection items => groupKinds (joinKinds (kindsAll items))
  | parens b => groupKinds b.kinds
where
  /-- The kinds of the tokens of several expressions. -/
  kindsAll : List Bracketed → List (List Token.Kind)
    | [] => []
    | b :: bs => b.kinds :: kindsAll bs

/-- The level of the operators that may go on behind what is written. -/
def level : Bracketed → Nat
  | binary _ op _ => if op.takesValues then 6 else op.precedence
  | _ => 6

theorem trees_eq_map (bs : List Bracketed) : tree.trees bs = bs.map tree := by
  induction bs with
  | nil => rfl
  | cons b bs ih => rw [tree.trees, ih, List.map_cons]

theorem kindsAll_eq_map (bs : List Bracketed) : kinds.kindsAll bs = bs.map kinds := by
  induction bs with
  | nil => rfl
  | cons b bs ih => rw [kinds.kindsAll, ih, List.map_cons]

end Bracketed

/-! ## What is read back -/

/-- The text of the member is one name, and the path of the name is that of the member. -/
structure Member.LexesBack (m : Member) : Prop where
  lexes : ∃ span, Lexer.tokenize m.text = .ok [⟨.name m.text, span⟩]
  path : m.path = pathSegments m.text

/-- The text of the literal is one literal with the same value. -/
def Literal.LexesBack (l : Literal) : Prop :=
  ∃ raw span value, Lexer.tokenize l.text = .ok [⟨.literal raw, span⟩] ∧ raw.value = .ok value ∧
    value.same l = true

theorem Literal.LexesBack.kindsOf_eq {l : Literal} (h : l.LexesBack) :
    ∃ raw value, kindsOf l.text = [.literal raw] ∧ raw.value = .ok value ∧
      value.same l = true := by
  obtain ⟨raw, span, value, htokens, hvalue, hsame⟩ := h
  exact ⟨raw, value, Lexer.kindsOf_eq htokens, hvalue, hsame⟩

/-! ## The same expressions -/

namespace Expr

variable {e left right : Expr} {op : Operator}

theorem eq_of_same_member {m : Member} (h : e.same (.member m) = true) : e = .member m := by
  cases e <;> simp_all [same]

theorem eq_of_same_literal {l : Literal} (h : e.same (.literal l) = true) :
    ∃ l', e = .literal l' := by
  cases e <;> simp_all [same]

theorem eq_of_same_unary (h : e.same (.unary op right) = true) :
    ∃ right', e = .unary op right' ∧ right'.same right = true := by
  cases e <;> simp_all [same]

theorem eq_of_same_binary (h : e.same (.binary left op right) = true) :
    ∃ left' right', e = .binary left' op right' ∧ left'.same left = true ∧
      right'.same right = true := by
  cases e <;> simp_all [same]

theorem eq_of_same_call {name : String} {args : List Expr}
    (h : e.same (.call name args) = true) :
    ∃ args', e = .call name args' ∧ same.sameAll args' args = true := by
  cases e <;> simp_all [same]

theorem eq_of_same_collection {items : List Expr} (h : e.same (.collection items) = true) :
    ∃ items', e = .collection items' ∧ same.sameAll items' items = true := by
  cases e <;> simp_all [same]

theorem sameAll_iff {es es' : List Expr} :
    same.sameAll es es' = true ↔ List.Forall₂ (fun e e' => e.same e' = true) es es' := by
  induction es generalizing es' with
  | nil => cases es' <;> simp [same.sameAll]
  | cons e es ih => cases es' <;> simp [same.sameAll, ih]

end Expr

namespace Bracketed

/-- The names and literals are read back, operators have as many operands as they take, standard
    methods are called by their canonical names with as many arguments as they take, and value lists
    are right of a membership operator and nowhere else. -/
inductive Proper : Bracketed → Prop where
  | member {m} (h : m.LexesBack) : Proper (member m)
  | literal {l} (h : l.LexesBack) : Proper (literal l)
  | call {name args spec} (hname : name ∈ MethodTable.canonicalNames)
      (hspec : MethodTable.standardSpec? name = some spec)
      (hcount : spec.accepts args.length = true) (hargs : ∀ b ∈ args, Proper b) :
      Proper (call name args)
  | unary {op b} (hop : op.isUnary = true) (h : Proper b) : Proper (unary op b)
  | binary {left op right} (hop : op.isUnary = false) (hv : op.takesValues = false)
      (hl : Proper left) (hr : Proper right) : Proper (binary left op right)
  | membership {left op items} (hv : op.takesValues = true) (hl : Proper left)
      (hitems : ∀ b ∈ items, Proper b) : Proper (binary left op (collection items))
  | parens {b} (h : Proper b) : Proper (parens b)

/-- Where operators with at least the given left power are read, the reader makes the expression of
    what is written. -/
inductive Suffices : Nat → Bracketed → Prop where
  | member {minPower m} (hword : Operator.ofKeyword? m.text = none) :
      Suffices minPower (member m)
  | literal {minPower l} : Suffices minPower (literal l)
  | call {minPower name args} (hargs : ∀ b ∈ args, Suffices 0 b) :
      Suffices minPower (call name args)
  | unary {minPower op b} (h : Suffices op.operandPower b) : Suffices minPower (unary op b)
  | binary {minPower left op right} (hv : op.takesValues = false)
      (hpower : minPower ≤ op.leftPower) (hlevel : op.precedence ≤ left.level)
      (hl : Suffices minPower left) (hr : Suffices op.rightPower right) :
      Suffices minPower (binary left op right)
  | membership {minPower left op items} (hv : op.takesValues = true)
      (hpower : minPower ≤ op.leftPower) (hlevel : op.precedence ≤ left.level)
      (hl : Suffices minPower left) (hitems : ∀ b ∈ items, Suffices 0 b) :
      Suffices minPower (binary left op (collection items))
  | parens {minPower b} (h : Suffices 0 b) : Suffices minPower (parens b)

variable {b : Bracketed} {e : Expr} {minPower level : Nat}

theorem isParen_unaryKind (op : Operator) : Reading.isParen (unaryKind op) = false := by
  unfold unaryKind
  split <;> rfl

theorem unary?_unaryKind {op : Operator} (h : op.isUnary = true) :
    (unaryKind op).unary? = some op := by
  cases op <;> first | rfl | cases h

/-- Parentheses match in what is written. -/
theorem Proper.matched (h : b.Proper) : Matched b.kinds := by
  have hlist : ∀ bs : List Bracketed, (∀ b ∈ bs, Matched b.kinds) →
      Matched (groupKinds (joinKinds (kinds.kindsAll bs))) := by
    intro bs hbs
    rw [kindsAll_eq_map]
    exact (Matched.join (List.forall_mem_map.2 hbs)).group
  induction h with
  | member _ => exact .single rfl
  | literal h =>
    obtain ⟨raw, _, hkinds, -, -⟩ := h.kindsOf_eq
    rw [kinds, hkinds]
    exact .single rfl
  | call _ _ _ _ ih => exact (hlist _ ih).cons rfl
  | unary _ _ ih => exact ih.cons (isParen_unaryKind _)
  | binary _ _ _ _ ihl ihr => exact ihl.append (ihr.cons rfl)
  | membership _ _ _ ihl ih => exact ihl.append ((hlist _ ih).cons rfl)
  | parens _ ih => exact ih.group

theorem Proper.kinds_ne_nil (h : b.Proper) : b.kinds ≠ [] := by
  cases h with
  | literal h =>
    obtain ⟨raw, _, hkinds, -, -⟩ := h.kindsOf_eq
    rw [kinds, hkinds]
    exact List.cons_ne_nil _ _
  | _ => simp [kinds, groupKinds]

/-- The same expression weighs as much as what is written. -/
theorem Proper.weight_eq (h : b.Proper) (hsame : e.same b.tree = true) :
    e.weight = Reading.weight b.kinds := by
  have hlist : ∀ (bs : List Bracketed) (es : List Expr),
      (∀ b ∈ bs, ∀ {e : Expr}, e.same b.tree = true → e.weight = Reading.weight b.kinds) →
      Expr.same.sameAll es (tree.trees bs) = true →
      Expr.listWeight es = Reading.weight (groupKinds (joinKinds (kinds.kindsAll bs))) := by
    intro bs es hbs hes
    rw [trees_eq_map, Expr.sameAll_iff, List.forall₂_map_right_iff] at hes
    rw [kindsAll_eq_map]
    refine (Reading.weight_list ?_).symm
    rw [List.forall₂_map_left_iff]
    induction hes with
    | nil => exact .nil
    | cons hfirst _ ih =>
      obtain ⟨hb, hbs⟩ := List.forall_mem_cons.1 hbs
      exact .cons (hb hfirst).symm (ih hbs)
  induction h generalizing e with
  | member _ =>
    rw [Expr.eq_of_same_member hsame]
    rfl
  | literal h =>
    obtain ⟨_, rfl⟩ := Expr.eq_of_same_literal hsame
    obtain ⟨raw, _, hkinds, -, -⟩ := h.kindsOf_eq
    rw [kinds, hkinds]
    rfl
  | call _ _ _ _ ih =>
    obtain ⟨args, rfl, hargs⟩ := Expr.eq_of_same_call hsame
    rw [kinds, Reading.weight_cons rfl, ← hlist _ args (fun b hb _ => ih b hb) hargs, Nat.add_comm]
    rfl
  | unary _ _ ih =>
    obtain ⟨_, rfl, hinner⟩ := Expr.eq_of_same_unary hsame
    rw [kinds, Reading.weight_cons (isParen_unaryKind _), Expr.weight, ih hinner, Nat.add_comm]
  | binary _ _ _ _ ihl ihr =>
    obtain ⟨_, _, rfl, hleft, hright⟩ := Expr.eq_of_same_binary hsame
    rw [kinds, Reading.weight_append, Reading.weight_cons rfl, Expr.weight, ihl hleft, ihr hright]
    omega
  | membership _ _ _ ihl ih =>
    obtain ⟨_, _, rfl, hleft, hright⟩ := Expr.eq_of_same_binary hsame
    obtain ⟨items, rfl, hitems⟩ := Expr.eq_of_same_collection hright
    rw [kinds, kinds, Reading.weight_append, Reading.weight_cons rfl, Expr.weight, ihl hleft,
      ← hlist _ items (fun b hb _ => ih b hb) hitems]
    show _ + 1 + Expr.listWeight items = _
    omega
  | parens _ ih => rw [kinds, Reading.weight_group, ih hsame]

/-! ## What is accepted has enough parentheses -/

/-- What is accepted as the expression ends where it does, if a token follows each that is no
    parenthesis. -/
theorem Proper.cut (h : b.Proper) (hsame : e.same b.tree = true) {ks ys ys' : List Token.Kind}
    {k k' : Token.Kind} (haccepted : Accepted Parser.standard.resolvers minPower level ks e)
    (hk : Reading.isParen k = false) (hk' : Reading.isParen k' = false)
    (hkinds : b.kinds ++ k :: ys = ks ++ k' :: ys') : b.kinds = ks ∧ ys = ys' := by
  have hweight := (haccepted.weight_eq Parser.permutesArguments_standard).trans
    (h.weight_eq hsame)
  exact Reading.append_inj_of_weight hk hk' hkinds hweight.symm

/-- The expressions between the commas of what is written are those between the commas of what is
    accepted. -/
theorem suffices_items {items : List ListItem} {bs : List Bracketed}
    (hbs : ∀ b ∈ bs, b.Proper ∧ ∀ {level e},
      Accepted Parser.standard.resolvers 0 level b.kinds e → e.same b.tree = true → b.Suffices 0)
    (hitems : ∀ x ∈ items, Accepted Parser.standard.resolvers 0 x.level x.kinds x.tree)
    (hkinds : joinKinds (items.map ListItem.kinds) = joinKinds (bs.map kinds))
    (hsame : List.Forall₂ (fun x b => x.tree.same b.tree = true) items bs) :
    ∀ b ∈ bs, b.Suffices 0 := by
  induction hsame with
  | nil => exact List.forall_mem_nil _
  | @cons x b items bs hfirst hlater ih =>
    obtain ⟨⟨hproper, hb⟩, hbs⟩ := List.forall_mem_cons.1 hbs
    obtain ⟨hx, hitems⟩ := List.forall_mem_cons.1 hitems
    cases hlater with
    | nil =>
      have heq : x.kinds = b.kinds := by simpa [joinKinds] using hkinds
      rw [heq] at hx
      exact List.forall_mem_singleton.2 (hb hx hfirst)
    | cons hnext hlater =>
      simp only [List.map_cons, Reading.joinKinds_cons_cons] at hkinds ih
      obtain ⟨heq, hrest⟩ := hproper.cut hfirst hx rfl rfl hkinds.symm
      rw [← heq] at hx
      exact List.forall_mem_cons.2 ⟨hb hx hfirst, ih hbs hitems hrest.symm⟩

theorem groupKinds_inj {ks ks' : List Token.Kind} (h : groupKinds ks = groupKinds ks') :
    ks = ks' :=
  List.append_cancel_right (List.cons.inj h).2

/-- A list in parentheses that is accepted as a list of the same expressions. -/
theorem suffices_list {items : List ListItem} {bs : List Bracketed}
    (hbs : ∀ b ∈ bs, b.Proper ∧ ∀ {level e},
      Accepted Parser.standard.resolvers 0 level b.kinds e → e.same b.tree = true → b.Suffices 0)
    (hitems : ∀ x ∈ items, Accepted Parser.standard.resolvers 0 x.level x.kinds x.tree)
    (hkinds : groupKinds (joinKinds (kinds.kindsAll bs)) = listKinds items)
    (hsame : Expr.same.sameAll (items.map ListItem.tree) (tree.trees bs) = true) :
    ∀ b ∈ bs, b.Suffices 0 := by
  rw [kindsAll_eq_map] at hkinds
  rw [trees_eq_map, Expr.sameAll_iff, List.forall₂_map_left_iff, List.forall₂_map_right_iff]
    at hsame
  exact suffices_items hbs hitems (groupKinds_inj hkinds).symm hsame

/-- The call that is accepted is the one that is written: a canonical name stands for itself. -/
theorem args_of_canonical {name : String} {spec : MethodSpec} {args : List Expr} {c : Call}
    (hname : name ∈ MethodTable.canonicalNames)
    (hspec : MethodTable.standardSpec? name = some spec)
    (hcount : spec.accepts c.args.length = true)
    (hc : Parser.standard.resolvers.methods.resolve name args = .ok c) : c.args = args := by
  have hperm := Parser.permutesArguments_standard _ _ _ hc
  rw [hperm.length_eq] at hcount
  rw [Parser.standard_methods, Registry.resolver_resolve,
    Registry.resolve_canonical hname hspec hcount] at hc
  cases hc
  rfl

/-- If what is written is accepted as the expression, it has enough parentheses. -/
theorem Proper.suffices (h : b.Proper)
    (haccepted : Accepted Parser.standard.resolvers minPower level b.kinds e)
    (hsame : e.same b.tree = true) : b.Suffices minPower ∧ b.level = level := by
  generalize hks : b.kinds = ks at haccepted
  induction h generalizing minPower level e ks with
  | @member m h =>
    obtain rfl := Expr.eq_of_same_member hsame
    cases haccepted with
    | member hw hm =>
      cases hks
      exact ⟨.member hw, rfl⟩
    | parens _ => cases hks
  | literal h =>
    obtain ⟨_, rfl⟩ := Expr.eq_of_same_literal hsame
    obtain ⟨raw, _, hkinds, -, -⟩ := h.kindsOf_eq
    rw [kinds, hkinds] at hks
    cases haccepted with
    | literal _ => exact ⟨.literal, rfl⟩
    | parens _ => cases hks
  | @call name args spec hname hspec hcount hargs ih =>
    obtain ⟨args', rfl, hargs'⟩ := Expr.eq_of_same_call hsame
    have hlength := (Expr.sameAll_iff.1 hargs').length_eq
    rw [trees_eq_map, List.length_map] at hlength
    generalize he : Expr.call name args' = e at haccepted
    cases haccepted with
    | @call _ word c items hw hitems hc =>
      obtain ⟨hword, hlist⟩ := List.cons.inj hks
      cases hword
      obtain rfl : args' = c.args := (Expr.call.inj he).2
      rw [← hlength] at hcount
      rw [args_of_canonical hname hspec hcount hc] at hargs'
      exact ⟨.call (suffices_list (fun b hb => ⟨hargs b hb, fun haccepted hsame =>
        (ih b hb hsame _ rfl haccepted).1⟩) hitems hlist hargs'), rfl⟩
    | parens _ => cases hks
    | _ => cases he
  | @unary op b hop _ ih =>
    obtain ⟨_, rfl, hinner⟩ := Expr.eq_of_same_unary hsame
    cases haccepted with
    | unary hk haccepted =>
      obtain ⟨-, hb⟩ := List.cons.inj hks
      exact ⟨.unary (ih hinner _ hb haccepted).1, rfl⟩
    | parens _ =>
      obtain ⟨hopen, -⟩ := List.cons.inj hks
      have := isParen_unaryKind op
      rw [hopen] at this
      cases this
  | @binary left op right hop hv hl hr ihl ihr =>
    obtain ⟨left', right', rfl, hleft, hright⟩ := Expr.eq_of_same_binary hsame
    cases haccepted with
    | binary _ _ hpower hlevel hleft' hright' =>
      obtain ⟨hlk, hrk⟩ := hl.cut hleft hleft' rfl rfl hks
      obtain ⟨hsl, hll⟩ := ihl hleft _ hlk hleft'
      have hsr := (ihr hright _ hrk hright').1
      exact ⟨.binary hv hpower (hll ▸ hlevel) hsl hsr, by simp [Bracketed.level, hv]⟩
    | membership hv' => rw [hv] at hv'; cases hv'
    | parens hinner => exact absurd hks (hl.matched.ne_group hl.kinds_ne_nil hinner.matched)
  | @membership left op items hv hl hitems ihl ih =>
    obtain ⟨left', right', rfl, hleft, hright⟩ := Expr.eq_of_same_binary hsame
    obtain ⟨items', rfl, hitems'⟩ := Expr.eq_of_same_collection hright
    generalize he : Expr.collection items' = right' at haccepted
    cases haccepted with
    | binary _ hv' => rw [hv] at hv'; cases hv'
    | membership _ hpower hlevel hleft' hlist =>
      obtain ⟨hlk, hrk⟩ := hl.cut hleft hleft' rfl rfl hks
      obtain ⟨hsl, hll⟩ := ihl hleft _ hlk hleft'
      obtain rfl := Expr.collection.inj he
      exact ⟨.membership hv hpower (hll ▸ hlevel) hsl (suffices_list (fun b hb => ⟨hitems b hb,
        fun haccepted hsame => (ih b hb hsame _ rfl haccepted).1⟩) hlist hrk hitems'),
        by simp [Bracketed.level, hv]⟩
    | parens hinner => exact absurd hks (hl.matched.ne_group hl.kinds_ne_nil hinner.matched)
  | @parens b hb ih =>
    cases haccepted with
    | parens hinner => exact ⟨.parens (ih hsame _ (groupKinds_inj hks) hinner).1, rfl⟩
    | binary _ _ _ _ hleft' _ =>
      exact absurd hks.symm (hleft'.matched.ne_group hleft'.ne_nil hb.matched)
    | membership _ _ _ hleft' _ =>
      exact absurd hks.symm (hleft'.matched.ne_group hleft'.ne_nil hb.matched)
    | unary hk _ =>
      obtain ⟨rfl, -⟩ := List.cons.inj hks
      cases hk
    | _ => cases hks

/-! ## What has enough parentheses is accepted -/

/-- Several expressions that are accepted one by one are the items of a list. -/
theorem exists_items {bs : List Bracketed}
    (h : ∀ b ∈ bs, ∃ e, e.same b.tree = true ∧
      Accepted Parser.standard.resolvers 0 b.level b.kinds e) :
    ∃ items : List ListItem, listKinds items = groupKinds (joinKinds (kinds.kindsAll bs)) ∧
      Expr.same.sameAll (items.map ListItem.tree) (tree.trees bs) = true ∧
      ∀ x ∈ items, Accepted Parser.standard.resolvers 0 x.level x.kinds x.tree := by
  have hitems : ∃ items : List ListItem, items.map ListItem.kinds = bs.map kinds ∧
      Expr.same.sameAll (items.map ListItem.tree) (tree.trees bs) = true ∧
      ∀ x ∈ items, Accepted Parser.standard.resolvers 0 x.level x.kinds x.tree := by
    induction bs with
    | nil => exact ⟨[], rfl, rfl, List.forall_mem_nil _⟩
    | cons b bs ih =>
      obtain ⟨⟨e, hsame, haccepted⟩, hbs⟩ := List.forall_mem_cons.1 h
      obtain ⟨items, hkinds, hsames, hitems⟩ := ih hbs
      refine ⟨⟨b.kinds, b.level, e⟩ :: items, by rw [List.map_cons, hkinds, List.map_cons], ?_,
        List.forall_mem_cons.2 ⟨haccepted, hitems⟩⟩
      rw [List.map_cons, tree.trees, Expr.same.sameAll, hsame, hsames]
      rfl
  obtain ⟨items, hkinds, hsame, haccepted⟩ := hitems
  exact ⟨items, by rw [listKinds, hkinds, kindsAll_eq_map], hsame, haccepted⟩

theorem resolve_member {m : Member} (h : m.LexesBack) :
    Parser.standard.resolvers.members.resolve (pathSegments m.text) = .ok m := by
  rw [← h.path]
  rfl

/-- What has enough parentheses is accepted as the expression. -/
theorem Suffices.accepted (h : b.Suffices minPower) (hb : b.Proper) :
    ∃ e, e.same b.tree = true ∧
      Accepted Parser.standard.resolvers minPower b.level b.kinds e := by
  induction h with
  | @member _ m hword =>
    cases hb with
    | member hm => exact ⟨.member m, by simp [tree, Expr.same], .member hword (resolve_member hm)⟩
  | @literal _ l =>
    cases hb with
    | literal hl =>
      obtain ⟨raw, value, hkinds, hvalue, hsame⟩ := hl.kindsOf_eq
      refine ⟨.literal value, hsame, ?_⟩
      rw [kinds, hkinds]
      exact .literal hvalue
  | @call _ name args _ ih =>
    cases hb with
    | call hname hspec hcount hargs =>
      obtain ⟨items, hkinds, hsame, hitems⟩ := exists_items fun b hb => ih b hb (hargs b hb)
      have hlength : (items.map ListItem.tree).length = args.length := by
        rw [(Expr.sameAll_iff.1 hsame).length_eq, trees_eq_map, List.length_map]
      have hresolve : Parser.standard.resolvers.methods.resolve name (items.map ListItem.tree) =
          .ok ⟨name, items.map ListItem.tree⟩ := by
        rw [Parser.standard_methods, Registry.resolver_resolve]
        exact Registry.resolve_canonical hname hspec (by rwa [hlength])
      refine ⟨.call name (items.map ListItem.tree), by simp [tree, Expr.same, hsame], ?_⟩
      rw [kinds, ← hkinds]
      exact .call (MethodTable.nameText_canonical hname).2.2.1 hitems hresolve
  | @unary _ op b _ ih =>
    cases hb with
    | unary hop hb =>
      obtain ⟨e, hsame, haccepted⟩ := ih hb
      exact ⟨.unary op e, by simp [tree, Expr.same, hsame],
        .unary (unary?_unaryKind hop) haccepted⟩
  | @binary _ left op right hv hpower hlevel _ _ ihl ihr =>
    cases hb with
    | binary hop _ hl hr =>
      obtain ⟨e, hsame, haccepted⟩ := ihl hl
      obtain ⟨e', hsame', haccepted'⟩ := ihr hr
      have hlevel' : (Bracketed.binary left op right).level = op.precedence := by
        simp [Bracketed.level, hv]
      refine ⟨.binary e op e', by simp [tree, Expr.same, hsame, hsame'], ?_⟩
      rw [hlevel']
      exact .binary hop hv hpower hlevel haccepted haccepted'
    | membership hv' => rw [hv] at hv'; cases hv'
  | @membership _ left op items hv hpower hlevel _ _ ihl ih =>
    cases hb with
    | binary _ hv' => rw [hv] at hv'; cases hv'
    | membership _ hl hitems =>
      obtain ⟨e, hsame, haccepted⟩ := ihl hl
      obtain ⟨items', hkinds, hsame', hitems'⟩ := exists_items fun b hb => ih b hb (hitems b hb)
      have hlevel' : (Bracketed.binary left op (collection items)).level = 6 := by
        simp [Bracketed.level, hv]
      refine ⟨.binary e op (.collection (items'.map ListItem.tree)),
        by simp [tree, Expr.same, hsame, hsame'], ?_⟩
      rw [hlevel', kinds, kinds, ← hkinds]
      exact .membership hv hpower hlevel haccepted hitems'
  | parens _ ih =>
    cases hb with
    | parens hb =>
      obtain ⟨e, hsame, haccepted⟩ := ih hb
      exact ⟨e, hsame, .parens haccepted⟩

end Bracketed

end QueryExpr
