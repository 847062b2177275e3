import Mathlib.Data.List.Forall2
import QueryExpr.Proofs.Accepted

/-!
# Counting tokens

How many tokens an expression takes that are no parentheses is told by its tree alone, and the
parentheses among its tokens match. So it is told by the tree where an operand ends.

* `Reading.weight`, `Reading.nesting`: what is counted.
* `Reading.append_inj_of_weight`: where a list is cut is told by the weight of its front.
* `Reading.Matched`: parentheses match.
* `Expr.weight`, `Reading.Accepted.weight_eq`: what is accepted weighs as much as its tree.
* `Reading.Accepted.matched`: parentheses match in what is accepted.
-/

namespace QueryExpr

/-! ## Trees -/

/-- How many tokens that are no parentheses are written for an expression. -/
def Expr.weight : Expr → Nat
  | member _ | literal _ => 1
  | call _ args => 1 + (all args + (args.length - 1))
  | binary left _ right => left.weight + 1 + right.weight
  | unary _ e => 1 + e.weight
  | collection items => all items + (items.length - 1)
where
  /-- How many are written for all of several expressions. -/
  all : List Expr → Nat
    | [] => 0
    | e :: es => e.weight + all es

/-- How many tokens that are no parentheses are written for expressions with commas between
    them. -/
def Expr.listWeight (es : List Expr) : Nat := weight.all es + (es.length - 1)

/-- The order of expressions does not matter. -/
theorem Expr.listWeight_perm {es es' : List Expr} (h : es.Perm es') :
    listWeight es = listWeight es' := by
  have hall : weight.all es = weight.all es' := by
    induction h with
    | nil => rfl
    | cons e _ ih => rw [weight.all, weight.all, ih]
    | swap e e' es =>
      simp only [weight.all]
      omega
    | trans _ _ ih ih' => exact ih.trans ih'
  rw [listWeight, listWeight, hall, h.length_eq]

/-- What is asked for with some arguments has them, in whatever order. -/
def Resolvers.PermutesArguments (r : Resolvers) : Prop :=
  ∀ name args c, r.methods.resolve name args = .ok c → c.args.Perm args

namespace Reading

open Lexer (joinKinds)
open QueryExpr.Parser (groupKinds)

/-! ## Weights -/

/-- Whether the token is a parenthesis. -/
def isParen : Token.Kind → Bool
  | .mark .parenOpen | .mark .parenClose => true
  | _ => false

/-- How many tokens are no parentheses. -/
def weight (ks : List Token.Kind) : Nat := ks.countP (!isParen ·)

variable {k : Token.Kind} {ks ks' xs ys xs' ys' : List Token.Kind} {kss : List (List Token.Kind)}

theorem weight_append : weight (ks ++ ks') = weight ks + weight ks' := List.countP_append

theorem weight_cons (h : isParen k = false) : weight (k :: ks) = weight ks + 1 :=
  List.countP_cons_of_pos (by rw [h]; rfl)

theorem weight_group : weight (groupKinds ks) = weight ks := by
  simp [weight, groupKinds, isParen]

/-- The weight of lists with a comma in front of each. -/
theorem weight_later :
    weight (kss.flatMap (.mark .comma :: ·)) = weight kss.flatten + kss.length := by
  induction kss with
  | nil => rfl
  | cons ks kss ih =>
    rw [List.flatMap_cons, weight_append, weight_cons rfl, ih, List.flatten_cons, weight_append,
      List.length_cons]
    omega

theorem weight_join :
    weight (joinKinds kss) = weight kss.flatten + (kss.length - 1) := by
  cases kss with
  | nil => rfl
  | cons ks kss =>
    rw [joinKinds, weight_append, weight_later, List.flatten_cons, weight_append, List.length_cons]
    omega

/-- Lists in parentheses with commas between them weigh as much as the expressions that they weigh
    as much as one by one. -/
theorem weight_list {es : List Expr}
    (h : List.Forall₂ (fun ks (e : Expr) => weight ks = e.weight) kss es) :
    weight (groupKinds (joinKinds kss)) = Expr.listWeight es := by
  have hall : weight kss.flatten = Expr.weight.all es := by
    induction h with
    | nil => rfl
    | cons hfirst _ ih => rw [List.flatten_cons, weight_append, hfirst, ih, Expr.weight.all]
  rw [weight_group, weight_join, hall, h.length_eq, Expr.listWeight]

/-- Two ways to cut a list in front of a token that is no parenthesis are the same one if the fronts
    weigh the same. -/
theorem append_inj_of_weight {k' : Token.Kind} (hk : isParen k = false) (hk' : isParen k' = false)
    (h : xs ++ k :: ys = xs' ++ k' :: ys') (hweight : weight xs = weight xs') :
    xs = xs' ∧ ys = ys' := by
  rcases List.append_eq_append_iff.1 h with ⟨zs, rfl, hzs⟩ | ⟨zs, rfl, hzs⟩
  · cases zs with
    | nil => exact ⟨(List.append_nil _).symm, (List.cons.inj hzs).2⟩
    | cons z zs =>
      obtain ⟨rfl, -⟩ := List.cons.inj hzs
      rw [weight_append, weight_cons hk] at hweight
      omega
  · cases zs with
    | nil => exact ⟨List.append_nil _, (List.cons.inj hzs).2.symm⟩
    | cons z zs =>
      obtain ⟨rfl, -⟩ := List.cons.inj hzs
      rw [weight_append, weight_cons hk'] at hweight
      omega

/-! ## Parentheses -/

/-- By how much a token nests what is behind it. -/
def nests : Token.Kind → Int
  | .mark .parenOpen => 1
  | .mark .parenClose => -1
  | _ => 0

/-- How deep tokens nest what is behind them. -/
def nesting : List Token.Kind → Int
  | [] => 0
  | k :: ks => nests k + nesting ks

theorem nesting_append : nesting (ks ++ ks') = nesting ks + nesting ks' := by
  induction ks with
  | nil => exact (Int.zero_add _).symm
  | cons k ks ih => rw [List.cons_append, nesting, nesting, ih, Int.add_assoc]

theorem nesting_cons (k : Token.Kind) (ks : List Token.Kind) :
    nesting (k :: ks) = nests k + nesting ks := rfl

theorem nests_of_not_isParen (h : isParen k = false) : nests k = 0 := by
  unfold isParen at h
  split at h
  · cases h
  · cases h
  · unfold nests
    split <;> first | contradiction | rfl

/-- Each parenthesis is closed behind the place where it is opened. -/
structure Matched (ks : List Token.Kind) : Prop where
  closed : nesting ks = 0
  opened : ∀ front, front <+: ks → 0 ≤ nesting front

namespace Matched

theorem nil : Matched [] where
  closed := rfl
  opened front h := by rw [List.prefix_nil.1 h]; exact Int.le_refl 0

theorem append (h : Matched ks) (h' : Matched ks') : Matched (ks ++ ks') where
  closed := by rw [nesting_append, h.closed, h'.closed]; rfl
  opened front hfront := by
    obtain ⟨behind, hbehind⟩ := hfront
    rcases List.append_eq_append_iff.1 hbehind with ⟨zs, hks, -⟩ | ⟨zs, rfl, hks'⟩
    · exact h.opened front ⟨zs, hks.symm⟩
    · rw [nesting_append, h.closed, Int.zero_add]
      exact h'.opened zs ⟨behind, hks'.symm⟩

theorem single (h : isParen k = false) : Matched [k] where
  closed := by rw [nesting_cons, nests_of_not_isParen h]; rfl
  opened front hfront := by
    rcases List.prefix_cons_iff.1 hfront with rfl | ⟨behind, rfl, hbehind⟩
    · exact Int.le_refl 0
    · rw [List.prefix_nil.1 hbehind, nesting_cons, nests_of_not_isParen h]
      exact Int.le_refl 0

theorem cons (hk : isParen k = false) (h : Matched ks) : Matched (k :: ks) :=
  (single hk).append h

theorem group (h : Matched ks) : Matched (groupKinds ks) where
  closed := by
    rw [groupKinds, nesting_cons, nesting_append, h.closed]
    rfl
  opened front hfront := by
    rcases List.prefix_cons_iff.1 hfront with rfl | ⟨inner, rfl, hinner⟩
    · exact Int.le_refl 0
    · rw [nesting_cons]
      rcases List.prefix_concat_iff.1 hinner with rfl | hprefix
      · rw [nesting_append, h.closed]
        exact Int.le_refl 0
      · have := h.opened inner hprefix
        have hopen : nests (.mark .parenOpen) = 1 := rfl
        omega

theorem join (h : ∀ ks ∈ kss, Matched ks) : Matched (joinKinds kss) := by
  cases kss with
  | nil => exact nil
  | cons ks kss =>
    obtain ⟨hks, hkss⟩ := List.forall_mem_cons.1 h
    refine hks.append ?_
    induction kss with
    | nil => exact nil
    | cons ks' kss ih =>
      obtain ⟨hks', hkss⟩ := List.forall_mem_cons.1 hkss
      exact (hks'.cons rfl).append (ih (List.forall_mem_cons.2 ⟨hks, hkss⟩) hkss)

/-- What is enclosed in matching parentheses has no matching front. -/
theorem ne_group (h : Matched xs) (hne : xs ≠ []) (h' : Matched ks) :
    xs ++ k :: ys ≠ groupKinds ks := by
  intro heq
  cases xs with
  | nil => exact hne rfl
  | cons x xs =>
    rw [groupKinds, List.cons_append] at heq
    obtain ⟨rfl, htail⟩ := List.cons.inj heq
    have hprefix : xs <+: ks ++ [.mark .parenClose] := ⟨_, htail⟩
    have hclosed := h.closed
    rw [nesting_cons] at hclosed
    have hopen : nests (.mark .parenOpen) = 1 := rfl
    rcases List.prefix_concat_iff.1 hprefix with rfl | hprefix
    · rw [List.append_assoc] at htail
      have := congrArg List.length htail
      simp at this
    · have := h'.opened xs hprefix
      omega

end Matched

/-! ## What is accepted -/

variable {r : Resolvers} {minPower level : Nat} {e : Expr}

theorem isParen_of_unary? {op : Operator} (h : k.unary? = some op) : isParen k = false := by
  unfold Token.Kind.unary? at h
  split at h
  · rfl
  · rfl
  · cases h

theorem Accepted.ne_nil (h : Accepted r minPower level ks e) : ks ≠ [] := by
  cases h <;> simp [groupKinds]

/-- What is accepted weighs as much as its tree. -/
theorem Accepted.weight_eq (hr : r.PermutesArguments) (h : Accepted r minPower level ks e) :
    weight ks = e.weight := by
  have hlist : ∀ items : List ListItem, (∀ x ∈ items, weight x.kinds = x.tree.weight) →
      weight (listKinds items) = Expr.listWeight (items.map ListItem.tree) := by
    intro items hitems
    apply weight_list
    rw [List.forall₂_map_left_iff, List.forall₂_map_right_iff]
    exact List.forall₂_same.2 hitems
  induction h with
  | literal _ | member _ _ => rfl
  | @call _ _ c items _ _ hc ih =>
    rw [weight_cons rfl, hlist items ih, ← Expr.listWeight_perm (hr _ _ _ hc), Nat.add_comm]
    rfl
  | unary hk _ ih => rw [weight_cons (isParen_of_unary? hk), ih, Expr.weight, Nat.add_comm]
  | parens _ ih => rw [weight_group, ih]
  | binary _ _ _ _ _ _ ihl ihr =>
    rw [weight_append, weight_cons rfl, ihl, ihr, Expr.weight]
    omega
  | @membership _ _ _ _ _ items _ _ _ _ _ ihl ih =>
    rw [weight_append, weight_cons rfl, ihl, hlist items ih, Expr.weight]
    show _ = _ + 1 + Expr.listWeight _
    omega

/-- Parentheses match in what is accepted. -/
theorem Accepted.matched (h : Accepted r minPower level ks e) : Matched ks := by
  have hlist : ∀ items : List ListItem, (∀ x ∈ items, Matched x.kinds) →
      Matched (listKinds items) :=
    fun items hitems => (Matched.join (List.forall_mem_map.2 hitems)).group
  induction h with
  | literal _ | member _ _ => exact .single rfl
  | call _ _ _ ih => exact (hlist _ ih).cons rfl
  | unary hk _ ih => exact ih.cons (isParen_of_unary? hk)
  | parens _ ih => exact ih.group
  | binary _ _ _ _ _ _ ihl ihr => exact ihl.append (ihr.cons rfl)
  | membership _ _ _ _ _ ihl ih => exact ihl.append ((hlist _ ih).cons rfl)

/-- No slash is accepted but in names. -/
theorem Accepted.slash_not_mem (h : Accepted r minPower level ks e) : .mark .slash ∉ ks := by
  have hlist : ∀ items : List ListItem, (∀ x ∈ items, .mark .slash ∉ x.kinds) →
      .mark .slash ∉ listKinds items := by
    intro items hitems
    cases items with
    | nil => simp [listKinds, groupKinds, joinKinds]
    | cons first items =>
      obtain ⟨hfirst, hlater⟩ := List.forall_mem_cons.1 hitems
      simpa [listKinds, groupKinds, joinKinds, hfirst] using hlater
  induction h with
  | literal _ | member _ _ => simp
  | call _ _ _ ih => simpa using hlist _ ih
  | @unary _ _ _ _ _ k hk _ ih =>
    have hne : .mark .slash ≠ k := by
      rintro rfl
      cases hk
    simpa [hne] using ih
  | parens _ ih => simpa [groupKinds] using ih
  | binary _ _ _ _ _ _ ihl ihr => simp [ihl, ihr]
  | membership _ _ _ _ _ ihl ih => simpa [ihl] using hlist _ ih

end Reading

/-- The standard methods permute their arguments. -/
theorem Parser.permutesArguments_standard : standard.resolvers.PermutesArguments := by
  intro name args c hc
  rw [standard_methods, Registry.resolver_resolve] at hc
  exact Registry.args_perm Registry.standard_strategies hc

end QueryExpr
