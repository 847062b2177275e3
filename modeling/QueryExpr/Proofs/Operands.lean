import QueryExpr.Expr.Text
import QueryExpr.Proofs.Completion
import QueryExpr.Proofs.Pieces
import QueryExpr.Proofs.Shapes

/-!
# Operands of binary operators

Where no parentheses stand around expressions, an operator that is the right operand of a binary
operator is tighter than it, and one that is the left operand at least as tight. A membership is
the exception: its right operand is a value list, behind which a chain goes on with any operator,
so that it may come to be the left operand of arithmetic.

* `Expr.Ordered`: the operators of an expression and its operands are so.
* `Ungrouped`: tokens without parentheses around expressions.
* `Reads.ordered`: of such tokens, trees are read that are ordered but for memberships.
* `Reads.guarded_of_ordered`: a tree is ordered only if no operator of arithmetic stands behind a
  value list.
* `Parser.ordered_of_ungrouped`: so it is for filters.
-/

namespace QueryExpr

theorem Operator.precedence_of_takesValues {op : Operator} (h : op.takesValues = true) :
    op.precedence = 4 := by
  cases op <;> first | rfl | cases h

namespace Expr

/-! ## Ordered trees -/

/-- The binary operator of an expression. -/
def binaryOperator? : Expr → Option Operator
  | binary _ op _ => some op
  | _ => none

/-- A binary operator on the right of a binary operator is tighter, and one on the left is at least
    as tight, or it is one of those that are spared. -/
def OrderedBut (spared : Operator → Bool) : Expr → Prop
  | binary left op right =>
    (∀ inner ∈ left.binaryOperator?, op.precedence ≤ inner.precedence ∨ spared inner = true) ∧
      ∀ inner ∈ right.binaryOperator?, op.precedence < inner.precedence
  | _ => True

/-- A binary operator on the right of a binary operator is tighter, and one on the left is at least
    as tight. -/
def Ordered (e : Expr) : Prop := e.OrderedBut fun _ => false

theorem precedence_of_binaryOperator? {e : Expr} {op : Operator}
    (h : op ∈ e.binaryOperator?) : e.precedence = op.precedence := by
  cases e with
  | binary left o right =>
    cases h
    rfl
  | _ => cases h

end Expr

namespace Reading

/-! ## Tokens without groups -/

/-- Whether an operand has to follow a token of the kind, where `expected` tells whether the token
    itself stands in the place of one. -/
def operandBehind (expected : Bool) : Token.Kind → Bool
  | .literal _ => false
  | .mark m => m != .parenClose
  | .name word => if expected then word == "not" else word != "in" && word != "nin"

/-- No parenthesis is opened in the place of an operand, so each one opens the arguments of a call
    or a value list. -/
def Ungrouped (expected : Bool) : List Token → Prop
  | [] => True
  | t :: ts => (t.kind = .mark .parenOpen → expected = false) ∧
      Ungrouped (operandBehind expected t.kind) ts

instance decidableUngrouped : (expected : Bool) → (ts : List Token) →
    Decidable (Ungrouped expected ts)
  | _, [] => isTrue trivial
  | expected, t :: ts =>
    have := decidableUngrouped (operandBehind expected t.kind) ts
    inferInstanceAs (Decidable ((t.kind = .mark .parenOpen → expected = false) ∧
      Ungrouped (operandBehind expected t.kind) ts))

/-- Whether a part of the reader begins in the place of an operand. -/
def Part.expected : Part → Bool
  | .expression _ | .operand | .items => true
  | .chain _ _ | .values => false

namespace Ungrouped

variable {expected : Bool} {t : Token} {ts : List Token}

theorem unary {op : Operator} (hu : Ungrouped true (t :: ts)) (ht : t.kind.unary? = some op) :
    Ungrouped true ts := by
  have hrest := hu.2
  rcases unary?_eq_some ht with ⟨hk, -⟩ | ⟨hk, -⟩ <;>
    (rw [hk] at hrest; exact hrest)

theorem literal {raw : Literal.Raw} (hu : Ungrouped expected (t :: ts))
    (ht : t.kind = .literal raw) : Ungrouped false ts := by
  have hrest := hu.2
  rw [ht] at hrest
  exact hrest

theorem name {word : String} (hu : Ungrouped true (t :: ts)) (ht : t.kind = .name word)
    (hw : word ≠ "not") : Ungrouped false ts := by
  have hrest := hu.2
  rw [ht, operandBehind, if_pos rfl, beq_false_of_ne hw] at hrest
  exact hrest

theorem mark {m : Mark} (hu : Ungrouped expected (t :: ts)) (ht : t.kind = .mark m) :
    Ungrouped (m != .parenClose) ts := by
  have hrest := hu.2
  rw [ht] at hrest
  exact hrest

/-- Behind a binary operator stands an operand, or a value list. -/
theorem operator {minPower : Nat} {op : Operator} (hu : Ungrouped false (t :: ts))
    (h : nextOperator? minPower (t :: ts) = some op) : Ungrouped (!op.takesValues) ts := by
  obtain ⟨word, hword, hbinary⟩ := binary?_eq_some (nextOperator?_eq_some.1 h).1
  obtain ⟨rfl, hop⟩ := keyword_of_binary? hbinary
  have hbehind : operandBehind false t.kind = !op.takesValues := by
    rw [hword]
    revert hop
    clear hu h hword hbinary
    cases op <;> decide
  rw [← hbehind]
  exact hu.2

end Ungrouped

section

variable {r : Resolvers} {part : Part} {ts rest : List Token} {qs : List Request} {e : Expr}

/-- What is left by a part of the reader begins behind an operand. -/
theorem Reads.ungrouped (h : Reads r part ts qs e rest) (hu : Ungrouped part.expected ts) :
    Ungrouped false rest := by
  induction h with
  | expression _ _ ihf ihm => exact ihm (ihf hu)
  | unary ht _ ih => exact ih (hu.unary ht)
  | literal ht _ => exact hu.literal ht
  | parens ht _ _ _ => cases hu.1 ht
  | call ht hw _ _ ih => exact ih (hu.name ht hw)
  | member ht hw _ _ =>
    refine hu.name ht ?_
    rintro rfl
    cases hw
  | stop _ => exact hu
  | binary hop hv _ _ iho ihm | membership hop hv _ _ iho ihm =>
    have hrest := hu.operator hop
    rw [hv] at hrest
    exact ihm (iho hrest)
  | noValues ht hc => exact (hu.mark ht).mark hc
  | values ht _ ih => exact ih (hu.mark ht)
  | lastItem _ hc ih => exact (ih hu).mark hc
  | nextItem _ hc _ ihi ihm => exact ihm ((ihi hu).mark hc)

/-! ## Operands are tight enough -/

/-- What is read without parentheses around it holds together as tightly as its place demands: an
    expression with the minimum `m` more tightly than the level `m / 2`. -/
def Part.Tight (e : Expr) : Part → Prop
  | .expression minPower => minPower ≤ 13 → minPower / 2 < e.precedence
  | .operand => 7 ≤ e.precedence
  | .chain minPower left => minPower / 2 < left.precedence → minPower / 2 < e.precedence
  | .values | .items => True

/-- The operator of a chain is above the level of the minimum and none of arithmetic's operands. -/
theorem level_of_nextOperator? {minPower : Nat} {ts : List Token} {op : Operator}
    (h : nextOperator? minPower ts = some op) :
    minPower / 2 < op.precedence ∧ op.precedence ≤ 6 := by
  obtain ⟨hfront, hpower⟩ := nextOperator?_eq_some.1 h
  exact ⟨(le_leftPower_iff (frontOperator?_precedence hfront)).1 hpower,
    frontWithin_six ts op hfront⟩

theorem Reads.tight (h : Reads r part ts qs e rest) (hu : Ungrouped part.expected ts) :
    part.Tight e := by
  induction h with
  | expression first _ ihf ihm =>
    intro hm
    have hleft : 7 ≤ _ := ihf hu
    exact ihm (first.ungrouped hu) (by omega)
  | unary ht _ _ => rcases unary?_eq_some ht with ⟨-, rfl⟩ | ⟨-, rfl⟩ <;> exact Nat.le_refl 7
  | parens ht _ _ _ => cases hu.1 ht
  | literal _ _ | call _ _ _ _ _ | member _ _ _ _ => exact Nat.le_succ 7
  | stop _ => exact id
  | binary hop hv operand _ _ ihm | membership hop hv operand _ _ ihm =>
    intro _
    have hrest := hu.operator hop
    rw [hv] at hrest
    exact ihm (operand.ungrouped hrest) (level_of_nextOperator? hop).1
  | noValues _ _ | values _ _ _ | lastItem _ _ _ | nextItem _ _ _ _ _ => trivial

/-- No operator that is above the level of the minimum stands behind an expression. -/
def Part.Stops (rest : List Token) : Part → Prop
  | .expression minPower | .chain minPower _ => FrontWithin (minPower / 2) rest
  | .operand | .values | .items => True

theorem Reads.stops (h : Reads r part ts qs e rest) : part.Stops rest := by
  induction h with
  | stop hop => exact nextOperator?_eq_none.1 hop
  | expression _ _ _ ihm | binary _ _ _ _ _ ihm | membership _ _ _ _ _ ihm => exact ihm
  | _ => trivial

/-! ## What is read is ordered -/

theorem rightPower_half (op : Operator) : op.rightPower / 2 = op.precedence := by
  unfold Operator.rightPower
  omega

/-- The expression may be the left operand of the operator at the front of the tokens. -/
def MayLead (spared : Operator → Bool) (left : Expr) (ts : List Token) : Prop :=
  FrontWithin left.precedence ts ∨ ∃ op ∈ left.binaryOperator?, spared op = true

theorem MayLead.left {spared : Operator → Bool} {left : Expr} (h : MayLead spared left ts)
    {minPower : Nat} {op : Operator} (hop : nextOperator? minPower ts = some op) :
    ∀ inner ∈ left.binaryOperator?, op.precedence ≤ inner.precedence ∨ spared inner = true := by
  intro inner hinner
  rcases h with hfront | ⟨inner', hinner', hspared⟩
  · have hle := hfront op (nextOperator?_eq_some.1 hop).1
    rw [Expr.precedence_of_binaryOperator? hinner] at hle
    exact .inl hle
  · rw [Option.mem_unique hinner hinner']
    exact .inr hspared

/-- What a part of the reader makes is ordered, and so is what a chain makes of a left operand that
    may stand in front of the operator behind it. -/
def Part.OrdersBut (spared : Operator → Bool) (ts : List Token) (e : Expr) : Part → Prop
  | .expression minPower => minPower ≤ 13 → e.All (Expr.OrderedBut spared)
  | .operand | .values | .items => e.All (Expr.OrderedBut spared)
  | .chain _ left => left.All (Expr.OrderedBut spared) →
      MayLead spared left ts → e.All (Expr.OrderedBut spared)

/-- Without parentheses around expressions, trees are ordered, if memberships are spared or no
    value list is an operand of arithmetic. -/
theorem Reads.ordered (hr : r.KeepsArguments) {spared : Operator → Bool}
    (h : Reads r part ts qs e rest) (hu : Ungrouped part.expected ts)
    (hs : (∀ op : Operator, op.takesValues = true → spared op = true) ∨ GuardedMemberships ts) :
    part.OrdersBut spared ts e := by
  induction h with
  | @expression minPower ts qs left ts' qs' e rest first more ihf ihm =>
    intro _
    have hleft : 7 ≤ left.precedence := first.tight hu
    exact ihm (first.ungrouped hu) (hs.imp_right (·.of_suffix first.suffix)) (ihf hu hs)
      (.inl ((frontWithin_six ts').mono (by omega)))
  | @unary t op ts qs e rest ht inner ih =>
    have hinner := ih (hu.unary ht) (hs.imp_right (·.of_suffix (List.suffix_cons _ _)))
    refine Expr.all_unary.2 ⟨trivial, hinner ?_⟩
    rcases unary?_eq_some ht with ⟨-, rfl⟩ | ⟨-, rfl⟩ <;> exact Nat.le_refl 13
  | literal _ _ => exact Expr.all_literal.2 trivial
  | parens ht _ _ _ => cases hu.1 ht
  | call ht hw _ hc ih =>
    have hargs := ih (hu.name ht hw) (hs.imp_right (·.of_suffix (List.suffix_cons _ _)))
    exact Expr.all_call.2 ⟨trivial, fun arg harg =>
      (Expr.all_collection.1 hargs).2 arg (hr _ _ _ hc arg harg)⟩
  | member _ _ _ _ => exact Expr.all_member.2 trivial
  | stop _ => exact fun hleft _ => hleft
  | @binary minPower left op t ts qs right ts' qs' e rest hop hv operand more iho ihm =>
    intro hleft hfront
    have hs' := hs.imp_right (·.of_suffix (List.suffix_cons t ts))
    have hrest := hu.operator hop
    rw [hv] at hrest
    obtain ⟨-, hsix⟩ := level_of_nextOperator? hop
    have hpower : op.rightPower ≤ 13 := by
      unfold Operator.rightPower
      omega
    have htight : op.rightPower / 2 < right.precedence := operand.tight hrest hpower
    have hstop : FrontWithin (op.rightPower / 2) ts' := operand.stops
    rw [rightPower_half] at htight hstop
    refine ihm (operand.ungrouped hrest) (hs'.imp_right (·.of_suffix operand.suffix))
      (Expr.all_binary.2 ⟨⟨hfront.left hop, ?_⟩, hleft, iho hrest hs' hpower⟩) (.inl hstop)
    intro inner hinner
    rwa [Expr.precedence_of_binaryOperator? hinner] at htight
  | @membership minPower left op t ts qs right ts' qs' e rest hop hv list more ihl ihm =>
    intro hleft hfront
    have hs' := hs.imp_right (·.of_suffix (List.suffix_cons t ts))
    have hrest := hu.operator hop
    rw [hv] at hrest
    have hnone : right.binaryOperator? = none := by
      obtain ⟨items, rfl⟩ := list.eq_collection (.inl rfl)
      rfl
    refine ihm (list.ungrouped hrest) (hs'.imp_right (·.of_suffix list.suffix))
      (Expr.all_binary.2 ⟨⟨hfront.left hop, by simp [hnone]⟩, hleft, ihl hrest hs'⟩) ?_
    -- any operator may stand behind a value list, unless the guard rules out arithmetic
    rcases hs with hspared | hg
    · exact .inr ⟨op, rfl, hspared op hv⟩
    · refine .inl ((hg.frontWithin hop hv list).mono ?_)
      exact Nat.le_of_eq (Operator.precedence_of_takesValues hv).symm
  | noValues _ _ => exact Expr.all_collection.2 ⟨trivial, by rintro _ ⟨⟩⟩
  | values ht _ ih =>
    exact ih (hu.mark ht) (hs.imp_right (·.of_suffix (List.suffix_cons _ _)))
  | lastItem _ _ ih =>
    refine Expr.all_collection.2 ⟨trivial, List.forall_mem_singleton.2 (ih hu hs (by omega))⟩
  | nextItem item hc _ ihi ihm =>
    have hmore := ihm ((item.ungrouped hu).mark hc)
      (hs.imp_right fun hg => (hg.of_suffix item.suffix).of_suffix (List.suffix_cons _ _))
    exact Expr.all_collection.2 ⟨trivial,
      List.forall_mem_cons.2 ⟨ihi hu hs (by omega), (Expr.all_collection.1 hmore).2⟩⟩

/-! ## Only guarded memberships make ordered trees -/

/-- `GuardedFront` wherever more is ahead than the tokens `rest`. -/
def GuardedUntil (rest ts : List Token) : Prop :=
  ∀ ts', ts' <:+ ts → rest.length < ts'.length → GuardedFront ts'

theorem guardedUntil_self (ts : List Token) : GuardedUntil ts ts :=
  fun _ hs hlt => absurd hs.length_le (Nat.not_le.2 hlt)

theorem GuardedUntil.cons {t : Token} (h : GuardedUntil rest ts) (ht : GuardedFront (t :: ts)) :
    GuardedUntil rest (t :: ts) := by
  intro ts' hs hlt
  rcases List.suffix_cons_iff.1 hs with rfl | hs
  · exact ht
  · exact h ts' hs hlt

theorem GuardedUntil.trans {mid : List Token} (h : GuardedUntil mid ts)
    (h' : GuardedUntil rest mid) (hmid : mid <:+ ts) : GuardedUntil rest ts := by
  intro ts' hs hlt
  rcases Nat.lt_or_ge mid.length ts'.length with hlong | hshort
  · exact h ts' hs hlong
  · exact h' ts' (List.suffix_of_suffix_length_le hs hmid hshort) hlt

theorem guardedMemberships_of_until (h : GuardedUntil [] ts) : GuardedMemberships ts := by
  intro ts' hs
  cases ts' with
  | nil => trivial
  | cons t ts' => exact h _ hs (Nat.succ_pos _)

theorem guardedFront_of_ne {t : Token} (h : t.kind ≠ .name "in") (h' : t.kind ≠ .name "nin")
    (ts : List Token) : GuardedFront (t :: ts) := by
  cases ts with
  | nil => trivial
  | cons u ts =>
    rintro (hk | hk)
    · exact absurd hk h
    · exact absurd hk h'

theorem guardedFront_of_mark {t : Token} {m : Mark} (ht : t.kind = .mark m) (ts : List Token) :
    GuardedFront (t :: ts) := by
  refine guardedFront_of_ne ?_ ?_ ts <;> simp [ht]

theorem guardedFront_of_name {t : Token} {word : String} (ht : t.kind = .name word)
    (hw : word ≠ "in" ∧ word ≠ "nin") (ts : List Token) : GuardedFront (t :: ts) := by
  refine guardedFront_of_ne ?_ ?_ ts <;> simp [ht, hw]

/-- An operator of arithmetic is above the fourth level. -/
theorem startsWithArithmetic_eq_false (h : FrontWithin 4 ts) : startsWithArithmetic ts = false := by
  cases ts with
  | nil => rfl
  | cons t ts =>
    have habove : ∀ word ∈ ["add", "sub", "mul", "div", "mod"],
        ∃ op, Operator.binary? word = some op ∧ 4 < op.precedence := by
      simp only [List.forall_mem_cons]
      exact ⟨⟨.add, rfl, by decide⟩, ⟨.sub, rfl, by decide⟩, ⟨.mul, rfl, by decide⟩,
        ⟨.div, rfl, by decide⟩, ⟨.mod, rfl, by decide⟩, by rintro _ ⟨⟩⟩
    cases hk : t.kind with
    | name word =>
      rw [startsWithArithmetic, hk]
      refine decide_eq_false fun hword => ?_
      obtain ⟨op, hop, hlt⟩ := habove word hword
      have := h op (by rw [frontOperator?, hk]; exact hop)
      omega
    | literal raw | mark m => rw [startsWithArithmetic, hk]; rfl

/-- A membership is guarded if no operator above its own level stands behind its value list. -/
theorem guardedFront_of_values (t : Token) (list : Reads r .values ts qs e rest)
    (hrest : FrontWithin 4 rest) : GuardedFront (t :: ts) := by
  obtain ⟨u, after, rfl, -, hbehind⟩ := list.behindGroup_values
  intro _ _
  rw [hbehind]
  exact startsWithArithmetic_eq_false hrest

end

end Reading

/-- The arguments of a resolved call are all those that it was asked with, and no method has the
    name of a membership. -/
structure Resolvers.Plain (r : Resolvers) : Prop where
  args : ∀ name args c, r.methods.resolve name args = .ok c → ∀ arg ∈ args, arg ∈ c.args
  names : ∀ name ∈ ["in", "nin"], ∀ args c, r.methods.resolve name args ≠ .ok c

namespace Reading

section

variable {r : Resolvers} {part : Part} {ts rest : List Token} {qs : List Request} {e : Expr}

/-- What is true of the tokens that an ordered tree is read of. A chain makes an ordered tree only
    of a left operand that is ordered and at least as tight as the operator behind it. -/
def Part.Guards (ts rest : List Token) : Part → Prop
  | .expression minPower => minPower ≤ 13 → GuardedUntil rest ts
  | .operand | .values | .items => GuardedUntil rest ts
  | .chain minPower left => (∀ inner ∈ left.binaryOperator?, minPower / 2 ≤ inner.precedence) →
      left.All Expr.Ordered ∧ (∀ inner ∈ left.binaryOperator?, FrontWithin inner.precedence ts) ∧
        GuardedUntil rest ts

theorem frontWithin_of_left {minPower : Nat} {op inner : Operator}
    (hop : nextOperator? minPower ts = some op)
    (h : op.precedence ≤ inner.precedence ∨ false = true) : FrontWithin inner.precedence ts := by
  intro op' hop'
  rw [(nextOperator?_eq_some.1 hop).1] at hop'
  cases hop'
  simpa using h

theorem Reads.guarded_of_ordered (hr : r.Plain) (h : Reads r part ts qs e rest)
    (hu : Ungrouped part.expected ts) (he : e.All Expr.Ordered) : part.Guards ts rest := by
  induction h with
  | @expression minPower ts qs left ts' qs' e rest first more ihf ihm =>
    intro _
    have htight : 7 ≤ left.precedence := first.tight hu
    obtain ⟨hleft, -, hguard⟩ := ihm (first.ungrouped hu) he fun inner hinner => by
      rw [Expr.precedence_of_binaryOperator? hinner] at htight
      omega
    exact (ihf hu hleft).trans hguard first.suffix
  | @unary t op ts qs e rest ht inner ih =>
    have hinner := ih (hu.unary ht) (Expr.all_unary.1 he).2
    rcases unary?_eq_some ht with ⟨hk, rfl⟩ | ⟨hk, rfl⟩
    · exact (hinner (by decide)).cons (guardedFront_of_name hk (by decide) ts)
    · exact (hinner (by decide)).cons (guardedFront_of_mark hk ts)
  | literal ht _ =>
    exact (guardedUntil_self _).cons (guardedFront_of_ne (by simp [ht]) (by simp [ht]) _)
  | parens ht _ _ _ => cases hu.1 ht
  | call ht hw _ hc ih =>
    refine (ih (hu.name ht hw) (Expr.all_collection.2 ⟨trivial, fun arg harg =>
      (Expr.all_call.1 he).2 arg (hr.args _ _ _ hc arg harg)⟩)).cons ?_
    refine guardedFront_of_name ht ⟨?_, ?_⟩ _
    · rintro rfl
      exact hr.names _ (by decide) _ _ hc
    · rintro rfl
      exact hr.names _ (by decide) _ _ hc
  | member ht hw _ _ =>
    refine (guardedUntil_self _).cons (guardedFront_of_name ht ⟨?_, ?_⟩ _) <;>
    · rintro rfl
      cases hw
  | @stop minPower left ts hop =>
    intro hleft
    exact ⟨he, fun inner hinner => (nextOperator?_eq_none.1 hop).mono (hleft inner hinner),
      guardedUntil_self ts⟩
  | @binary minPower left op t ts qs right ts' qs' e rest hop hv operand more iho ihm =>
    intro _
    have hrest := hu.operator hop
    rw [hv] at hrest
    obtain ⟨hlevel, hsix⟩ := level_of_nextOperator? hop
    obtain ⟨hnode, -, hguard⟩ := ihm (operand.ungrouped hrest) he (by rintro _ ⟨⟩; omega)
    obtain ⟨⟨hinner, -⟩, hleft, hright⟩ := Expr.all_binary.1 hnode
    refine ⟨hleft, fun inner h => frontWithin_of_left hop (hinner inner h), ?_⟩
    have hoperand := iho hrest hright (by unfold Operator.rightPower; omega)
    refine (hoperand.trans hguard operand.suffix).cons ?_
    obtain ⟨word, hword, hbinary⟩ := binary?_eq_some (nextOperator?_eq_some.1 hop).1
    refine guardedFront_of_name hword ⟨?_, ?_⟩ ts <;>
    · rintro rfl
      cases hbinary
      cases hv
  | @membership minPower left op t ts qs right ts' qs' e rest hop hv list more ihl ihm =>
    intro _
    have hrest := hu.operator hop
    rw [hv] at hrest
    obtain ⟨hlevel, -⟩ := level_of_nextOperator? hop
    obtain ⟨hnode, hfront, hguard⟩ := ihm (list.ungrouped hrest) he (by rintro _ ⟨⟩; omega)
    obtain ⟨⟨hinner, -⟩, hleft, hright⟩ := Expr.all_binary.1 hnode
    refine ⟨hleft, fun inner h => frontWithin_of_left hop (hinner inner h), ?_⟩
    have hfour : FrontWithin op.precedence ts' := hfront op rfl
    rw [Operator.precedence_of_takesValues hv] at hfour
    exact ((ihl hrest hright).trans hguard list.suffix).cons (guardedFront_of_values t list hfour)
  | noValues ht hc =>
    exact ((guardedUntil_self _).cons (guardedFront_of_mark hc _)).cons (guardedFront_of_mark ht _)
  | values ht _ ih => exact (ih (hu.mark ht) he).cons (guardedFront_of_mark ht _)
  | lastItem item hc ih =>
    have hitem := ih hu ((Expr.all_collection.1 he).2 _ (List.mem_singleton_self _)) (by omega)
    exact hitem.trans ((guardedUntil_self _).cons (guardedFront_of_mark hc _)) item.suffix
  | nextItem item hc more ihi ihm =>
    obtain ⟨he, hes⟩ := List.forall_mem_cons.1 (Expr.all_collection.1 he).2
    have hmore := ihm ((item.ungrouped hu).mark hc) (Expr.all_collection.2 ⟨trivial, hes⟩)
    exact (ihi hu he (by omega)).trans (hmore.cons (guardedFront_of_mark hc _)) item.suffix

end

end Reading

/-! ## Texts -/

namespace Parser

open Reading (Ungrouped GuardedMemberships)

/-- If no parentheses stand around expressions in a text, the tree that is read is ordered but for
    memberships on the left of tighter operators. There are none of these exactly if no operator of
    arithmetic stands directly behind a value list. -/
theorem ordered_of_ungrouped (p : Parser) (hp : p.resolvers.KeepsArguments) {text : String}
    {ts : List Token} (hts : p.tokens text = .ok ts) (hu : Ungrouped true ts) {e : Expr}
    (h : (p.parse text).outcome = .ok (some e)) :
    (∀ node ∈ e.walk, node.OrderedBut Operator.takesValues) ∧
      (GuardedMemberships ts → ∀ node ∈ e.walk, node.Ordered) ∧
      (p.resolvers.Plain → (∀ node ∈ e.walk, node.Ordered) → GuardedMemberships ts) := by
  obtain ⟨ts', hts', hrun⟩ := returns_of_report h
  obtain rfl : ts = ts' := Except.ok.inj (hts.symm.trans hts')
  have hread := Reading.expression_gives p.resolvers _ 0 ts _
    (Reading.expression_of_filter hrun.outcome)
  refine ⟨?_, fun hg => ?_, fun hplain he => ?_⟩
  · exact hread.ordered hp hu (.inl fun _ => id) (Nat.zero_le _)
  · exact hread.ordered hp hu (.inr hg) (Nat.zero_le _)
  · exact Reading.guardedMemberships_of_until
      (hread.guarded_of_ordered hplain hu he (Nat.zero_le _))

/-- The standard resolvers keep all arguments and know no method `in` or `nin`. -/
theorem plain_standard : standard.resolvers.Plain where
  args name args c h arg harg := by
    rw [standard_methods, Registry.resolver_resolve] at h
    exact (Registry.args_perm Registry.standard_strategies h).mem_iff.2 harg
  names name hname args c h := by
    rw [standard_methods, Registry.resolver_resolve] at h
    have hnone : ∀ t ∈ MethodTable.standardTables, ∀ name ∈ ["in", "nin"], t.get? name = none := by
      decide +kernel
    obtain ⟨t, ht, hresolve⟩ := Registry.resolve_eq_ok Registry.standard_strategies h
    rw [MethodTable.resolve, hnone t ht name hname] at hresolve
    cases hresolve

/-- Sums and products as operands of a membership and in its value list. -/
theorem ordered_of_ungrouped_membership :
    let ts : List Token := [⟨.name "a", ⟨0, 1⟩⟩, ⟨.name "add", ⟨2, 5⟩⟩,
      ⟨.literal ⟨"1", .int⟩, ⟨6, 7⟩⟩, ⟨.name "in", ⟨8, 10⟩⟩, ⟨.mark .parenOpen, ⟨11, 12⟩⟩,
      ⟨.name "b", ⟨12, 13⟩⟩, ⟨.name "mul", ⟨14, 17⟩⟩, ⟨.name "c", ⟨18, 19⟩⟩,
      ⟨.mark .parenClose, ⟨19, 20⟩⟩]
    let sum : Expr := .binary (.member ⟨["a"]⟩) .add (.literal (.int 1))
    let product : Expr := .binary (.member ⟨["b"]⟩) .mul (.member ⟨["c"]⟩)
    let e : Expr := .binary sum .isIn (.collection [product])
    standard.resolvers.KeepsArguments ∧ standard.tokens "a add 1 in (b mul c)" = .ok ts ∧
      Ungrouped true ts ∧ (standard.parse "a add 1 in (b mul c)").outcome = .ok (some e) ∧
      standard.resolvers.Plain ∧ GuardedMemberships ts ∧
      ((∀ node ∈ e.walk, node.Ordered) ↔ GuardedMemberships ts) := by
  intro ts sum product e
  have hkeeps : standard.resolvers.KeepsArguments :=
    Registry.keepsArguments Registry.standard_strategies .passThrough
  have hts : standard.tokens "a add 1 in (b mul c)" = .ok ts := rfl
  have hu : Ungrouped true ts := by decide
  have hguard : GuardedMemberships ts := by decide
  have hparse : (standard.parse "a add 1 in (b mul c)").outcome = .ok (some e) := rfl
  obtain ⟨-, hordered, hguarded⟩ := ordered_of_ungrouped standard hkeeps hts hu hparse
  exact ⟨hkeeps, hts, hu, hparse, plain_standard, hguard, hguarded plain_standard, hordered⟩

/-- Behind the value list of a membership, a sum takes the membership as its left operand: the
    tokens have no parentheses around expressions, but the tree is not ordered. -/
theorem unordered_membership :
    let text := "a in (1) add 2"
    let membership : Expr :=
      .binary (.member ⟨["a"]⟩) .isIn (.collection [.literal (.int 1)])
    let e : Expr := .binary membership .add (.literal (.int 2))
    ∃ ts, standard.tokens text = .ok ts ∧ Ungrouped true ts ∧
      (standard.parse text).outcome = .ok (some e) ∧ e ∈ e.walk ∧ ¬ e.Ordered := by
  refine ⟨_, rfl, by decide, rfl, List.mem_cons_self, ?_⟩
  rintro ⟨hleft, -⟩
  have := hleft .isIn rfl
  revert this
  decide

end Parser

end QueryExpr
