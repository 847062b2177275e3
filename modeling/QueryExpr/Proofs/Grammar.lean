import QueryExpr.Reading.Expression

/-!
# The grammar of expressions

The grammar has a level for each strength of binary operators, weakest first. An operator of a
level has the same level on its left and the next one on its right, so operators of one level
group to the left. Behind the binary operators there is a level of unary operators and one of
operands.

* `binaryWords`, `membershipWords`: the operators of each level.
* `Derives`: the rules.
* `GuardedMemberships`: no value list is an operand of arithmetic.
-/

namespace QueryExpr.Reading

/-- The words for the binary operators of a level, and what they stand for. -/
def binaryWords : Nat → List (String × Operator)
  | 1 => [("or", .or)]
  | 2 => [("and", .and)]
  | 3 => [("eq", .eq), ("ne", .ne)]
  | 4 => [("lt", .lt), ("gt", .gt), ("le", .le), ("ge", .ge)]
  | 5 => [("add", .add), ("sub", .sub)]
  | 6 => [("mul", .mul), ("div", .div), ("mod", .mod)]
  | _ => []

/-- The words for membership, which is of the fourth level. -/
def membershipWords : List (String × Operator) := [("in", .isIn), ("nin", .notIn)]

/-- What the grammar has rules for. -/
inductive Phrase where
  /-- An expression of a level: from 1 to 6 for the binary operators, 7 for the unary ones and 8 for
      operands. -/
  | level (n : Nat)
  /-- A value list with its parentheses; its tree is a collection. -/
  | values
  /-- The items of a value list, one at least, and the closing parenthesis. -/
  | items

/-- The phrase derives the tokens in front of `rest`, with the tree. Members and calls are what the
    resolvers say; parentheses leave no trace. -/
inductive Derives (r : Resolvers) : Phrase → List Token → Expr → List Token → Prop where
  | tighter {n ts e rest} (h : Derives r (.level (n + 1)) ts e rest) :
      Derives r (.level n) ts e rest
  | binary {n ts left word op ts' right rest} {t : Token}
      (hl : Derives r (.level n) ts left (t :: ts')) (ht : t.kind = .name word)
      (hop : (word, op) ∈ binaryWords n) (hr : Derives r (.level (n + 1)) ts' right rest) :
      Derives r (.level n) ts (.binary left op right) rest
  | membership {ts left word op ts' right rest} {t : Token}
      (hl : Derives r (.level 4) ts left (t :: ts')) (ht : t.kind = .name word)
      (hop : (word, op) ∈ membershipWords) (hr : Derives r .values ts' right rest) :
      Derives r (.level 4) ts (.binary left op right) rest
  | not {t : Token} {ts e rest} (ht : t.kind = .name "not") (h : Derives r (.level 7) ts e rest) :
      Derives r (.level 7) (t :: ts) (.unary .not e) rest
  | neg {t : Token} {ts e rest} (ht : t.kind = .mark .minus)
      (h : Derives r (.level 7) ts e rest) : Derives r (.level 7) (t :: ts) (.unary .neg e) rest
  | literal {t : Token} {raw l rest} (ht : t.kind = .literal raw) (hl : raw.value = .ok l) :
      Derives r (.level 8) (t :: rest) (.literal l) rest
  | parens {t u : Token} {ts e rest} (ht : t.kind = .mark .parenOpen)
      (h : Derives r (.level 1) ts e (u :: rest)) (hu : u.kind = .mark .parenClose) :
      Derives r (.level 8) (t :: ts) e rest
  | call {t : Token} {word ts args c rest} (ht : t.kind = .name word) (hw : word ≠ "not")
      (h : Derives r .values ts (.collection args) rest)
      (hc : r.methods.resolve word args = .ok c) : Derives r (.level 8) (t :: ts) c.toExpr rest
  | member {t : Token} {word m rest} (ht : t.kind = .name word)
      (hw : Operator.ofKeyword? word = none) (hrest : startsWith .parenOpen rest = false)
      (hm : r.members.resolve (pathSegments word) = .ok m) :
      Derives r (.level 8) (t :: rest) (.member m) rest
  | noValues {t u : Token} {rest} (ht : t.kind = .mark .parenOpen)
      (hu : u.kind = .mark .parenClose) : Derives r .values (t :: u :: rest) (.collection []) rest
  | values {t : Token} {ts es rest} (ht : t.kind = .mark .parenOpen)
      (h : Derives r .items ts (.collection es) rest) :
      Derives r .values (t :: ts) (.collection es) rest
  | lastItem {ts e u rest} (h : Derives r (.level 1) ts e (u :: rest))
      (hu : u.kind = .mark .parenClose) : Derives r .items ts (.collection [e]) rest
  | nextItem {ts e u ts' es rest} (h : Derives r (.level 1) ts e (u :: ts'))
      (hu : u.kind = .mark .comma) (more : Derives r .items ts' (.collection es) rest) :
      Derives r .items ts (.collection (e :: es)) rest

/-- A phrase of a level is one of each weaker level. -/
theorem Derives.weaken {r : Resolvers} {m n : Nat} {ts rest : List Token} {e : Expr} (hmn : m ≤ n)
    (h : Derives r (.level n) ts e rest) : Derives r (.level m) ts e rest := by
  induction hmn with
  | refl => exact h
  | step _ ih => exact ih h.tighter

/-! ## The words of the levels -/

theorem binary?_of_mem_binaryWords {n : Nat} {word : String} {op : Operator}
    (h : (word, op) ∈ binaryWords n) :
    Operator.binary? word = some op ∧ op.takesValues = false ∧ op.precedence = n := by
  have hall : ∀ p ∈ binaryWords n,
      Operator.binary? p.1 = some p.2 ∧ p.2.takesValues = false ∧ p.2.precedence = n := by
    unfold binaryWords
    split
    case h_7 => rintro _ ⟨⟩
    all_goals decide
  exact hall (word, op) h

theorem binary?_of_mem_membershipWords {word : String} {op : Operator}
    (h : (word, op) ∈ membershipWords) :
    Operator.binary? word = some op ∧ op.takesValues = true ∧ op.precedence = 4 := by
  have hall : ∀ p ∈ membershipWords,
      Operator.binary? p.1 = some p.2 ∧ p.2.takesValues = true ∧ p.2.precedence = 4 := by decide
  exact hall (word, op) h

theorem keyword_of_binary? {word : String} {op : Operator} (h : Operator.binary? word = some op) :
    word = op.keyword ∧ op.isUnary = false := by
  obtain ⟨h, hop⟩ := Option.filter_eq_some_iff.1 h
  exact ⟨(Operator.keyword_of_ofKeyword? h).symm, by simpa using hop⟩

/-- Each binary operator but membership is in the table of its level. -/
theorem mem_binaryWords {word : String} {op : Operator} (h : Operator.binary? word = some op)
    (hop : op.takesValues = false) : (word, op) ∈ binaryWords op.precedence := by
  obtain ⟨rfl, hu⟩ := keyword_of_binary? h
  revert hu hop
  cases op <;> decide

theorem mem_membershipWords {word : String} {op : Operator} (h : Operator.binary? word = some op)
    (hop : op.takesValues = true) : (word, op) ∈ membershipWords := by
  obtain ⟨rfl, -⟩ := keyword_of_binary? h
  revert hop
  cases op <;> decide

theorem precedence_of_binary? {word : String} {op : Operator}
    (h : Operator.binary? word = some op) : 1 ≤ op.precedence ∧ op.precedence ≤ 6 := by
  obtain ⟨-, hu⟩ := keyword_of_binary? h
  revert hu
  cases op <;> decide

/-! ## Groups behind membership -/

/-- What stands behind the parenthesis that closes a group, of which `depth` inner groups are
    open. -/
def behindGroup : Nat → List Token → List Token
  | _, [] => []
  | depth, t :: ts =>
    match t.kind, depth with
    | .mark .parenOpen, depth => behindGroup (depth + 1) ts
    | .mark .parenClose, 0 => ts
    | .mark .parenClose, depth + 1 => behindGroup depth ts
    | _, depth => behindGroup depth ts

section

variable {t : Token} (ts : List Token)

theorem behindGroup_open (h : t.kind = .mark .parenOpen) (depth : Nat) :
    behindGroup depth (t :: ts) = behindGroup (depth + 1) ts := by
  simp [behindGroup, h]

theorem behindGroup_close_zero (h : t.kind = .mark .parenClose) :
    behindGroup 0 (t :: ts) = ts := by
  simp [behindGroup, h]

theorem behindGroup_close_succ (h : t.kind = .mark .parenClose) (depth : Nat) :
    behindGroup (depth + 1) (t :: ts) = behindGroup depth ts := by
  simp [behindGroup, h]

theorem behindGroup_other (ho : t.kind ≠ .mark .parenOpen) (hc : t.kind ≠ .mark .parenClose)
    (depth : Nat) : behindGroup depth (t :: ts) = behindGroup depth ts := by
  cases hk : t.kind with
  | mark m =>
    rw [hk] at ho hc
    cases m with
    | parenOpen => exact absurd rfl ho
    | parenClose => exact absurd rfl hc
    | _ => simp [behindGroup, hk]
  | literal raw | name word => simp [behindGroup, hk]

end

/-- Whether the tokens begin with an operator of arithmetic. -/
def startsWithArithmetic : List Token → Bool
  | t :: _ => t.kind.word?.any fun word => word ∈ ["add", "sub", "mul", "div", "mod"]
  | [] => false

/-- If the tokens begin with `in` or `nin` and a group, no operator of arithmetic stands directly
    behind the parenthesis that closes the group. -/
def GuardedFront : List Token → Prop
  | t :: u :: after => t.kind = .name "in" ∨ t.kind = .name "nin" → u.kind = .mark .parenOpen →
      startsWithArithmetic (behindGroup 0 after) = false
  | _ => True

/-- Wherever a group is opened directly behind `in` or `nin`, no operator of arithmetic stands
    directly behind the parenthesis that closes it. -/
def GuardedMemberships (ts : List Token) : Prop := ∀ ts', ts' <:+ ts → GuardedFront ts'

theorem GuardedMemberships.of_suffix {ts ts' : List Token} (h : GuardedMemberships ts)
    (hs : ts' <:+ ts) : GuardedMemberships ts' :=
  fun after hafter => h after (hafter.trans hs)

theorem guardedMemberships_nil : GuardedMemberships [] := by
  intro ts' hs
  rw [List.suffix_nil.1 hs]
  trivial

theorem guardedMemberships_cons {t : Token} {ts : List Token} :
    GuardedMemberships (t :: ts) ↔ GuardedFront (t :: ts) ∧ GuardedMemberships ts := by
  refine ⟨fun h => ⟨h _ List.suffix_rfl, h.of_suffix (List.suffix_cons _ _)⟩, ?_⟩
  rintro ⟨hfront, h⟩ ts' hs
  rcases List.suffix_cons_iff.1 hs with rfl | hs
  · exact hfront
  · exact h ts' hs

instance : (ts : List Token) → Decidable (GuardedFront ts)
  | [] => isTrue trivial
  | [_] => isTrue trivial
  | t :: u :: after => inferInstanceAs (Decidable (t.kind = .name "in" ∨ t.kind = .name "nin" →
      u.kind = .mark .parenOpen → startsWithArithmetic (behindGroup 0 after) = false))

instance decidableGuardedMemberships : (ts : List Token) → Decidable (GuardedMemberships ts)
  | [] => isTrue guardedMemberships_nil
  | _ :: ts =>
    have := decidableGuardedMemberships ts
    decidable_of_iff _ guardedMemberships_cons.symm

end QueryExpr.Reading
