/-!
# Operators

The closed list of operators (specification, 3).

* `keyword`, `ofKeyword?`: the word that stands for an operator in a query. Unary
  minus is written `-`, which is no word.
* `canonical`: the name that stands for it in a tree's JSON form.
* `precedence`: how tightly an operator binds its operands.
-/

namespace QueryExpr

/-- The operators of a query (`Operator`). -/
inductive Operator where
  | not
  /-- Unary minus. -/
  | neg
  | mul
  | div
  | mod
  | add
  | sub
  | lt
  | gt
  | le
  | ge
  | eq
  | ne
  /-- Membership in a value list. -/
  | isIn
  | notIn
  | and
  | or
  deriving DecidableEq, Repr, Inhabited

namespace Operator

/-- How the operator is written (`keyword`). -/
def keyword : Operator → String
  | not => "not"
  | neg => "-"
  | mul => "mul"
  | div => "div"
  | mod => "mod"
  | add => "add"
  | sub => "sub"
  | lt => "lt"
  | gt => "gt"
  | le => "le"
  | ge => "ge"
  | eq => "eq"
  | ne => "ne"
  | isIn => "in"
  | notIn => "nin"
  | and => "and"
  | or => "or"

/-- The operator that a word stands for (`from_keyword`). -/
def ofKeyword? (word : String) : Option Operator :=
  match word with
  | "not" => some not
  | "mul" => some mul
  | "div" => some div
  | "mod" => some mod
  | "add" => some add
  | "sub" => some sub
  | "lt" => some lt
  | "gt" => some gt
  | "le" => some le
  | "ge" => some ge
  | "eq" => some eq
  | "ne" => some ne
  | "in" => some isIn
  | "nin" => some notIn
  | "and" => some and
  | "or" => some or
  | _ => none

/-- The name in a tree's JSON form and in a filter document (`canonical_name`). -/
def canonical : Operator → String
  | not => "$not"
  | neg => "$neg"
  | mul => "$multiply"
  | div => "$divide"
  | mod => "$mod"
  | add => "$add"
  | sub => "$subtract"
  | lt => "$lt"
  | gt => "$gt"
  | le => "$lte"
  | ge => "$gte"
  | eq => "$eq"
  | ne => "$ne"
  | isIn => "$in"
  | notIn => "$nin"
  | and => "$and"
  | or => "$or"

/-- Whether the operator has one operand (`is_unary`). -/
def isUnary : Operator → Bool
  | not | neg => true
  | _ => false

/-- Whether the operator joins conditions (`is_logical`). -/
def isLogical : Operator → Bool
  | and | or => true
  | _ => false

/-- Whether the operator compares its operands (`is_comparison`). -/
def isComparison : Operator → Bool
  | lt | gt | le | ge | eq | ne | isIn | notIn => true
  | _ => false

/-- Whether the right operand of the operator is a value list. -/
def takesValues : Operator → Bool
  | isIn | notIn => true
  | _ => false

/-- How tightly the operator binds its operands (`precedence`); a larger number is tighter. -/
def precedence : Operator → Nat
  | or => 1
  | and => 2
  | eq | ne => 3
  | lt | gt | le | ge | isIn | notIn => 4
  | add | sub => 5
  | mul | div | mod => 6
  | not | neg => 7

/-- The binary operator that a word stands for (`keyword_to_binary_op`). -/
def binary? (word : String) : Option Operator :=
  (ofKeyword? word).filter (fun op => !op.isUnary)

/-- The keyword of every operator but unary minus stands for it. -/
theorem ofKeyword?_keyword {op : Operator} (h : op ≠ neg) : ofKeyword? op.keyword = some op := by
  cases op <;> first | rfl | exact absurd rfl h

/-- A word that stands for an operator is its keyword. -/
theorem keyword_of_ofKeyword? {word : String} {op : Operator} (h : ofKeyword? word = some op) :
    op.keyword = word := by
  unfold ofKeyword? at h
  split at h <;> cases h <;> rfl

end Operator

end QueryExpr
