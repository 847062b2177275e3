import QueryExpr.Literal
import QueryExpr.Operator
import QueryExpr.Text.Segments

/-!
# Expressions

The nodes of the expression tree (specification, 3).

* `Member`: a field, or a path that leads to one.
* `Expr`: a tree of members, literals, calls and operators.
* `Call`: a call of a function.
* `Expr.same`: equality of trees, where literals are compared with `Literal.same`.
-/

namespace QueryExpr

/-- A field, or a path of relations that leads to one, outermost first (`MemberExpr`). -/
structure Member where
  path : List String
  deriving DecidableEq, Repr, Inhabited

namespace Member

/-- The member that a text with slashes names (`from_path`). -/
def ofText (text : String) : Member := ⟨Text.Segments.split '/' text⟩

/-- The segments with slashes between them (the `Display` of `MemberExpr`). -/
def text (m : Member) : String := Text.Segments.join '/' m.path

/-- The last segment (`name`). -/
def name (m : Member) : String := m.path.getLast?.getD ""

/-- Whether the path leads through a relation (`is_navigation`). -/
def isNavigation (m : Member) : Bool := 1 < m.path.length

/-- Splitting a text and joining its segments changes nothing. -/
theorem text_ofText (text : String) : (ofText text).text = text := Text.Segments.join_split '/' text

end Member

/-- An expression of a query (`Expr`). -/
inductive Expr where
  | member (m : Member)
  | literal (l : Literal)
  | call (name : String) (args : List Expr)
  | binary (left : Expr) (op : Operator) (right : Expr)
  | unary (op : Operator) (operand : Expr)
  /-- A value list, the right operand of membership. -/
  | collection (items : List Expr)

/-- A call of a function by its canonical name (`MethodCall`). -/
structure Call where
  name : String
  args : List Expr

/-- The call as an expression. -/
def Call.toExpr (c : Call) : Expr := .call c.name c.args

namespace Expr

instance : Inhabited Expr := ⟨literal .null⟩

/-- Equality of trees (the `PartialEq` of `Expr`). -/
def same : Expr → Expr → Bool
  | member m, member n => m == n
  | literal a, literal b => a.same b
  | call f as, call g bs => f == g && sameAll as bs
  | binary a o b, binary c p d => o == p && same a c && same b d
  | unary o a, unary p b => o == p && same a b
  | collection as, collection bs => sameAll as bs
  | _, _ => false
where
  /-- Equality of lists of trees. -/
  sameAll : List Expr → List Expr → Bool
    | [], [] => true
    | a :: as, b :: bs => same a b && sameAll as bs
    | _, _ => false

/-! ## Conditions -/

/-- Both sides are equal. -/
protected def eq (left right : Expr) : Expr := binary left .eq right

/-- The sides differ. -/
protected def ne (left right : Expr) : Expr := binary left .ne right

/-- The left side is smaller. -/
protected def lt (left right : Expr) : Expr := binary left .lt right

/-- The left side is larger. -/
protected def gt (left right : Expr) : Expr := binary left .gt right

/-- Both conditions hold. -/
protected def and (left right : Expr) : Expr := binary left .and right

/-- One of the conditions holds. -/
protected def or (left right : Expr) : Expr := binary left .or right

/-- The condition does not hold. -/
protected def not (operand : Expr) : Expr := unary .not operand

end Expr

end QueryExpr
