import QueryExpr.Reading.Run
import QueryExpr.Resolve.Member
import QueryExpr.Resolve.Registry

/-!
# Reading expressions

An expression is an operand and a chain of binary operators with their right
operands. Each operator has a left power, which has to reach a minimum for the chain
to go on, and a right power, which is the minimum for the expression that is its
right operand. The right power is the larger one, so operators of one precedence
group to the left (specification, 4.5).

* `Operator.leftPower`, `Operator.rightPower`: the powers of an operator.
* `expression`: reads an expression within a budget of nested expressions.

The readers below `expression` take the reader of nested expressions as an argument
`sub`, with the minimum of the powers first. Where expressions follow one another, each
takes a token, so the tokens ahead of the first one bound their number.
-/

namespace QueryExpr

namespace Operator

/-- What the minimum may be at most for the operator to continue a chain (the left one of
    `infix_binding_power`). -/
def leftPower (op : Operator) : Nat := 2 * op.precedence - 1

/-- The minimum for the operand behind the operator (the right one of `infix_binding_power`). -/
def rightPower (op : Operator) : Nat := 2 * op.precedence

/-- The minimum for the operand of a unary operator (`prefix_binding_power`): no binary operator
    reaches it. -/
def operandPower (op : Operator) : Nat := 2 * op.precedence - 1

end Operator

/-- What is asked for the meaning of names. -/
structure Resolvers where
  members : MemberResolver
  methods : MethodResolver

namespace Reading

/-- A fault at the front of the tokens `ts`. -/
def failAt {α : Type} (problem : Problem) (ts : List Token) : Run α :=
  .fail (.grammar problem ts.length)

/-- A fault for want of something at the front of the tokens `ts`. -/
def missing {α : Type} (wanted : Wanted) (ts : List Token) : Run α :=
  match ts with
  | [] => failAt (.ended wanted) []
  | t :: rest => failAt (.unexpected wanted t.kind) (t :: rest)

/-- Whether the tokens begin with a mark. -/
def startsWith (m : Mark) : List Token → Bool
  | t :: _ => t.kind == .mark m
  | [] => false

/-- Reads a mark that has to be there, as `expect_paren_close` does. -/
def mark (m : Mark) (wanted : Wanted) : Reader Unit
  | t :: rest =>
    if t.kind = .mark m then pure ((), rest) else missing wanted (t :: rest)
  | [] => missing wanted []

/-! ## Lists in parentheses -/

/-- Reads the expressions behind commas, and the parenthesis behind them (the loop of `parse_list`).
    There are no more of them than tokens in `bound`. -/
def laterItems (sub : Nat → Reader Expr) (bound : List Token) : Reader (List Expr) := fun ts => do
  Run.enter .arguments
  match bound with
  | _ :: bound =>
    if startsWith .comma ts then
      let (e, ts) ← sub 0 ts.tail
      let (es, ts) ← laterItems sub bound ts
      pure (e :: es, ts)
    else
      let ((), ts) ← mark .parenClose .separator ts
      pure ([], ts)
  | [] => missing .separator ts

/-- Reads a list of expressions behind its opening parenthesis (`parse_list`). -/
def list (sub : Nat → Reader Expr) : Reader (List Expr) := fun ts => do
  Run.enter .arguments
  if startsWith .parenClose ts then pure ([], ts.tail)
  else do
    let (e, ts) ← sub 0 ts
    let (es, ts) ← laterItems sub ts ts
    pure (e :: es, ts)

/-- Reads the value list behind a membership operator (`parse_value_list`). -/
def valueList (sub : Nat → Reader Expr) : Reader Expr := fun ts => do
  let ((), ts) ← mark .parenOpen .openParen ts
  let (es, ts) ← list sub ts
  Run.enter .expression
  pure (.collection es, ts)

/-! ## Operands -/

/-- The value of a literal (`parse_primary` at a literal). -/
def literalValue (raw : Literal.Raw) (span : Span) : Run Expr :=
  match raw.value with
  | .ok l => pure (.literal l)
  | .error reason => .fail (.literal raw reason span)

/-- What a name stands for that is not the name of a method (`parse_member`). -/
def member (r : Resolvers) (word : String) : Run Expr := do
  let path := pathSegments word
  Run.enter .member
  let m ← Run.ask (.member path) (r.members.notes path)
    ((r.members.resolve path).mapError .member)
  Run.enter .expression
  pure (.member m)

/-- What a call of a method stands for (`parse_method_call`). -/
def call (r : Resolvers) (name : String) (args : List Expr) : Run Expr := do
  let c ← Run.ask (.method name args) (r.methods.notes name args)
    ((r.methods.resolve name args).mapError .method)
  Run.enter .expression
  pure c.toExpr

/-- Reads a literal, a member, a call or an expression in parentheses (`parse_primary`). An
    operator's word in front of a parenthesis is the name of a method. -/
def primary (r : Resolvers) (sub : Nat → Reader Expr) : Reader Expr
  | [] => missing .operand []
  | t :: rest =>
    match t.kind with
    | .literal raw => do
      let e ← literalValue raw t.span
      pure (e, rest)
    | .mark .parenOpen => do
      let (e, ts) ← sub 0 rest
      if startsWith .parenClose ts then pure (e, ts.tail)
      else missing (.closeParen (rest.length + 1)) ts
    | .mark _ => missing .operand (t :: rest)
    | .name word =>
      if startsWith .parenOpen rest then do
        let (args, ts) ← list sub rest.tail
        let e ← call r word args
        pure (e, ts)
      else if (Operator.binary? word).isSome then missing .operand (t :: rest)
      else do
        let e ← member r word
        pure (e, rest)

/-- Reads an operand: a unary operator and its operand, or what has no operator (`parse_prefix`). -/
def operand (r : Resolvers) (sub : Nat → Reader Expr) : Reader Expr
  | [] => missing .operand []
  | t :: rest =>
    match t.kind.unary? with
    | some op => do
      let (e, ts) ← sub op.operandPower rest
      pure (.unary op e, ts)
    | none => primary r sub (t :: rest)

/-! ## Chains of operators -/

/-- The binary operator at the front of the tokens, if its left power reaches the minimum. -/
def nextOperator? (minPower : Nat) : List Token → Option Operator
  | [] => none
  | t :: _ => t.kind.binary?.filter (minPower ≤ ·.leftPower)

/-- Reads the operators and right operands behind `left` (the loop of `parse_expression`). There are
    no more of them than tokens in `bound`. -/
def chain (sub : Nat → Reader Expr) (minPower : Nat) (bound : List Token) (left : Expr) :
    Reader Expr := fun ts =>
  match bound, nextOperator? minPower ts with
  | _ :: bound, some op => do
    let (right, ts) ←
      if op.takesValues then valueList sub ts.tail else sub op.rightPower ts.tail
    chain sub minPower bound (.binary left op right) ts
  | _, _ => pure (left, ts)

/-- Reads an expression whose operators have at least the given left power (`parse_expression`). No
    more than `budget` expressions may be nested (`enter`). -/
def expression (r : Resolvers) : Nat → Nat → Reader Expr
  | 0, _, ts => failAt .tooDeep ts
  | budget + 1, minPower, ts => do
    Run.enter .expression
    let (left, ts) ← operand r (expression r budget) ts
    chain (expression r budget) minPower ts left ts

end Reading

end QueryExpr
