import QueryExpr.Query
import QueryExpr.Reading.Expression

/-!
# Reading filters, orderings and selections

* `filter`: reads an expression that is all of the tokens; no tokens are no filter.
* `ordering`, `selection`: read items with commas between them; no tokens are no
  items.

Each item has the whole budget of nested expressions to itself (specification, 4.5,
query options).
-/

namespace QueryExpr.Reading

/-- Fails if a token is left (`expect_end`). -/
def inputEnd : List Token → Run Unit
  | [] => pure ()
  | t :: rest =>
    if t.kind = .mark .parenClose then failAt .unmatchedClose (t :: rest)
    else missing .inputEnd (t :: rest)

/-- Reads an expression that is all of the tokens (`filter`). -/
def filter (r : Resolvers) (budget : Nat) (ts : List Token) : Run (Option Expr) :=
  if ts.isEmpty then pure none
  else do
    let (e, ts) ← expression r budget 0 ts
    inputEnd ts
    pure (some e)

/-! ## Items -/

/-- The word at the front of the tokens. -/
def word? : List Token → Option String
  | t :: _ => t.kind.word?
  | [] => none

/-- Reads an expression and a direction (the loop of `order_by`). -/
def orderItem (r : Resolvers) (budget : Nat) : Reader OrderItem := fun ts => do
  let (e, ts) ← expression r budget 0 ts
  match (word? ts).bind Direction.ofKeyword? with
  | some direction => pure (⟨e, direction⟩, ts.tail)
  | none => pure (⟨e, .standard⟩, ts)

/-- Whether a word can be the name of an item: it is no path and no operator. -/
def isItemName (word : String) : Bool := !isPath word && (Operator.ofKeyword? word).isNone

/-- Reads the name of an item (`expect_alias`). -/
def itemName : Reader String := fun ts =>
  match word? ts with
  | some word => if isItemName word then pure (word, ts.tail) else missing .itemName ts
  | none => missing .itemName ts

/-- Reads an expression and, behind `as`, a name for it (the loop of `select`). -/
def selectItem (r : Resolvers) (budget : Nat) : Reader SelectItem := fun ts => do
  let (e, ts) ← expression r budget 0 ts
  if word? ts = some "as" then
    let (name, ts) ← itemName ts.tail
    pure (⟨e, some name⟩, ts)
  else pure (⟨e, none⟩, ts)

/-- Reads items with commas between them, at most `limit` of them (`eat_comma`). Each takes a token,
    so no more are there than tokens. -/
def separated {α : Type} (item : Reader α) : Nat → Reader (List α)
  | 0, ts => pure ([], ts)
  | limit + 1, ts => do
    let (a, ts) ← item ts
    if startsWith .comma ts then
      let (as, ts) ← separated item limit ts.tail
      pure (a :: as, ts)
    else pure ([a], ts)

/-- Reads items that are all of the tokens. -/
def wholeList {α : Type} (item : Reader α) (ts : List Token) : Run (List α) :=
  if ts.isEmpty then pure []
  else do
    let (as, ts) ← separated item (ts.length + 1) ts
    inputEnd ts
    pure as

/-- Reads an ordering (`order_by`). -/
def ordering (r : Resolvers) (budget : Nat) : List Token → Run (List OrderItem) :=
  wholeList (orderItem r budget)

/-- Reads a selection (`select`). -/
def selection (r : Resolvers) (budget : Nat) : List Token → Run (List SelectItem) :=
  wholeList (selectItem r budget)

end QueryExpr.Reading
