import QueryExpr.Resolve.Method
import QueryExpr.Resolve.Note

/-!
# The registry of strategies

A strategy resolves the methods it recognizes. A registry asks its strategies in
order and lets the first one that recognizes a method resolve it. Strategies are
stateless (specification, 4.4), and so is a method resolver: what it makes of a call
depends on the call alone.

* `Registry.register`: replaces the strategy of the same name in its place, or adds
  one at the end.
* `Registry.resolve`: the canonical call of a method.
* `Registry.standard`: the tables of strings, numbers and dates, in this order.
-/

namespace QueryExpr

/-- What a call in a query stands for, and the remarks on it (`MethodResolver`). A resolver has no
    state, so its answer to a call is the same whenever it is asked. -/
structure MethodResolver where
  resolve : String → List Expr → Except MethodError Call
  notes : String → List Expr → List Note

/-- A named way to resolve some methods (`MethodStrategy`). -/
structure Strategy where
  name : String
  recognizes : String → Bool
  resolve : String → List Expr → Except MethodError Call

/-- The strategy of a table. -/
def MethodTable.toStrategy (t : MethodTable) : Strategy := ⟨t.name, t.recognizes, t.resolve⟩

/-- Strategies in the order in which they are asked (`StrategyRegistry`). -/
structure Registry where
  strategies : List Strategy

namespace Registry

/-- A registry without strategies (`new`). -/
def empty : Registry := ⟨[]⟩

/-- Replaces the strategy of the same name in its place, or adds one at the end (`register`). -/
def register (r : Registry) (s : Strategy) : Registry :=
  ⟨Keyed.put Strategy.name s r.strategies⟩

/-- The registry without the strategy of a name (`remove`). -/
def remove (r : Registry) (name : String) : Registry :=
  ⟨Keyed.erase Strategy.name name r.strategies⟩

/-- The strategy of a name (`get`). -/
def get? (r : Registry) (name : String) : Option Strategy :=
  Keyed.get? Strategy.name name r.strategies

/-- The names of the strategies, in order (`names`). -/
def names (r : Registry) : List String := r.strategies.map Strategy.name

/-- The first strategy that recognizes a method. -/
def choose? (r : Registry) (method : String) : Option Strategy :=
  r.strategies.find? (·.recognizes method)

/-- The canonical call of a method (`resolve`). -/
def resolve (r : Registry) (method : String) (args : List Expr) : Except MethodError Call :=
  match r.choose? method with
  | some s => s.resolve method args
  | none => .error (.unknown ⟨method, r.names⟩)

/-- The resolver of the registry (`resolve_method`), which remarks which strategy it chooses. -/
def resolver (r : Registry) : MethodResolver where
  resolve := r.resolve
  notes method _ :=
    match r.choose? method with
    | some s => [.strategyChosen method s.name]
    | none => []

/-- The tables of strings, numbers and dates (`with_defaults`). -/
def standard : Registry :=
  empty
    |>.register MethodTable.string.toStrategy
    |>.register MethodTable.math.toStrategy
    |>.register MethodTable.date.toStrategy

end Registry

end QueryExpr
