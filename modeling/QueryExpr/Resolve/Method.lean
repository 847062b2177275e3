import QueryExpr.Expr
import QueryExpr.Resolve.Fault
import QueryExpr.Resolve.Keyed

/-!
# Tables of methods

A table translates the names of methods to canonical functions. A name is looked up
without regard to ASCII case and without the qualifier before its last point:
`Math.round` is looked up as `round` (specification, 4.4).

* `MethodSpec.construct`: the canonical call, if the number of arguments fits.
* `MethodTable.insert`, `MethodTable.get?`: adding and looking up a name.
-/

namespace QueryExpr

/-- How the arguments of a method become those of its canonical function. -/
inductive MethodSpec.Order where
  | asGiven
  /-- The first two arguments change places. -/
  | firstTwoSwapped
  deriving DecidableEq, Repr

/-- The arguments in the order of the canonical function (`direct` and `swapped`). -/
def MethodSpec.Order.arrange : MethodSpec.Order → List Expr → List Expr
  | firstTwoSwapped, a :: b :: args => b :: a :: args
  | _, args => args

/-- A canonical function, and what arguments it takes (`MethodSpec`). -/
structure MethodSpec where
  canonical : String
  minArgs : Nat
  /-- No limit if there is none. -/
  maxArgs? : Option Nat
  order : MethodSpec.Order
  deriving DecidableEq, Repr

namespace MethodSpec

/-- A function of `least` to `most` arguments (`new`). -/
def between (canonical : String) (least most : Nat) : MethodSpec :=
  ⟨canonical, least, some most, .asGiven⟩

/-- A function of `count` arguments (`exact`). -/
def exact (canonical : String) (count : Nat) : MethodSpec := between canonical count count

/-- A function of `least` or more arguments (`variadic`). -/
def atLeast (canonical : String) (least : Nat) : MethodSpec := ⟨canonical, least, none, .asGiven⟩

/-- The same function, with the first two arguments in the other order (`with_builder`). -/
def swapped (s : MethodSpec) : MethodSpec := { s with order := .firstTwoSwapped }

/-- Whether the function takes `count` arguments. -/
def accepts (s : MethodSpec) (count : Nat) : Bool :=
  s.minArgs ≤ count && s.maxArgs?.all (count ≤ ·)

/-- How many arguments the function takes, in words (`arity`). -/
def arityText (s : MethodSpec) : String :=
  match s.maxArgs? with
  | some most => if most = s.minArgs then s!"{most}" else s!"{s.minArgs}..={most}"
  | none => s!"at least {s.minArgs}"

/-- The canonical call of a method that a query calls `shown` (`construct`). -/
def construct (s : MethodSpec) (shown : String) (args : List Expr) : Except ResolutionError Call :=
  if s.accepts args.length then .ok ⟨s.canonical, s.order.arrange args⟩
  else .error ⟨shown, .arity s.arityText args.length⟩

end MethodSpec

/-- A method's name, in lower case, and its function. -/
structure MethodTable.Entry where
  key : String
  spec : MethodSpec
  deriving DecidableEq, Repr

/-- A named translation of method names (`MethodTable`). -/
structure MethodTable where
  name : String
  entries : List MethodTable.Entry
  deriving DecidableEq, Repr

namespace MethodTable

/-- A table without methods (`new`). -/
def empty (name : String) : MethodTable := ⟨name, []⟩

/-- A text with its ASCII letters in lower case. -/
def lower (text : String) : String := String.ofList (text.toList.map Char.toLower)

/-- The key under which a name is looked up (`lookup_key`): what follows its last point, in lower
    case. -/
def lookupKey (method : String) : String := lower (Text.Segments.last '.' method)

/-- Lets `source` stand for a function, whatever it stood for (`method`). -/
def insert (t : MethodTable) (source : String) (spec : MethodSpec) : MethodTable :=
  { t with entries := Keyed.put Entry.key ⟨lower source, spec⟩ t.entries }

/-- Lets several names stand for a function (`aliases`). -/
def insertAll (t : MethodTable) (sources : List String) (spec : MethodSpec) : MethodTable :=
  sources.foldl (fun t source => t.insert source spec) t

/-- The function that a name stands for (`get`). -/
def get? (t : MethodTable) (method : String) : Option MethodSpec :=
  (Keyed.get? Entry.key (lookupKey method) t.entries).map Entry.spec

/-- The number of names (`len`). -/
def size (t : MethodTable) : Nat := t.entries.length

/-- Whether a name stands for a function (`recognizes`). -/
def recognizes (t : MethodTable) (method : String) : Bool := (t.get? method).isSome

/-- The canonical call of a method (`resolve`). -/
def resolve (t : MethodTable) (method : String) (args : List Expr) : Except MethodError Call :=
  match t.get? method with
  | some spec => (spec.construct method args).mapError .resolution
  | none => .error (.unknown ⟨method, [t.name]⟩)

/-! ## The standard tables -/

/-- Functions of strings. -/
def string : MethodTable :=
  (empty "string")
    |>.insertAll ["startsWith"] (.exact "startswith" 2)
    |>.insertAll ["endsWith"] (.exact "endswith" 2)
    |>.insertAll ["toLowerCase", "toLocaleLowerCase", "tolower"] (.exact "toLower" 1)
    |>.insertAll ["toUpperCase", "toLocaleUpperCase", "toupper"] (.exact "toUpper" 1)
    |>.insertAll ["indexOf", "indexOfBytes"] (.exact "indexOfBytes" 2)
    |>.insertAll ["substr", "substring"] (.between "substr" 2 3)
    |>.insertAll ["trim"] (.exact "trim" 1)
    |>.insertAll ["concat"] (.atLeast "concat" 2)
    |>.insertAll ["includes", "contains"] (.exact "contains" 2)
    |>.insertAll ["substringof"] (.swapped (.exact "contains" 2))
    |>.insertAll ["length"] (.exact "length" 1)

/-- Functions of numbers. -/
def math : MethodTable :=
  (empty "math")
    |>.insertAll ["round"] (.between "round" 1 2)
    |>.insertAll ["ceil", "ceiling"] (.exact "ceil" 1)
    |>.insertAll ["floor"] (.exact "floor" 1)
    |>.insertAll ["add"] (.exact "add" 2)
    |>.insertAll ["subtract"] (.exact "subtract" 2)
    |>.insertAll ["multiply"] (.exact "multiply" 2)
    |>.insertAll ["divide"] (.exact "divide" 2)
    |>.insertAll ["bitAnd"] (.exact "bitAnd" 2)

/-- Functions of dates and times. -/
def date : MethodTable :=
  (empty "date")
    |>.insertAll ["getFullYear", "year"] (.exact "year" 1)
    |>.insertAll ["getMonth", "month"] (.exact "month" 1)
    |>.insertAll ["getDate", "day"] (.exact "day" 1)
    |>.insertAll ["getHours", "hour"] (.exact "hour" 1)
    |>.insertAll ["getMinutes", "minute"] (.exact "minute" 1)
    |>.insertAll ["getSeconds", "second"] (.exact "second" 1)
    |>.insertAll ["date"] (.exact "date" 1)
    |>.insertAll ["time"] (.exact "time" 1)
    |>.insertAll ["now"] (.exact "now" 0)

end MethodTable

end QueryExpr
