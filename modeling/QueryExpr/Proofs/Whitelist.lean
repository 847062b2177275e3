import Mathlib.Data.List.Induction
import QueryExpr.Expr.Walk
import QueryExpr.Proofs.Methods
import QueryExpr.Proofs.Trees

/-!
# Names that a query can reach

Every name of a tree has been granted by a resolver, wherever it stands. With a strict map of
fields and tables of methods, a tree therefore has columns of the map and functions of the tables
only.

* `Expr.All`: something holds of every part of an expression.
* `Resolvers.Grants`: whatever is resolved is of a certain kind.
* `Resolvers.GrantsFrom`: whatever is made of tokens of certain kinds is.
* `Reads.all_of_kinds`, `Reads.all`: every part of a tree that is read is of this kind.
* `FieldMap.build`, `FieldMap.Current`: a map put together step by step, and its columns.
* `Parser.whitelisted_of_strict`: the parts of every returned tree are on the lists.
-/

namespace QueryExpr

namespace Expr

/-- `P` holds of the expression and all its parts. -/
def All (P : Expr → Prop) (e : Expr) : Prop := ∀ node ∈ e.walk, P node

variable {P : Expr → Prop}

/-- An expression is a part of itself. -/
theorem All.self {e : Expr} (h : e.All P) : P e := h e (by cases e <;> exact List.mem_cons_self)

theorem mem_walkAll {node : Expr} {es : List Expr} :
    node ∈ walk.walkAll es ↔ ∃ e ∈ es, node ∈ e.walk := by
  induction es with
  | nil => simp [walk.walkAll]
  | cons e es ih => simp [walk.walkAll, ih]

theorem all_member {m : Member} : (member m).All P ↔ P (member m) := by simp [All, walk]

theorem all_literal {l : Literal} : (literal l).All P ↔ P (literal l) := by simp [All, walk]

theorem all_binary {left right : Expr} {op : Operator} :
    (binary left op right).All P ↔ P (binary left op right) ∧ left.All P ∧ right.All P := by
  simp [All, walk, or_imp, forall_and]

theorem all_unary {op : Operator} {inner : Expr} :
    (unary op inner).All P ↔ P (unary op inner) ∧ inner.All P := by
  simp [All, walk]

theorem all_call {name : String} {args : List Expr} :
    (call name args).All P ↔ P (call name args) ∧ ∀ arg ∈ args, arg.All P := by
  simp only [All, walk, List.forall_mem_cons, mem_walkAll]
  refine and_congr_right fun _ => ⟨fun h arg harg node hnode => h node ⟨arg, harg, hnode⟩, ?_⟩
  rintro h node ⟨arg, harg, hnode⟩
  exact h arg harg node hnode

theorem all_collection {items : List Expr} :
    (collection items).All P ↔ P (collection items) ∧ ∀ item ∈ items, item.All P := by
  simp only [All, walk, List.forall_mem_cons, mem_walkAll]
  refine and_congr_right fun _ => ⟨fun h item hitem node hnode => h node ⟨item, hitem, hnode⟩, ?_⟩
  rintro h node ⟨item, hitem, hnode⟩
  exact h item hitem node hnode

end Expr

/-! ## What resolvers grant -/

/-- Whatever a path or a call stands for, `P` holds of it, and a call has no arguments but those it
    was asked with. Of what needs no resolver, `P` holds anyway. -/
structure Resolvers.Grants (r : Resolvers) (P : Expr → Prop) : Prop where
  member : ∀ {path m}, r.members.resolve path = .ok m → P (.member m)
  method : ∀ {name args c}, r.methods.resolve name args = .ok c →
    P (.call c.name c.args) ∧ ∀ arg ∈ c.args, arg ∈ args
  literal : ∀ l, P (.literal l)
  binary : ∀ left op right, P (.binary left op right)
  unary : ∀ op inner, P (.unary op inner)
  collection : ∀ items, P (.collection items)

/-- Whatever is made of tokens of the kinds `K`, `P` holds of it, and a call has no arguments but
    those it was asked with. -/
structure Resolvers.GrantsFrom (r : Resolvers) (K : Token.Kind → Prop) (P : Expr → Prop) :
    Prop where
  member : ∀ {word m}, K (.name word) → Operator.ofKeyword? word = none →
    r.members.resolve (pathSegments word) = .ok m → P (.member m)
  method : ∀ {name args c}, r.methods.resolve name args = .ok c →
    P (.call c.name c.args) ∧ ∀ arg ∈ c.args, arg ∈ args
  literal : ∀ {raw l}, K (.literal raw) → raw.value = .ok l → P (.literal l)
  binary : ∀ left op right, P (.binary left op right)
  unary : ∀ op inner, P (.unary op inner)
  collection : ∀ items, P (.collection items)

/-- What resolvers grant, they grant whatever the tokens are. -/
theorem Resolvers.Grants.from {r : Resolvers} {P : Expr → Prop} (hr : r.Grants P) :
    r.GrantsFrom (fun _ => True) P where
  member _ _ hm := hr.member hm
  method := hr.method
  literal _ _ := hr.literal _
  binary := hr.binary
  unary := hr.unary
  collection := hr.collection

namespace Reading

/-- What a part of the reader is given has parts of the kind `P` only. -/
def Part.Given (P : Expr → Prop) : Part → Prop
  | .chain _ left => left.All P
  | .expression _ | .operand | .values | .items => True

/-- All parts of a tree that is read of tokens of the kinds `K` have been granted. -/
theorem Reads.all_of_kinds {r : Resolvers} {K : Token.Kind → Prop} {P : Expr → Prop}
    (hr : r.GrantsFrom K P) {part : Part} {ts rest : List Token} {qs : List Request} {e : Expr}
    (h : Reads r part ts qs e rest) (hts : ∀ t ∈ ts, K t.kind) (hpart : part.Given P) :
    e.All P := by
  induction h with
  | expression first _ ihf ihm =>
    exact ihm (fun t ht => hts t (first.suffix.mem ht)) (ihf hts trivial)
  | unary _ _ ih =>
    exact Expr.all_unary.2 ⟨hr.unary _ _, ih (List.forall_mem_cons.1 hts).2 trivial⟩
  | literal ht hl =>
    exact Expr.all_literal.2 (hr.literal (ht ▸ (List.forall_mem_cons.1 hts).1) hl)
  | parens _ _ _ ih | values _ _ ih => exact ih (List.forall_mem_cons.1 hts).2 trivial
  | call _ _ _ hc ih =>
    have hargs := (Expr.all_collection.1 (ih (List.forall_mem_cons.1 hts).2 trivial)).2
    obtain ⟨hcall, hmem⟩ := hr.method hc
    exact Expr.all_call.2 ⟨hcall, fun arg harg => hargs arg (hmem arg harg)⟩
  | member ht hw _ hm =>
    exact Expr.all_member.2 (hr.member (ht ▸ (List.forall_mem_cons.1 hts).1) hw hm)
  | stop _ => exact hpart
  | binary _ _ operand _ iho ihm | membership _ _ operand _ iho ihm =>
    obtain ⟨-, hts⟩ := List.forall_mem_cons.1 hts
    refine ihm (fun t ht => hts t (operand.suffix.mem ht)) ?_
    exact Expr.all_binary.2 ⟨hr.binary _ _ _, hpart, iho hts trivial⟩
  | noValues _ _ => exact Expr.all_collection.2 ⟨hr.collection _, by simp⟩
  | lastItem _ _ ih =>
    exact Expr.all_collection.2 ⟨hr.collection _, by simpa using ih hts trivial⟩
  | nextItem item _ _ ihi ihm =>
    have hmore := fun t ht => hts t (item.suffix.mem (List.mem_cons_of_mem _ ht))
    have hitems := (Expr.all_collection.1 (ihm hmore trivial)).2
    refine Expr.all_collection.2 ⟨hr.collection _, ?_⟩
    simpa using ⟨ihi hts trivial, hitems⟩

/-- All parts of a tree that is read have been granted. -/
theorem Reads.all {r : Resolvers} {P : Expr → Prop} (hr : r.Grants P) {part : Part}
    {ts rest : List Token} {qs : List Request} {e : Expr} (h : Reads r part ts qs e rest)
    (hpart : part.Given P) : e.All P :=
  h.all_of_kinds hr.from (fun _ _ => trivial) hpart

end Reading

theorem Parser.Yields.all {p : Parser} {text : String} {e : Expr} (h : p.Yields text e)
    {P : Expr → Prop} (hp : p.resolvers.Grants P) : e.All P := by
  obtain ⟨_, _, _, hread⟩ := h.reads
  exact hread.all hp trivial

/-! ## Maps of fields -/

namespace FieldMap

/-- A step in which a map is put together. -/
inductive Exposure where
  /-- A path stands for itself. -/
  | field (name : String)
  | mapped (shown column : String)

namespace Exposure

/-- The path that queries may use from then on. -/
def shown : Exposure → String
  | field name => name
  | mapped shown _ => shown

/-- What the path stands for. -/
def column : Exposure → String
  | field name => name
  | mapped _ column => column

/-- The map after the step. -/
def applyTo (m : FieldMap) : Exposure → FieldMap
  | field name => m.field name
  | mapped shown column => m.expose shown column

theorem applyTo_eq (m : FieldMap) (x : Exposure) : x.applyTo m = m.expose x.shown x.column := by
  cases x <;> rfl

end Exposure

/-- The strict map that is put together in some steps. -/
def build (steps : List Exposure) : FieldMap := steps.foldl Exposure.applyTo (empty false)

/-- The last step for the path lets it stand for the column. -/
def Current (steps : List Exposure) (shown column : String) : Prop :=
  ∃ before x after, steps = before ++ x :: after ∧ x.shown = shown ∧ x.column = column ∧
    ∀ y ∈ after, y.shown ≠ shown

theorem current_append_singleton {steps : List Exposure} {x : Exposure} {shown column : String}
    (h : Current steps shown column) (hx : x.shown ≠ shown) :
    Current (steps ++ [x]) shown column := by
  obtain ⟨before, y, after, rfl, hshown, hcolumn, hafter⟩ := h
  refine ⟨before, y, after ++ [x], by simp, hshown, hcolumn, ?_⟩
  intro z hz
  rcases List.mem_append.1 hz with hz | hz
  · exact hafter z hz
  · rw [List.mem_singleton.1 hz]
    exact hx

theorem build_append_singleton (steps : List Exposure) (x : Exposure) :
    build (steps ++ [x]) = (build steps).expose x.shown x.column := by
  rw [build, List.foldl_append, List.foldl_cons, List.foldl_nil, Exposure.applyTo_eq]
  rfl

theorem lenient_build (steps : List Exposure) : (build steps).lenient = false := by
  induction steps using List.reverseRecOn with
  | nil => rfl
  | append_singleton steps x ih =>
    rw [build_append_singleton]
    exact ih

/-- The column of a path is the one of its last step. -/
theorem current_of_column? {steps : List Exposure} {shown column : String}
    (h : (build steps).column? shown = some column) : Current steps shown column := by
  induction steps using List.reverseRecOn with
  | nil => simp [build, empty, column?, Keyed.get?] at h
  | append_singleton steps x ih =>
    rw [build_append_singleton] at h
    by_cases hx : x.shown = shown
    · rw [← hx, column?_expose_self] at h
      exact ⟨steps, x, [], rfl, hx, Option.some.inj h, by simp⟩
    · rw [column?_expose_of_ne _ _ hx] at h
      exact current_append_singleton (ih h) hx

/-- A strict map resolves a path to one of its columns. -/
theorem current_of_resolve {steps : List Exposure} {path : List String} {m : Member}
    (h : (build steps).resolver.resolve path = .ok m) :
    ∃ shown column, Current steps shown column ∧ m = .ofText column := by
  simp only [resolver, lenient_build] at h
  split at h
  next column hcolumn =>
    cases h
    exact ⟨_, column, current_of_column? hcolumn, rfl⟩
  next => simp at h

end FieldMap

/-! ## Tables of methods -/

theorem MethodSpec.Order.arrange_perm (order : MethodSpec.Order) (args : List Expr) :
    (order.arrange args).Perm args := by
  unfold arrange
  split
  · exact .swap _ _ _
  · exact .refl _

/-- The number of arguments is one that the function takes. -/
def MethodSpec.Takes (s : MethodSpec) (count : Nat) : Prop :=
  s.minArgs ≤ count ∧ ∀ most, s.maxArgs? = some most → count ≤ most

theorem MethodSpec.takes_of_accepts {s : MethodSpec} {count : Nat} (h : s.accepts count = true) :
    s.Takes count := by
  simp only [accepts, Bool.and_eq_true, decide_eq_true_eq] at h
  refine ⟨h.1, fun most hmost => ?_⟩
  simpa [hmost] using h.2

/-- A call that is constructed has the canonical name and the arguments, as many as the function
    takes. -/
theorem MethodSpec.construct_eq_ok {s : MethodSpec} {shown : String} {args : List Expr} {c : Call}
    (h : s.construct shown args = .ok c) :
    c.name = s.canonical ∧ s.Takes c.args.length ∧ c.args.Perm args := by
  unfold construct at h
  split at h
  next haccepts =>
    cases h
    have hperm := s.order.arrange_perm args
    exact ⟨rfl, by simpa [hperm.length_eq] using takes_of_accepts haccepts, hperm⟩
  next => simp at h

/-- A table resolves a method by one of its entries. -/
theorem MethodTable.resolve_eq_ok {t : MethodTable} {method : String} {args : List Expr} {c : Call}
    (h : t.resolve method args = .ok c) :
    ∃ entry ∈ t.entries, entry.spec.construct method args = .ok c := by
  unfold resolve at h
  split at h
  next spec hspec =>
    obtain ⟨entry, hentry, rfl⟩ := Option.map_eq_some_iff.1 hspec
    exact ⟨entry, List.mem_of_find?_eq_some hentry, Reading.Run.mapError_eq_ok.1 h⟩
  next => simp at h

/-- A registry of tables resolves a method by one of them. -/
theorem Registry.resolve_eq_ok {registry : Registry} {tables : List MethodTable}
    (htables : registry.strategies = tables.map MethodTable.toStrategy) {method : String}
    {args : List Expr} {c : Call} (h : registry.resolve method args = .ok c) :
    ∃ t ∈ tables, t.resolve method args = .ok c := by
  unfold resolve at h
  split at h
  next s hs =>
    have hmem := List.mem_of_find?_eq_some hs
    rw [htables] at hmem
    obtain ⟨t, ht, rfl⟩ := List.mem_map.1 hmem
    exact ⟨t, ht, h⟩
  next => simp at h

/-- A registry of tables lets the first table that knows a name construct the call. -/
theorem Registry.resolve_eq_ok_iff {registry : Registry} {tables : List MethodTable}
    (htables : registry.strategies = tables.map MethodTable.toStrategy) {method : String}
    {args : List Expr} {c : Call} :
    registry.resolve method args = .ok c ↔
      ∃ spec, MethodTable.firstSpec? tables method = some spec ∧
        spec.construct method args = .ok c := by
  rw [resolve_of_tables htables]
  cases MethodTable.firstSpec? tables method with
  | some spec => simp [Reading.Run.mapError_eq_ok]
  | none => simp

/-! ## Lists of what is allowed -/

/-- A member is a column of the map, a call one of a function of the tables, with as many arguments
    as the function takes. Nothing else is a name. -/
def Expr.Whitelisted (fields : List FieldMap.Exposure) (tables : List MethodTable) : Expr → Prop
  | member m => ∃ shown column, FieldMap.Current fields shown column ∧ m = .ofText column
  | call name args => ∃ t ∈ tables, ∃ entry ∈ t.entries,
      name = entry.spec.canonical ∧ entry.spec.Takes args.length
  | literal _ | binary _ _ _ | unary _ _ | collection _ => True

theorem Registry.grants_whitelisted (fields : List FieldMap.Exposure) {registry : Registry}
    {tables : List MethodTable}
    (htables : registry.strategies = tables.map MethodTable.toStrategy) :
    Resolvers.Grants ⟨(FieldMap.build fields).resolver, registry.resolver⟩
      (Expr.Whitelisted fields tables) where
  member hm := FieldMap.current_of_resolve hm
  method {name args c} hc := by
    obtain ⟨t, ht, hresolve⟩ := resolve_eq_ok htables hc
    obtain ⟨entry, hentry, hconstruct⟩ := MethodTable.resolve_eq_ok hresolve
    obtain ⟨hname, htakes, hperm⟩ := MethodSpec.construct_eq_ok hconstruct
    exact ⟨⟨t, ht, entry, hentry, hname, htakes⟩, fun arg harg => hperm.mem_iff.1 harg⟩
  literal _ := trivial
  binary _ _ _ := trivial
  unary _ _ := trivial
  collection _ := trivial

/-- With a strict map of fields and a registry of tables, every part of every returned tree is on
    the lists, at whatever depth it stands. -/
theorem Parser.whitelisted_of_strict (fields : List FieldMap.Exposure) (tables : List MethodTable)
    (registry : Registry) (htables : registry.strategies = tables.map MethodTable.toStrategy)
    (limits : Limits) (text : String) (e : Expr)
    (h : Yields ⟨⟨(FieldMap.build fields).resolver, registry.resolver⟩, limits⟩ text e) :
    ∀ node ∈ e.walk, node.Whitelisted fields tables :=
  h.all (Registry.grants_whitelisted fields htables)

/-- An argument of a call in a value list is a column, the latest one of its path, and the two
    arguments of the call have changed places. -/
theorem Parser.whitelisted_substringof :
    let fields : List FieldMap.Exposure := [.field "n", .mapped "s" "t", .mapped "n" "author/name"]
    let p : Parser :=
      ⟨⟨(FieldMap.build fields).resolver, Registry.standard.resolver⟩, .standard⟩
    let call : Expr := .call "contains" [.member ⟨["author", "name"]⟩, .member ⟨["t"]⟩]
    let e : Expr := .binary (.literal (.boolean true)) .isIn (.collection [call])
    Registry.standard.strategies = MethodTable.standardTables.map MethodTable.toStrategy ∧
      p.Yields "true in (substringof(s, n))" e ∧
      ∀ node ∈ e.walk, node.Whitelisted fields MethodTable.standardTables := by
  intro fields p call e
  have hyields : p.Yields "true in (substringof(s, n))" e := .filter rfl
  exact ⟨rfl, hyields, whitelisted_of_strict fields MethodTable.standardTables Registry.standard
    rfl Limits.standard _ e hyields⟩

end QueryExpr
