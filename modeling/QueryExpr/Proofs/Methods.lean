import QueryExpr.Proofs.Lexing
import QueryExpr.Resolve.Registry

/-!
# The canonical names of the standard methods

The canonical name of a function is also a name by which queries can call it: it stands for itself.

* `MethodTable.canonicalNames`: the names of the standard functions.
* `MethodTable.firstSpec?`: what a name stands for in the first of some tables that knows it.
* `MethodTable.standardSpec?`: what a name stands for in the standard tables.
* `MethodTable.standardSpec?_canonical_eq`: the canonical name stands for the function itself.
* `Registry.resolve_of_tables`: what a registry of tables makes of a call.
* `Registry.resolve_canonical`: a call by the canonical name is the call itself.
-/

namespace QueryExpr

/-- The same function, with the arguments as they are given. -/
def MethodSpec.unswapped (s : MethodSpec) : MethodSpec := { s with order := .asGiven }

namespace MethodTable

/-- The function that a name stands for in the first of the tables that knows the name. -/
def firstSpec? (tables : List MethodTable) (name : String) : Option MethodSpec :=
  tables.findSome? (·.get? name)

/-- The standard tables in the order in which they are asked. -/
def standardTables : List MethodTable := [string, math, date]

/-- The canonical names of the functions of the standard tables. -/
def canonicalNames : List String :=
  standardTables.flatMap fun t => t.entries.map fun entry => entry.spec.canonical

/-- The function that a name stands for in the first standard table that knows the name. -/
def standardSpec? (name : String) : Option MethodSpec := firstSpec? standardTables name

/-- The canonical name of a function of the standard tables stands for this function, with the
    arguments as they are given. -/
theorem standardSpec?_canonical_eq : ∀ t ∈ standardTables, ∀ entry ∈ t.entries,
    standardSpec? entry.spec.canonical = some entry.spec.unswapped := by
  decide +kernel

/-- A canonical name stands for the function that it is the name of, with the arguments as they are
    given. -/
theorem standardSpec?_canonical {name : String} (h : name ∈ canonicalNames) {spec : MethodSpec}
    (hspec : standardSpec? name = some spec) : spec.canonical = name ∧ spec.order = .asGiven := by
  obtain ⟨t, ht, hname⟩ := List.mem_flatMap.1 h
  obtain ⟨entry, hentry, rfl⟩ := List.mem_map.1 hname
  rw [standardSpec?_canonical_eq t ht entry hentry] at hspec
  cases hspec
  exact ⟨rfl, rfl⟩

/-- A canonical name is a name of queries, and no operator could be mistaken for it. -/
theorem nameText_canonical {name : String} (h : name ∈ canonicalNames) :
    Token.NameText name ∧ Token.constant? name = none ∧ name ≠ "not" ∧
      ¬Token.infinityWord <+: name.toList := by
  have hall : ∀ name ∈ canonicalNames, (name.toList.head?.any fun c =>
      !Text.isBlank c && Text.isNameStart c) = true ∧
      (Token.splitName name.toList).1 = name.toList ∧ Token.constant? name = none ∧
        name ≠ "not" ∧ ¬Token.infinityWord <+: name.toList := by decide +kernel
  obtain ⟨hstarts, hsplits, hconstant, hnot, hinfinity⟩ := hall name h
  refine ⟨⟨?_, hsplits⟩, hconstant, hnot, hinfinity⟩
  cases hname : name.toList with
  | nil =>
    rw [hname] at hstarts
    cases hstarts
  | cons c cs =>
    rw [hname] at hstarts
    exact ⟨c, cs, rfl, by simpa using hstarts⟩

end MethodTable

namespace Registry

open MethodTable (standardTables standardSpec?)

theorem standard_strategies :
    standard.strategies = standardTables.map MethodTable.toStrategy := rfl

/-- The first table that knows a name is the first strategy that recognizes it. -/
theorem find?_recognizes {tables : List MethodTable} {name : String} {spec : MethodSpec}
    (h : MethodTable.firstSpec? tables name = some spec) :
    ∃ t : MethodTable, t.get? name = some spec ∧
      (tables.map MethodTable.toStrategy).find? (·.recognizes name) = some t.toStrategy := by
  induction tables with
  | nil => cases h
  | cons t tables ih =>
    rw [MethodTable.firstSpec?, List.findSome?_cons] at h
    cases ht : t.get? name with
    | some spec' =>
      rw [ht] at h
      cases h
      exact ⟨t, ht, by simp [MethodTable.toStrategy, MethodTable.recognizes, ht]⟩
    | none =>
      rw [ht] at h
      obtain ⟨u, hu, hfind⟩ := ih h
      refine ⟨u, hu, ?_⟩
      simpa [MethodTable.toStrategy, MethodTable.recognizes, ht] using hfind

/-- If no table knows a name, no strategy recognizes it. -/
theorem find?_recognizes_eq_none {tables : List MethodTable} {name : String}
    (h : MethodTable.firstSpec? tables name = none) :
    (tables.map MethodTable.toStrategy).find? (·.recognizes name) = none := by
  rw [MethodTable.firstSpec?, List.findSome?_eq_none_iff] at h
  rw [List.find?_eq_none, List.forall_mem_map]
  intro t ht
  simp [MethodTable.toStrategy, MethodTable.recognizes, h t ht]

/-- A registry of tables lets the first table that knows a name resolve it. If there is none, it
    names all of its tables. -/
theorem resolve_of_tables {registry : Registry} {tables : List MethodTable}
    (htables : registry.strategies = tables.map MethodTable.toStrategy) (name : String)
    (args : List Expr) :
    registry.resolve name args =
      match MethodTable.firstSpec? tables name with
      | some spec => (spec.construct name args).mapError .resolution
      | none => .error (.unknown ⟨name, registry.names⟩) := by
  rw [resolve, choose?, htables]
  cases hspec : MethodTable.firstSpec? tables name with
  | some spec =>
    obtain ⟨t, ht, hfind⟩ := find?_recognizes hspec
    rw [hfind]
    show t.resolve name args = _
    rw [MethodTable.resolve, ht]
  | none => rw [find?_recognizes_eq_none hspec]

/-- The standard registry lets the first table that knows a name resolve it. -/
theorem resolve_standard {name : String} {spec : MethodSpec} (h : standardSpec? name = some spec)
    (args : List Expr) :
    standard.resolve name args = (spec.construct name args).mapError .resolution := by
  have hfirst : MethodTable.firstSpec? standardTables name = some spec := h
  rw [resolve_of_tables standard_strategies, hfirst]

/-- A call by a canonical name stands for itself if the number of arguments fits. -/
theorem resolve_canonical {name : String} (hname : name ∈ MethodTable.canonicalNames)
    {spec : MethodSpec} (hspec : standardSpec? name = some spec) {args : List Expr}
    (hcount : spec.accepts args.length = true) : standard.resolve name args = .ok ⟨name, args⟩ := by
  obtain ⟨hcanonical, horder⟩ := MethodTable.standardSpec?_canonical hname hspec
  rw [resolve_standard hspec, MethodSpec.construct, if_pos hcount, hcanonical, horder]
  rfl

end Registry

end QueryExpr
