import QueryExpr.Expr
import QueryExpr.Resolve.Fault
import QueryExpr.Resolve.Keyed
import QueryExpr.Resolve.Note

/-!
# Resolving members

A member resolver decides what a path in a query stands for (specification, 6). It is
a function of the path: the same text read twice gives equal trees (specification, 8),
so no answer depends on what was asked before.

* `MemberResolver.passThrough`: every path stands for itself.
* `FieldMap.resolver`: a path stands for the column it is mapped to.
* `MemberResolver.withholding`: refuses one path.
-/

namespace QueryExpr

/-- What a path in a query stands for, and the remarks on it (`MemberResolver`). A resolver has no
    state, so its answer to a path is the same whenever it is asked. -/
structure MemberResolver where
  resolve : List String → Except ResolutionError Member
  notes : List String → List Note

namespace MemberResolver

/-- Every path stands for itself (`PassThroughResolver`). -/
def passThrough : MemberResolver := ⟨fun path => .ok ⟨path⟩, fun _ => []⟩

/-- Refuses one path, given with its slashes, and leaves all others to `inner`. -/
def withholding (withheld reason : String) (inner : MemberResolver) : MemberResolver where
  resolve path :=
    if Text.Segments.join '/' path = withheld then .error ⟨withheld, .refused reason⟩
    else inner.resolve path
  notes path := if Text.Segments.join '/' path = withheld then [] else inner.notes path

end MemberResolver

/-- A path of queries and the column it stands for, both with slashes. -/
structure FieldMap.Field where
  shown : String
  column : String
  deriving DecidableEq, Repr

/-- The paths that queries may use (`FieldMapResolver`). -/
structure FieldMap where
  fields : List FieldMap.Field
  /-- Whether a path without a column stands for itself. -/
  lenient : Bool
  deriving DecidableEq, Repr

namespace FieldMap

/-- A map of no fields (`new`). -/
def empty (lenient : Bool) : FieldMap := ⟨[], lenient⟩

/-- Lets `shown` stand for `column`, whatever it stood for (`alias`). -/
def expose (m : FieldMap) (shown column : String) : FieldMap :=
  { m with fields := Keyed.put Field.shown ⟨shown, column⟩ m.fields }

/-- Lets `name` stand for itself (`field`). -/
def field (m : FieldMap) (name : String) : FieldMap := m.expose name name

/-- The number of paths (`len`). -/
def size (m : FieldMap) : Nat := m.fields.length

/-- The column that a path stands for. -/
def column? (m : FieldMap) (shown : String) : Option String :=
  (Keyed.get? Field.shown shown m.fields).map Field.column

/-- The resolver of the map (`resolve_member`). -/
def resolver (m : FieldMap) : MemberResolver where
  resolve path :=
    let shown := Text.Segments.join '/' path
    match m.column? shown with
    | some column => .ok (Member.ofText column)
    | none => if m.lenient then .ok ⟨path⟩ else .error ⟨shown, .unknownMember⟩
  notes path :=
    let shown := Text.Segments.join '/' path
    if m.lenient && (m.column? shown).isNone then [.passedThrough shown] else []

theorem column?_expose_self (m : FieldMap) (shown column : String) :
    (m.expose shown column).column? shown = some column := by
  have h := Keyed.get?_put_self Field.shown ⟨shown, column⟩ m.fields
  simp only at h
  simp [column?, expose, h]

theorem column?_expose_of_ne (m : FieldMap) {shown other : String} (column : String)
    (h : shown ≠ other) : (m.expose shown column).column? other = m.column? other := by
  simp [column?, expose, Keyed.get?_put_of_ne Field.shown (a := ⟨shown, column⟩) h]

end FieldMap

end QueryExpr
