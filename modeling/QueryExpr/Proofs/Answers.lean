import QueryExpr.Parser

/-!
# How resolvers answer

* `Resolvers.Transparent`: every name stands for itself.
* `Resolvers.Accepting`: nothing is refused.
* `Resolvers.refusal?`: the error with which a request is refused.
-/

namespace QueryExpr

open Reading (Request Fault)

namespace Resolvers

/-- A path stands for the member of that path, a call for the call of that name with those
    arguments. -/
structure Transparent (r : Resolvers) : Prop where
  member : ∀ path, r.members.resolve path = .ok ⟨path⟩
  method : ∀ name args, r.methods.resolve name args = .ok ⟨name, args⟩

/-- No path and no call is refused. -/
structure Accepting (r : Resolvers) : Prop where
  member : ∀ path e, r.members.resolve path ≠ .error e
  method : ∀ name args e, r.methods.resolve name args ≠ .error e

theorem Transparent.accepting {r : Resolvers} (h : r.Transparent) : r.Accepting where
  member path e := by simp [h.member]
  method name args e := by simp [h.method]

section

variable {r : Resolvers} (h : r.Accepting)

include h

theorem Accepting.member_ok (path : List String) : ∃ m, r.members.resolve path = .ok m := by
  cases hm : r.members.resolve path with
  | ok m => exact ⟨m, rfl⟩
  | error e => exact absurd hm (h.member path e)

theorem Accepting.method_ok (name : String) (args : List Expr) :
    ∃ c, r.methods.resolve name args = .ok c := by
  cases hc : r.methods.resolve name args with
  | ok c => exact ⟨c, rfl⟩
  | error e => exact absurd hc (h.method name args e)

end

/-- Resolvers by which every name stands for itself, without remarks. -/
def transparent : Resolvers := ⟨.passThrough, ⟨fun name args => .ok ⟨name, args⟩, fun _ _ => []⟩⟩

theorem transparent_transparent : transparent.Transparent := ⟨fun _ => rfl, fun _ _ => rfl⟩

/-- The fault with which a request is refused, if it is. -/
def fault? (r : Resolvers) : Request → Option Fault
  | .member path =>
    match r.members.resolve path with
    | .ok _ => none
    | .error e => some (.member e)
  | .method name args =>
    match r.methods.resolve name args with
    | .ok _ => none
    | .error e => some (.method e)

/-- The error with which a request is refused, if it is. -/
def refusal? (r : Resolvers) : Request → Option ParseError
  | .member path =>
    match r.members.resolve path with
    | .ok _ => none
    | .error e => some (.resolution e)
  | .method name args =>
    match r.methods.resolve name args with
    | .ok _ => none
    | .error e => some (.ofMethodError e)

/-- The error that a refusal is does not depend on the text. -/
theorem refusal?_eq_map (r : Resolvers) (q : Request) (text : String) (count limit : Nat) :
    r.refusal? q = (r.fault? q).map (Fault.toError text count limit) := by
  cases q with
  | member path =>
    simp only [refusal?, fault?]
    cases r.members.resolve path <;> rfl
  | method name args =>
    simp only [refusal?, fault?]
    cases r.methods.resolve name args <;> rfl

end Resolvers

theorem Registry.resolver_resolve (r : Registry) : r.resolver.resolve = r.resolve := rfl

theorem Parser.standard_methods :
    Parser.standard.resolvers.methods = Registry.standard.resolver := rfl

end QueryExpr
