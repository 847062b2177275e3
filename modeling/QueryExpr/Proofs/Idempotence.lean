import QueryExpr.Proofs.Shapes

/-!
# Resolving a call once more

What a standard method stands for is a call of a function by its canonical name, with as many
arguments as the function takes. The canonical name stands for the same function, and the arguments
do not change places a second time: the call stands for itself.

* `MethodSpec.construct_unswapped`: constructing a call once more changes nothing.
* `MethodTable.standardSpec?_of_standardSpec?`: what the canonical name of a function stands for.
* `Registry.resolve_resolve`: a call that has been resolved is resolved to itself.
-/

namespace QueryExpr

/-- The call that a function constructs is what it constructs of the arguments of this call, if
    they do not change places. -/
theorem MethodSpec.construct_unswapped {s : MethodSpec} {shown shown' : String} {args : List Expr}
    {c : Call} (h : s.construct shown args = .ok c) :
    s.unswapped.construct shown' c.args = .ok c := by
  unfold construct at h
  split at h
  next haccepts =>
    cases h
    have hlen := (s.order.arrange_perm args).length_eq
    have haccepts' : s.unswapped.accepts (s.order.arrange args).length = true := by
      rw [hlen]
      exact haccepts
    rw [construct, if_pos haccepts']
    rfl
  next => cases h

/-- Whatever a name stands for in the standard tables, the canonical name stands for the same
    function. -/
theorem MethodTable.standardSpec?_of_standardSpec? {name : String} {spec : MethodSpec}
    (h : standardSpec? name = some spec) : standardSpec? spec.canonical = some spec.unswapped := by
  obtain ⟨t, ht, hget⟩ := List.exists_of_findSome?_eq_some h
  obtain ⟨entry, hentry, rfl⟩ := Option.map_eq_some_iff.1 hget
  exact standardSpec?_canonical_eq t ht entry (List.mem_of_find?_eq_some hentry)

namespace Registry

/-- A call that the standard registry gives for a name, in whatever case and with whatever
    qualifier, has the arguments that it was asked with, none lost and none twice. It is resolved
    to itself, with its arguments in their places. -/
theorem resolve_resolve {name : String} {args : List Expr} {c : Call}
    (h : standard.resolve name args = .ok c) :
    c.args.Perm args ∧ standard.resolve c.name c.args = .ok c := by
  refine ⟨args_perm standard_strategies h, ?_⟩
  obtain ⟨spec, hspec, hconstruct⟩ := (resolve_eq_ok_iff standard_strategies).1 h
  rw [(MethodSpec.construct_eq_ok hconstruct).1]
  rw [resolve_eq_ok_iff standard_strategies]
  exact ⟨spec.unswapped, MethodTable.standardSpec?_of_standardSpec? hspec,
    MethodSpec.construct_unswapped hconstruct⟩

/-- The arguments of this call change places once, but not again. -/
theorem resolve_resolve_substringof :
    let a : Expr := .literal (.string "a")
    let b : Expr := .member ⟨["b"]⟩
    standard.resolve "String.SubstringOf" [a, b] = .ok ⟨"contains", [b, a]⟩ ∧
      [b, a].Perm [a, b] ∧ standard.resolve "contains" [b, a] = .ok ⟨"contains", [b, a]⟩ := by
  intro a b
  have hspec : MethodTable.standardSpec? "String.SubstringOf" =
      some (.swapped (.exact "contains" 2)) := by decide +kernel
  have h : standard.resolve "String.SubstringOf" [a, b] = .ok ⟨"contains", [b, a]⟩ := by
    rw [resolve_standard hspec]
    rfl
  exact ⟨h, resolve_resolve h⟩

end Registry

end QueryExpr
