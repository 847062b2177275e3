import QueryExpr.Proofs.Requests
import QueryExpr.Proofs.Shapes

/-!
# The members of what is read

Where every path stands for itself, the members of a tree are those that were asked for while it
was read. A method may change the places of the arguments of its call, and with them those of the
members in them; if none does, the members stand in the order in which they were asked for.

* `Expr.paths`: the paths of the members of a tree, in order.
* `Gathers`: relations of lists that go through their parts, such as being equal or the same up to
  order.
* `Reads.paths_gathered`: what is read has the members asked for, up to what methods do.
* `Parser.findsMembers_of_tables`: so have the filters, orderings and selections of a text.
-/

namespace QueryExpr

open Reading (Request Run)

/-! ## Paths -/

namespace Expr

theorem walkAll_eq_flatMap (es : List Expr) : walk.walkAll es = es.flatMap walk := by
  induction es with
  | nil => rfl
  | cons e es ih => rw [walk.walkAll, ih, List.flatMap_cons]

/-- The paths of the members of an expression, in the order of the expression. -/
def paths (e : Expr) : List (List String) := e.members.map Member.path

theorem paths_flatMap_walk (es : List Expr) :
    ((es.flatMap walk).filterMap member?).map Member.path = es.flatMap paths := by
  rw [List.filterMap_flatMap, List.map_flatMap]
  rfl

@[simp] theorem paths_member (m : Member) : (member m).paths = [m.path] := rfl

@[simp] theorem paths_literal (l : Literal) : (literal l).paths = [] := rfl

@[simp] theorem paths_call (name : String) (args : List Expr) :
    (call name args).paths = args.flatMap paths := by
  rw [← paths_flatMap_walk, ← walkAll_eq_flatMap]
  rfl

@[simp] theorem paths_binary (left : Expr) (op : Operator) (right : Expr) :
    (binary left op right).paths = left.paths ++ right.paths := by
  rw [paths, members, walk, List.filterMap_cons_none rfl, List.filterMap_append, List.map_append]
  rfl

@[simp] theorem paths_unary (op : Operator) (inner : Expr) :
    (unary op inner).paths = inner.paths := rfl

@[simp] theorem paths_collection (items : List Expr) :
    (collection items).paths = items.flatMap paths := by
  rw [← paths_flatMap_walk, ← walkAll_eq_flatMap]
  rfl

end Expr

/-- The path that is asked for, if it is that of a member. -/
def Reading.Request.path? : Request → Option (List String)
  | .member path => some path
  | .method _ _ => none

/-- The paths that are asked for, in order. -/
def Reading.Request.pathsOf (qs : List Request) : List (List String) := qs.filterMap Request.path?

@[simp] theorem Reading.Request.pathsOf_append (qs qs' : List Request) :
    pathsOf (qs ++ qs') = pathsOf qs ++ pathsOf qs' := List.filterMap_append

open Reading.Request (pathsOf pathsOf_append)

/-- What is related to the parts of a list, put together, is related to the list. -/
structure Gathers {α : Type} (R : List α → List α → Prop) : Prop where
  refl : ∀ as, R as as
  trans : ∀ {as bs cs}, R as bs → R bs cs → R as cs
  append : ∀ {as bs cs ds}, R as bs → R cs ds → R (as ++ cs) (bs ++ ds)

theorem gathers_perm {α : Type} : Gathers (List.Perm (α := α)) where
  refl := List.Perm.refl
  trans := List.Perm.trans
  append := List.Perm.append

theorem gathers_eq {α : Type} : Gathers (fun as bs : List α => as = bs) where
  refl _ := rfl
  trans := Eq.trans
  append h h' := by rw [h, h']

namespace Reading

/-! ## Expressions -/

/-- The members of what a part of the reader is given. -/
def Part.paths : Part → List (List String)
  | .chain _ left => left.paths
  | .expression _ | .operand | .values | .items => []

section

variable {R : List (List String) → List (List String) → Prop} (hR : Gathers R) {r : Resolvers}
  (hmembers : ∀ path, r.members.resolve path = .ok ⟨path⟩)

/-- The members of the arguments of the calls that are asked for, before and after they are
    resolved, are related. -/
def KeepsPaths (R : List (List String) → List (List String) → Prop) (r : Resolvers)
    (qs : List Request) : Prop :=
  ∀ name args c, .method name args ∈ qs → r.methods.resolve name args = .ok c →
    R (c.args.flatMap Expr.paths) (args.flatMap Expr.paths)

theorem keepsPaths_append {qs qs' : List Request} :
    KeepsPaths R r (qs ++ qs') ↔ KeepsPaths R r qs ∧ KeepsPaths R r qs' := by
  constructor
  · intro h
    exact ⟨fun name args c hq => h name args c (List.mem_append_left _ hq),
      fun name args c hq => h name args c (List.mem_append_right _ hq)⟩
  · rintro ⟨h, h'⟩ name args c hq
    rcases List.mem_append.1 hq with hq | hq
    · exact h name args c hq
    · exact h' name args c hq

include hR hmembers

/-- The members of a tree that is read are related to those that were asked for. A chain asks for
    those that its left operand does not have. -/
theorem Reads.paths_gathered {part : Part} {ts rest : List Token} {qs : List Request} {e : Expr}
    (h : Reads r part ts qs e rest) (hqs : KeepsPaths R r qs) :
    R e.paths (part.paths ++ pathsOf qs) := by
  induction h with
  | expression _ _ ihf ihm =>
    obtain ⟨hfirst, hmore⟩ := keepsPaths_append.1 hqs
    simp only [Part.paths, List.nil_append, pathsOf_append] at ihf ⊢
    exact hR.trans (ihm hmore) (hR.append (ihf hfirst) (hR.refl _))
  | unary _ _ ih =>
    rw [Expr.paths_unary]
    exact ih hqs
  | literal _ _ =>
    rw [Expr.paths_literal]
    exact hR.refl []
  | noValues _ _ => exact hR.refl []
  | parens _ _ _ ih | values _ _ ih => exact ih hqs
  | @call _ word _ _ args c _ _ _ _ hc ih =>
    obtain ⟨hlist, hcall⟩ := keepsPaths_append.1 hqs
    have hargs := ih hlist
    have hpaths := hcall word args c (List.mem_singleton_self _) hc
    rw [Expr.paths_collection] at hargs
    rw [Call.toExpr, Expr.paths_call, pathsOf_append]
    show R _ (pathsOf _ ++ [])
    rw [List.append_nil]
    exact hR.trans hpaths hargs
  | member _ _ _ hm =>
    rw [hmembers] at hm
    cases hm
    rw [Expr.paths_member]
    exact hR.refl _
  | stop _ =>
    show R _ (_ ++ [])
    rw [List.append_nil]
    exact hR.refl _
  | binary _ _ _ _ iho ihm | membership _ _ _ _ iho ihm =>
    obtain ⟨hoperand, hmore⟩ := keepsPaths_append.1 hqs
    simp only [Part.paths, List.nil_append, Expr.paths_binary] at iho ihm ⊢
    rw [pathsOf_append, ← List.append_assoc]
    refine hR.trans (ihm hmore) (hR.append ?_ (hR.refl _))
    -- what the right operand asks for comes behind the members of the left one
    exact hR.append (hR.refl _) (iho hoperand)
  | lastItem _ _ ih =>
    rw [Expr.paths_collection, List.flatMap_singleton]
    exact ih hqs
  | nextItem _ _ _ ihi ihm =>
    obtain ⟨hitem, hmore⟩ := keepsPaths_append.1 hqs
    simp only [Part.paths, List.nil_append, Expr.paths_collection] at ihi ihm ⊢
    rw [List.flatMap_cons, pathsOf_append]
    exact hR.append (ihi hitem) (ihm hmore)

/-- The members of trees that are read one after the other are related to those asked for. -/
theorem InTurn.paths_gathered {α : Type} {tree : α → Expr} {qs : List Request} {as : List α}
    (h : InTurn (fun qs a => ReadFrom r qs (tree a)) qs as) (hqs : KeepsPaths R r qs) :
    R ((as.map tree).flatMap Expr.paths) (pathsOf qs) := by
  induction h with
  | nil => exact hR.refl []
  | cons first _ ih =>
    obtain ⟨hfirst, hothers⟩ := keepsPaths_append.1 hqs
    obtain ⟨ts, rest, hread⟩ := first
    rw [List.map_cons, List.flatMap_cons, pathsOf_append]
    exact hR.append (hread.paths_gathered hR hmembers hfirst) (ih hothers)

end

end Reading

/-! ## Tables of methods -/

/-- A request for a method whose function takes its arguments in the order in which they are
    given. -/
def Reading.Request.Unswapped (tables : List MethodTable) : Request → Prop
  | .member _ => True
  | .method name _ => ∀ spec ∈ MethodTable.firstSpec? tables name, spec.order = .asGiven

namespace Registry

variable {registry : Registry} {tables : List MethodTable}
  (htables : registry.strategies = tables.map MethodTable.toStrategy) (members : MemberResolver)

include htables

theorem keepsPaths_perm (qs : List Request) :
    Reading.KeepsPaths List.Perm ⟨members, registry.resolver⟩ qs :=
  fun _ _ _ _ hc => (args_perm htables hc).flatMap_right Expr.paths

/-- A call whose arguments are not swapped has those it was asked with. -/
theorem args_eq_of_unswapped {name : String} {args : List Expr} {c : Call}
    (hq : (Request.method name args).Unswapped tables) (hc : registry.resolve name args = .ok c) :
    c.args = args := by
  obtain ⟨spec, hspec, hconstruct⟩ := (resolve_eq_ok_iff htables).1 hc
  have horder := hq spec hspec
  rw [MethodSpec.construct] at hconstruct
  split at hconstruct
  · cases hconstruct
    rw [horder]
    rfl
  · cases hconstruct

theorem keepsPaths_eq {qs : List Request} (hqs : ∀ q ∈ qs, q.Unswapped tables) :
    Reading.KeepsPaths (fun as bs => as = bs) ⟨members, registry.resolver⟩ qs :=
  fun _ _ _ hq hc => by rw [args_eq_of_unswapped htables (hqs _ hq) hc]

end Registry

/-! ## Texts -/

/-- The members of the trees are those that were asked for, each as often as it was. If no call had
    its arguments swapped, they stand in the order in which they were asked for. -/
structure Report.FindsMembers {α : Type} (report : Report α) (tables : List MethodTable)
    (trees : List Expr) : Prop where
  perm : (trees.flatMap Expr.paths).Perm (pathsOf report.requests)
  eq : (∀ q ∈ report.requests, q.Unswapped tables) →
    trees.flatMap Expr.paths = pathsOf report.requests

namespace Parser

section

variable (tables : List MethodTable) (registry : Registry)
  (htables : registry.strategies = tables.map MethodTable.toStrategy)

include htables

/-- A report tells the requests of the run over the tokens. -/
theorem report_findsMembers {p : Parser} (hp : p.resolvers = ⟨.passThrough, registry.resolver⟩)
    {α β : Type} {mode : Reading.Mode} {read : Resolvers → Nat → List Token → Run α} {text : String}
    (items : α → List β) (tree : β → Expr)
    (hread : ∀ ts, (read p.resolvers p.limits.maxDepth ts).Gives fun qs a =>
      Reading.InTurn (fun qs b => Reading.ReadFrom p.resolvers qs (tree b)) qs (items a)) {a : α}
    (ha : (p.report mode read text).outcome = .ok a) :
    (p.report mode read text).FindsMembers tables ((items a).map tree) := by
  have hturn := report_gives hread ha
  rw [hp] at hturn
  have hmembers : ∀ path, MemberResolver.passThrough.resolve path = .ok ⟨path⟩ := fun _ => rfl
  constructor
  · exact hturn.paths_gathered gathers_perm hmembers (Registry.keepsPaths_perm htables _ _)
  · intro hqs
    exact hturn.paths_gathered gathers_eq hmembers (Registry.keepsPaths_eq htables _ hqs)

/-- Where every path stands for itself, a registry of tables neither loses nor adds a member,
    whatever is read of a text. -/
theorem findsMembers_of_tables (limits : Limits) (text : String) :
    let p : Parser := ⟨⟨.passThrough, registry.resolver⟩, limits⟩
    (∀ e?, (p.parse text).outcome = .ok e? →
      (p.parse text).FindsMembers tables e?.toList) ∧
    (∀ items, (p.parseOrderBy text).outcome = .ok items →
      (p.parseOrderBy text).FindsMembers tables (items.map OrderItem.expr)) ∧
    ∀ items, (p.parseSelect text).outcome = .ok items →
      (p.parseSelect text).FindsMembers tables (items.map SelectItem.expr) := by
  intro p
  refine ⟨fun e? he => ?_, fun items => ?_, fun items => ?_⟩
  · have hread := report_findsMembers tables registry htables (p := p) rfl Option.toList id
      (Reading.filter_gives _ _) he
    rwa [List.map_id] at hread
  · exact report_findsMembers tables registry htables (p := p) rfl id OrderItem.expr
      (Reading.wholeList_gives (Reading.orderItem_gives _ _))
  · exact report_findsMembers tables registry htables (p := p) rfl id SelectItem.expr
      (Reading.wholeList_gives (Reading.selectItem_gives _ _))

end

/-- The arguments of the first text change places, and their members with them; those of the second
    one do not. -/
theorem findsMembers_standard :
    let tables := MethodTable.standardTables
    let a : Expr := .member ⟨["a"]⟩
    let b : Expr := .member ⟨["b"]⟩
    let swapped : Expr := .eq (.call "contains" [b, a]) a
    let unswapped : Expr := .eq (.call "contains" [a, b]) a
    let first := standard.parse "substringof(a, b) eq a"
    let second := standard.parse "contains(a, b) eq a"
    Registry.standard.strategies = tables.map MethodTable.toStrategy ∧
      first.outcome = .ok (some swapped) ∧ swapped.paths = [["b"], ["a"], ["a"]] ∧
      pathsOf first.requests = [["a"], ["b"], ["a"]] ∧ first.FindsMembers tables [swapped] ∧
      second.outcome = .ok (some unswapped) ∧ (∀ q ∈ second.requests, q.Unswapped tables) ∧
      [unswapped].flatMap Expr.paths = pathsOf second.requests := by
  intro tables a b swapped unswapped first second
  have htables : Registry.standard.strategies = tables.map MethodTable.toStrategy := rfl
  have hfirst : first.outcome = .ok (some swapped) := rfl
  have hsecond : second.outcome = .ok (some unswapped) := rfl
  have hrequests : second.requests =
      [.member ["a"], .member ["b"], .method "contains" [a, b], .member ["a"]] := rfl
  have hspec : MethodTable.firstSpec? tables "contains" = some (.exact "contains" 2) := by
    decide +kernel
  have hunswapped : ∀ q ∈ second.requests, q.Unswapped tables := by
    rw [hrequests]
    simp [Request.Unswapped, hspec, MethodSpec.exact, MethodSpec.between]
  exact ⟨htables, hfirst, rfl, rfl,
    (findsMembers_of_tables tables _ htables .standard _).1 _ hfirst, hsecond, hunswapped,
    ((findsMembers_of_tables tables _ htables .standard _).1 _ hsecond).eq hunswapped⟩

end Parser

end QueryExpr
