import QueryExpr.Expr.Walk
import QueryExpr.Proofs.Answers
import QueryExpr.Proofs.Trees

/-!
# The order of requests

Where every name stands for itself, a reading that succeeds has made the requests of the trees
that it gives, from left to right, and those of arguments before that of their call.

* `Expr.requests`: the requests of a tree in this order.
* `Expr.requests_perm_walk`: they are those of its members and calls, one for each.
* `Reads.requests_eq`: what is read of an expression is asked in this order.
* `Parser.asksInOrder_of_transparent`: so are filters, orderings and selections.
-/

namespace QueryExpr

open Reading (Request Run)

namespace Expr

/-- The request for a member or a call. -/
def request? : Expr → Option Request
  | member m => some (.member m.path)
  | call name args => some (.method name args)
  | _ => none

/-- The requests for the members and calls of an expression: operands from left to right, arguments
    before their call. -/
def requests : Expr → List Request
  | member m => [.member m.path]
  | literal _ => []
  | call name args => requestsAll args ++ [.method name args]
  | binary left _ right => left.requests ++ right.requests
  | unary _ inner => inner.requests
  | collection items => requestsAll items
where
  /-- The requests of several expressions, one after the other. -/
  requestsAll : List Expr → List Request
    | [] => []
    | e :: es => e.requests ++ requestsAll es

mutual

/-- Each member and each call of an expression has one request. -/
theorem requests_perm_walk (e : Expr) : e.requests.Perm (e.walk.filterMap request?) := by
  cases e with
  | member m => exact .refl _
  | literal l => exact .refl _
  | call name args =>
    rw [requests, walk, List.filterMap_cons_some (f := request?) rfl]
    exact (List.perm_append_singleton _ _).trans ((requestsAll_perm_walkAll args).cons _)
  | binary left op right =>
    rw [requests, walk, List.filterMap_cons_none rfl, List.filterMap_append]
    exact (requests_perm_walk left).append (requests_perm_walk right)
  | unary op inner =>
    rw [requests, walk, List.filterMap_cons_none rfl]
    exact requests_perm_walk inner
  | collection items =>
    rw [requests, walk, List.filterMap_cons_none rfl]
    exact requestsAll_perm_walkAll items

theorem requestsAll_perm_walkAll (es : List Expr) :
    (requests.requestsAll es).Perm ((walk.walkAll es).filterMap request?) := by
  cases es with
  | nil => exact .refl _
  | cons e es =>
    rw [requests.requestsAll, walk.walkAll, List.filterMap_append]
    exact (requests_perm_walk e).append (requestsAll_perm_walkAll es)

end

/-- Each member and each call of several expressions has one request. -/
theorem flatMap_requests_perm (es : List Expr) :
    (es.flatMap requests).Perm ((es.flatMap walk).filterMap request?) := by
  rw [List.filterMap_flatMap]
  induction es with
  | nil => exact .refl _
  | cons e es ih =>
    rw [List.flatMap_cons, List.flatMap_cons]
    exact (requests_perm_walk e).append ih

end Expr

namespace Reading

/-! ## Expressions -/

/-- The requests that have been made when a part of the reader begins. -/
def Part.before : Part → List Request
  | .chain _ left => left.requests
  | .expression _ | .operand | .values | .items => []

/-- Where every name stands for itself, the requests made are those of the tree. A chain makes
    those that its left operand has not. -/
theorem Reads.requests_eq {r : Resolvers} (hr : r.Transparent) {part : Part}
    {ts rest : List Token} {qs : List Request} {e : Expr} (h : Reads r part ts qs e rest) :
    part.before ++ qs = e.requests := by
  induction h with
  | expression _ _ ihf ihm =>
    simp only [Part.before, List.nil_append] at ihf ⊢
    rw [ihf]
    exact ihm
  | unary _ _ ih =>
    rw [Expr.requests, ← ih]
    rfl
  | literal _ _ | noValues _ _ => rfl
  | parens _ _ _ ih | values _ _ ih => exact ih
  | call _ _ _ hc ih =>
    rw [hr.method] at hc
    cases hc
    simp only [Part.before, List.nil_append] at ih ⊢
    rw [ih]
    rfl
  | member _ _ _ hm =>
    rw [hr.member] at hm
    cases hm
    rfl
  | stop _ => exact List.append_nil _
  | binary _ _ _ _ iho ihm | membership _ _ _ _ iho ihm =>
    simp only [Part.before, List.nil_append] at iho
    -- with those of its right operand, the left operand's requests are those of the next one
    rw [iho, Part.before, ← List.append_assoc]
    exact ihm
  | lastItem _ _ ih =>
    simp only [Part.before, List.nil_append] at ih ⊢
    rw [ih, Expr.requests, Expr.requests.requestsAll, Expr.requests.requestsAll, List.append_nil]
  | nextItem _ _ _ ihi ihm =>
    simp only [Part.before, List.nil_append] at ihi ihm ⊢
    rw [ihi, ihm]
    rfl

variable {r : Resolvers}

theorem ReadFrom.requests_eq (hr : r.Transparent) {qs : List Request} {e : Expr}
    (h : ReadFrom r qs e) : qs = e.requests := by
  obtain ⟨ts, rest, hread⟩ := h
  exact hread.requests_eq hr

/-! ## Filters, orderings and selections -/

theorem filter_gives_requests (hr : r.Transparent) (budget : Nat) (ts : List Token) :
    (filter r budget ts).Gives fun qs e? => qs = e?.toList.flatMap Expr.requests :=
  (filter_gives r budget ts).mono fun _ _ h =>
    (h.mono fun _ _ hread => hread.requests_eq hr).eq_flatMap

theorem orderItem_gives_requests (hr : r.Transparent) (budget : Nat) (ts : List Token) :
    (orderItem r budget ts).Gives fun qs x => qs = x.1.expr.requests :=
  (orderItem_gives r budget ts).mono fun _ _ h => h.requests_eq hr

theorem selectItem_gives_requests (hr : r.Transparent) (budget : Nat) (ts : List Token) :
    (selectItem r budget ts).Gives fun qs x => qs = x.1.expr.requests :=
  (selectItem_gives r budget ts).mono fun _ _ h => h.requests_eq hr

theorem wholeList_gives_requests {α : Type} {item : Reader α} {requests : α → List Request}
    (hitem : ∀ ts, (item ts).Gives fun qs x => qs = requests x.1) (ts : List Token) :
    (wholeList item ts).Gives fun qs as => qs = as.flatMap requests :=
  (wholeList_gives hitem ts).mono fun _ _ h => h.eq_flatMap

end Reading

/-! ## Texts -/

/-- The requests made are those of the trees, one for each member and each call. -/
structure Report.AsksInOrder {α : Type} (report : Report α) (trees : List Expr) : Prop where
  order : report.requests = trees.flatMap Expr.requests
  once : report.requests.Perm ((trees.flatMap Expr.walk).filterMap Expr.request?)

namespace Parser

/-- A report tells the requests of the run over the tokens. -/
theorem report_asksInOrder {α : Type} {p : Parser} {mode : Reading.Mode}
    {read : Resolvers → Nat → List Token → Run α} {text : String} {trees : α → List Expr}
    (hread : ∀ ts, (read p.resolvers p.limits.maxDepth ts).Gives fun qs a =>
      qs = (trees a).flatMap Expr.requests) {a : α}
    (ha : (p.report mode read text).outcome = .ok a) :
    (p.report mode read text).AsksInOrder (trees a) := by
  have horder : (p.report mode read text).requests = (trees a).flatMap Expr.requests :=
    report_gives hread ha
  refine ⟨horder, ?_⟩
  rw [horder]
  exact Expr.flatMap_requests_perm (trees a)

/-- Where every name stands for itself, whatever is read of a text is asked in the order of the
    text, each member and each call once. -/
theorem asksInOrder_of_transparent (p : Parser) (hp : p.resolvers.Transparent) (text : String) :
    (∀ e?, (p.parse text).outcome = .ok e? → (p.parse text).AsksInOrder e?.toList) ∧
    (∀ items, (p.parseOrderBy text).outcome = .ok items →
      (p.parseOrderBy text).AsksInOrder (items.map OrderItem.expr)) ∧
    ∀ items, (p.parseSelect text).outcome = .ok items →
      (p.parseSelect text).AsksInOrder (items.map SelectItem.expr) := by
  refine ⟨fun e? => ?_, fun items => ?_, fun items => ?_⟩
  · exact report_asksInOrder (Reading.filter_gives_requests hp _)
  · refine report_asksInOrder fun ts => ?_
    simp only [List.flatMap_map]
    exact Reading.wholeList_gives_requests (Reading.orderItem_gives_requests hp _) ts
  · refine report_asksInOrder fun ts => ?_
    simp only [List.flatMap_map]
    exact Reading.wholeList_gives_requests (Reading.selectItem_gives_requests hp _) ts

/-- A call is asked for behind its argument and in front of what follows it. -/
theorem asksInOrder_call_eq_member :
    let p : Parser := ⟨.transparent, .standard⟩
    let e : Expr := .eq (.call "f" [.member ⟨["a"]⟩]) (.member ⟨["b"]⟩)
    p.resolvers.Transparent ∧ (p.parse "f(a) eq b").outcome = .ok (some e) ∧
      (p.parse "f(a) eq b").AsksInOrder [e] :=
  ⟨Resolvers.transparent_transparent, rfl,
    (asksInOrder_of_transparent _ Resolvers.transparent_transparent _).1 (some _) rfl⟩

end Parser

end QueryExpr
