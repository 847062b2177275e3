import QueryExpr.Proofs.Items
import QueryExpr.Proofs.Pieces

/-!
# Lists of items put together

An ordering or a selection can be continued behind a comma by another one, and each has its items
and its requests as if it stood alone. A filter is an ordering and a selection of one item.

* `Given`: what a reader gives, as rules.
* `Joins`: readers of items of which lists can be put together.
* `ReadsList.append`: a list, a comma and another list are a list.
* `Parser.Concatenates`: texts with commas between them are read as their items together.
* `Parser.lists_of_texts`: orderings and selections are put together, also of filters.
-/

namespace QueryExpr

namespace Reading

/-! ## Items in front of closed tokens -/

section

variable {r : Resolvers} {budget : Nat} {behind : List Token} (hbehind : Closed behind)

include hbehind

theorem Closed.word?_append (ts : List Token) :
    Reading.word? (ts ++ behind) = Reading.word? ts := by
  cases ts with
  | nil => exact hbehind.word?
  | cons t ts => rfl

theorem itemName_extends : Extends behind itemName itemName := by
  intro ts
  rw [itemName, itemName, hbehind.word?_append]
  split
  next word hword =>
    obtain ⟨t, ts, rfl, -⟩ := word?_eq_some.1 hword
    split
    · exact Extends.pure _ ts
    · exact .missing
  next => exact .missing

theorem orderItem_extends : Extends behind (orderItem r budget) (orderItem r budget) := by
  intro ts
  refine (expression_extends hbehind (Nat.le_refl _) 0 ts).bind ?_
  rintro ⟨e, ts₁⟩ _ - rfl
  dsimp only
  rw [hbehind.word?_append]
  split
  next direction hdirection =>
    obtain ⟨word, hword, -⟩ := Option.bind_eq_some_iff.1 hdirection
    obtain ⟨t, ts₁, rfl, -⟩ := word?_eq_some.1 hword
    exact Extends.pure _ ts₁
  next => exact Extends.pure _ ts₁

theorem selectItem_extends : Extends behind (selectItem r budget) (selectItem r budget) := by
  intro ts
  refine (expression_extends hbehind (Nat.le_refl _) 0 ts).bind ?_
  rintro ⟨e, ts₁⟩ _ - rfl
  dsimp only
  rw [hbehind.word?_append]
  split
  next has =>
    obtain ⟨t, ts₁, rfl, -⟩ := word?_eq_some.1 has
    refine (itemName_extends hbehind ts₁).bind ?_
    rintro ⟨name, ts₂⟩ _ - rfl
    exact Extends.pure _ ts₂
  next => exact Extends.pure _ ts₁

end

/-! ## Lists of what a reader gives -/

variable {α : Type}

/-- What the reader gives, as rules. -/
def Given (item : Reader α) : Rules α := fun ts qs a rest => (item ts).Returns qs (a, rest)

/-- A reader of items of which lists can be put together: an item takes a token, is the same in
    front of closed tokens, and a list of items is the same in tokens of the same kinds. -/
structure Joins (item : Reader α) : Prop where
  length_lt : ∀ ts qs a rest, Given item ts qs a rest → rest.length < ts.length
  ahead : ∀ behind, Closed behind → Extends behind item item
  sameKind : ∀ ts ts' qs as, List.Forall₂ SameKind ts ts' → (wholeList item ts).Returns qs as →
    (wholeList item ts').Returns qs as

/-- Items that follow rules take tokens, and those in tokens of the same kinds are related. -/
theorem Joins.of_readBy {r : Resolvers} {item : Nat → Reader α} {rules : Rules α}
    (hitem : ReadBy item rules) {budget : Nat}
    (ahead : ∀ behind, Closed behind → Extends behind (item budget) (item budget))
    {R : α → α → Prop} (hR : ∀ a b, R a b → a = b)
    (hkinds : (Run.Same.lockstep r).Readers R (item budget) (item budget)) :
    Joins (item budget) where
  length_lt ts qs a rest h := hitem.length_lt (hitem.gives budget ts _ h.outcome)
  ahead := ahead
  sameKind ts ts' qs as hts h := by
    have hsame := Lockstep.wholeList hkinds hts
    obtain ⟨bs, hbs, habs⟩ := Run.Same.repeats hsame qs as h
    rwa [eq_of_forall₂ hR habs]

theorem orderItem_joins (r : Resolvers) (budget : Nat) : Joins (orderItem r budget) := by
  refine .of_readBy (orderItem_readBy r) (fun _ => orderItem_extends) ?_
    (Lockstep.orderItem ((Run.Same.lockstep r).expression budget 0))
  rintro ⟨e, direction⟩ ⟨_, _⟩ ⟨rfl, rfl⟩
  rfl

theorem selectItem_joins (r : Resolvers) (budget : Nat) : Joins (selectItem r budget) := by
  refine .of_readBy (selectItem_readBy r) (fun _ => selectItem_extends) ?_
    (Lockstep.selectItem ((Run.Same.lockstep r).expression budget 0))
  rintro ⟨e, name⟩ ⟨_, _⟩ ⟨rfl, rfl⟩
  rfl

section

variable {item : Reader α} (hitem : Joins item)

include hitem

/-- The reader itself reads what it gives. -/
theorem Joins.readBy : ReadBy (fun _ => item) (Given item) where
  gives _ _ _ h := ⟨h, rfl⟩
  returns h _ _ := h.outcome
  length_lt h := hitem.length_lt _ _ _ _ h

theorem ReadsList.separated_returns {ts rest : List Token} {qs : List Request} {as : List α}
    (h : ReadsList (Given item) ts qs as rest) {limit : Nat} (hlimit : ts.length < limit) :
    (separated item limit ts).Returns qs (as, rest) := by
  induction h generalizing limit with
  | last h hrest =>
    cases limit with
    | zero => omega
    | succ limit =>
      refine Run.Returns.bind_silent h ?_
      dsimp only
      rw [if_neg (by rw [hrest]; decide)]
      exact .pure _
  | next h hu _ ih =>
    have hlt := hitem.length_lt _ _ _ _ h
    rw [List.length_cons] at hlt
    cases limit with
    | zero => omega
    | succ limit =>
      refine Run.Returns.bind h ?_
      dsimp only
      rw [if_pos (startsWith_cons hu)]
      exact (ih (by omega)).bind_silent (.pure _)

/-- Some items are all of the tokens if and only if they are a list that leaves none. -/
theorem wholeList_returns_iff {ts : List Token} {qs : List Request} {as : List α} (has : as ≠ []) :
    (wholeList item ts).Returns qs as ↔ ReadsList (Given item) ts qs as [] := by
  constructor
  · intro h
    have hread := wholeList_reads hitem.readBy 0 ts as h.outcome
    rw [h.requests] at hread
    cases hread with
    | none => exact absurd rfl has
    | some list => exact list
  · intro h
    have hlt := h.length_lt hitem.readBy
    have hempty : ¬ts.isEmpty = true := by
      rintro hts
      rw [List.isEmpty_iff.1 hts] at hlt
      cases hlt
    rw [wholeList, if_neg hempty]
    exact (h.separated_returns hitem (Nat.lt_succ_self _)).bind_silent (.pure _)

/-- A list, a comma and another list are a list. -/
theorem ReadsList.append {ts ts' : List Token} {qs qs' : List Request} {as bs : List α} {u : Token}
    (hu : u.kind = .mark .comma) (h : ReadsList (Given item) ts qs as [])
    (h' : ReadsList (Given item) ts' qs' bs []) :
    ReadsList (Given item) (ts ++ u :: ts') (qs ++ qs') (as ++ bs) [] := by
  have hahead := hitem.ahead _ (closed_comma hu ts')
  generalize hrest : ([] : List Token) = rest at h
  induction h with
  | last h _ =>
    subst hrest
    obtain ⟨_, hfirst, rfl⟩ := hahead _ _ _ h
    exact .next hfirst hu h'
  | next h hv _ ih =>
    obtain ⟨_, hfirst, rfl⟩ := hahead _ _ _ h
    rw [List.append_assoc]
    exact .next hfirst hv (ih hrest)

end

/-- A filter is an ordering of one item, in the standard direction. -/
theorem ordering_of_expression {r : Resolvers} {budget : Nat} {ts : List Token} {qs : List Request}
    {e : Expr} (h : (expression r budget 0 ts).Returns qs (e, [])) :
    (ordering r budget ts).Returns qs [⟨e, .standard⟩] :=
  (wholeList_returns_iff (orderItem_joins r budget) (List.cons_ne_nil _ _)).2
    (.last (h.bind_silent (.pure _)) rfl)

/-- A filter is a selection of one item, which has no name. -/
theorem selection_of_expression {r : Resolvers} {budget : Nat} {ts : List Token} {qs : List Request}
    {e : Expr} (h : (expression r budget 0 ts).Returns qs (e, [])) :
    (selection r budget ts).Returns qs [⟨e, none⟩] :=
  (wholeList_returns_iff (selectItem_joins r budget) (List.cons_ne_nil _ _)).2
    (.last (h.bind_silent (.pure _)) rfl)

end Reading

/-! ## Texts with commas between them -/

namespace Parser

open Lexer (Lexed kindsOf joinKinds)
open Reading (Request Joins Given ReadsList)

variable {α : Type}

/-- A text that is read as items, of which there is at least one. -/
structure Portion (read : String → Report (List α)) where
  text : String
  items : List α
  reads : (read text).outcome = .ok items
  nonempty : items ≠ []

namespace Portion

variable {read : String → Report (List α)}

/-- The requests that are made for the portion. -/
def requests (x : Portion read) : List Request := (read x.text).requests

/-- The text of portions with commas between them. -/
def joinText (xs : List (Portion read)) : String := Text.Segments.join ',' (xs.map text)

end Portion

/-- Portions with commas between them are read as their items together, with their requests. -/
def Concatenates (p : Parser) (read : String → Report (List α)) : Prop :=
  ∀ xs : List (Portion read), xs ≠ [] →
    (Portion.joinText xs).toList.length ≤ p.limits.maxLength →
      (read (Portion.joinText xs)).outcome = .ok (xs.flatMap Portion.items) ∧
        (read (Portion.joinText xs)).requests = xs.flatMap Portion.requests

/-- Reads a text as a list of items. -/
def listReport (p : Parser) (mode : Reading.Mode) (item : Resolvers → Nat → Reading.Reader α)
    (text : String) : Report (List α) :=
  p.report mode (fun r budget => Reading.wholeList (item r budget)) text

section

variable {p : Parser} {mode : Reading.Mode} {item : Resolvers → Nat → Reading.Reader α}
  (hitem : Joins (item p.resolvers p.limits.maxDepth))

include hitem

/-- Tokens of the kinds of a portion are read as its items. -/
theorem Portion.readsList (x : Portion (p.listReport mode item)) {ts : List Token}
    (hts : ts.map Token.kind = kindsOf x.text) :
    ReadsList (Given (item p.resolvers p.limits.maxDepth)) ts x.requests x.items [] := by
  obtain ⟨ts₀, hts₀, hread⟩ := returns_of_report x.reads
  exact (Reading.wholeList_returns_iff hitem x.nonempty).1
    (hitem.sameKind _ _ _ _ (sameKind_of_kindsOf hts₀ hts) hread)

/-- A list goes on with portions behind commas. -/
theorem Portion.readsList_append {xs : List (Portion (p.listReport mode item))}
    {ts ts' : List Token} {qs : List Request} {as : List α}
    (h : ReadsList (Given (item p.resolvers p.limits.maxDepth)) ts qs as [])
    (hts' : ts'.map Token.kind = xs.flatMap fun x => .mark .comma :: kindsOf x.text) :
    ReadsList (Given (item p.resolvers p.limits.maxDepth)) (ts ++ ts')
      (qs ++ xs.flatMap requests) (as ++ xs.flatMap items) [] := by
  induction xs generalizing ts ts' qs as with
  | nil =>
    obtain rfl := List.map_eq_nil_iff.1 hts'
    simpa using h
  | cons x xs ih =>
    obtain ⟨u, ts', rfl, hu, hts'⟩ := List.map_eq_cons_iff.1 hts'
    obtain ⟨us, vs, rfl, hus, hvs⟩ := List.map_eq_append_iff.1 hts'
    have := ih (h.append hitem hu (x.readsList hitem hus)) hvs
    simpa using this

/-- Portions with commas between them are read one after the other, each as if it stood alone. -/
theorem concatenates_of_joins : p.Concatenates (p.listReport mode item) := by
  intro xs hxs hlength
  obtain ⟨x, xs, rfl⟩ := List.exists_cons_of_ne_nil hxs
  have hlexed : Lexed (Portion.joinText (x :: xs)).toList
      (joinKinds (((x :: xs).map Portion.text).map kindsOf)) := by
    apply Lexer.lexed_join
    intro text htext
    obtain ⟨y, -, rfl⟩ := List.mem_map.1 htext
    exact lexed_of_report y.reads
  obtain ⟨ts, hts, hkinds⟩ := tokens_of_lexed hlexed hlength
  rw [List.map_cons, List.map_cons, joinKinds, List.map_map, List.flatMap_map] at hkinds
  obtain ⟨us, vs, rfl, hus, hvs⟩ := List.map_eq_append_iff.1 hkinds
  have hlist := Portion.readsList_append hitem (x.readsList hitem hus) hvs
  have hnonempty : (x :: xs).flatMap Portion.items ≠ [] := by
    rw [List.flatMap_cons]
    exact List.append_ne_nil_of_left_ne_nil x.nonempty _
  exact report_of_leadsTo (fun r budget => Reading.wholeList (item r budget)) hts
    ((Reading.wholeList_returns_iff hitem hnonempty).2 hlist)

end

/-- A filter is an ordering and a selection of one item. Orderings and selections with commas
    between them are an ordering and a selection of all of their items. Each item may nest as many
    expressions as the limit allows, and the requests are those of the parts in their order. -/
theorem lists_of_texts (p : Parser) :
    (∀ text e, (p.parse text).outcome = .ok (some e) →
      (p.parseOrderBy text).outcome = .ok [⟨e, .asc⟩] ∧
        (p.parseOrderBy text).requests = (p.parse text).requests ∧
        (p.parseSelect text).outcome = .ok [⟨e, none⟩] ∧
        (p.parseSelect text).requests = (p.parse text).requests) ∧
      p.Concatenates p.parseOrderBy ∧ p.Concatenates p.parseSelect := by
  refine ⟨?_, concatenates_of_joins (Reading.orderItem_joins _ _),
    concatenates_of_joins (Reading.selectItem_joins _ _)⟩
  intro text e h
  obtain ⟨ts, hts, hfilter⟩ := returns_of_report h
  have hread := Reading.expression_returns_of_filter hfilter
  obtain ⟨hordering, hrequests⟩ :=
    report_of_leadsTo Reading.ordering hts (Reading.ordering_of_expression hread)
  obtain ⟨hselection, hrequests'⟩ :=
    report_of_leadsTo Reading.selection hts (Reading.selection_of_expression hread)
  exact ⟨hordering, hrequests, hselection, hrequests'⟩

/-- Where two expressions may be nested and 21 characters are allowed, every item takes all of the
    nesting, and the text takes all of the characters. The word `asc` is a member in the first
    item and a direction in the last one. -/
theorem lists_of_texts_full_nesting :
    let p : Parser := ⟨standard.resolvers, ⟨2, 21⟩⟩
    let text := "(asc) desc,-b,(c) asc"
    (p.parseSelect "(asc)").outcome = .ok [⟨.member ⟨["asc"]⟩, none⟩] ∧
      (p.parseOrderBy text).outcome = .ok [⟨.member ⟨["asc"]⟩, .desc⟩,
        ⟨.unary .neg (.member ⟨["b"]⟩), .asc⟩, ⟨.member ⟨["c"]⟩, .asc⟩] ∧
      (p.parseOrderBy text).requests = [.member ["asc"], .member ["b"], .member ["c"]] := by
  intro p text
  have hfilter : (p.parse "(asc)").outcome = .ok (some (.member ⟨["asc"]⟩)) := rfl
  obtain ⟨hsingle, hordering, -⟩ := lists_of_texts p
  obtain ⟨-, -, hselection, -⟩ := hsingle "(asc)" _ hfilter
  let first : Portion p.parseOrderBy :=
    ⟨"(asc) desc", [⟨.member ⟨["asc"]⟩, .desc⟩], rfl, List.cons_ne_nil _ _⟩
  let second : Portion p.parseOrderBy :=
    ⟨"-b,(c) asc", [⟨.unary .neg (.member ⟨["b"]⟩), .asc⟩, ⟨.member ⟨["c"]⟩, .asc⟩], rfl,
      List.cons_ne_nil _ _⟩
  have htext : Portion.joinText [first, second] = text := by decide +kernel
  have hlength : (Portion.joinText [first, second]).toList.length ≤ 21 := by decide +kernel
  have hfirst : (p.parseOrderBy "(asc) desc").requests = [.member ["asc"]] := rfl
  have hsecond : (p.parseOrderBy "-b,(c) asc").requests = [.member ["b"], .member ["c"]] := rfl
  obtain ⟨houtcome, hrequests⟩ := hordering [first, second] (List.cons_ne_nil _ _) hlength
  rw [htext] at houtcome hrequests
  refine ⟨hselection, houtcome, hrequests.trans ?_⟩
  show (p.parseOrderBy "(asc) desc").requests ++ ((p.parseOrderBy "-b,(c) asc").requests ++ []) = _
  rw [hfirst, hsecond]
  rfl

end Parser

end QueryExpr
