import QueryExpr.Parser
import QueryExpr.Proofs.Items

/-!
# The trees of a text

A filter, an ordering and a selection differ in what stands between their expressions. The trees
of all three are read by the same rules, one after the other.

* `InTurn`: values that are given one after the other, each with requests of its own.
* `filter_gives`, `orderItem_gives`, `selectItem_gives`, `wholeList_gives`: what is read of tokens.
* `Parser.Yields`: a tree is one of those that a parser returns for a text.
* `Parser.Yields.reads`: such a tree is read by the rules.
-/

namespace QueryExpr

namespace Reading

/-- The values are given one after the other, each with the requests that `P` allows it. -/
inductive InTurn {α : Type} (P : List Request → α → Prop) : List Request → List α → Prop where
  | nil : InTurn P [] []
  | cons {qs a qs' as} (first : P qs a) (others : InTurn P qs' as) :
      InTurn P (qs ++ qs') (a :: as)

namespace InTurn

variable {α : Type} {P : List Request → α → Prop} {qs : List Request} {as : List α}

theorem singleton {a : α} (h : P qs a) : InTurn P qs [a] := by
  have := cons h nil
  rwa [List.append_nil] at this

theorem of_mem (h : InTurn P qs as) {a : α} (ha : a ∈ as) : ∃ qs', P qs' a := by
  induction h with
  | nil => simp at ha
  | cons first _ ih =>
    rcases List.mem_cons.1 ha with rfl | ha
    · exact ⟨_, first⟩
    · exact ih ha

theorem mono {Q : List Request → α → Prop} (h : InTurn P qs as) (himp : ∀ qs a, P qs a → Q qs a) :
    InTurn Q qs as := by
  induction h with
  | nil => exact .nil
  | cons first _ ih => exact .cons (himp _ _ first) ih

/-- If the requests of each value are determined by the value, so are those of all. -/
theorem eq_flatMap {requests : α → List Request} (h : InTurn (fun qs a => qs = requests a) qs as) :
    qs = as.flatMap requests := by
  induction h with
  | nil => rfl
  | cons first _ ih => rw [List.flatMap_cons, first, ih]

end InTurn

/-- Some tokens are read as the tree, which makes the requests. -/
def ReadFrom (r : Resolvers) (qs : List Request) (e : Expr) : Prop :=
  ∃ ts rest, Reads r (.expression 0) ts qs e rest

/-! ## Filters and items -/

section

variable (r : Resolvers) (budget : Nat)

theorem filter_gives (ts : List Token) :
    (filter r budget ts).Gives fun qs e? => InTurn (ReadFrom r) qs e?.toList := by
  refine (filter_reads r budget ts).mono ?_
  rintro qs _ (_ | ⟨he⟩)
  · exact .nil
  · exact .singleton (P := ReadFrom r) ⟨ts, [], he⟩

theorem orderItem_gives (ts : List Token) :
    (orderItem r budget ts).Gives fun qs x => ReadFrom r qs x.1.expr := by
  refine ((orderItem_readBy r).gives budget ts).mono ?_
  rintro qs ⟨item, rest⟩ (⟨he, -⟩ | ⟨he, -⟩)
  · exact ⟨ts, _, he⟩
  · exact ⟨ts, _, he⟩

theorem selectItem_gives (ts : List Token) :
    (selectItem r budget ts).Gives fun qs x => ReadFrom r qs x.1.expr := by
  refine ((selectItem_readBy r).gives budget ts).mono ?_
  rintro qs ⟨item, rest⟩ (⟨he, -, -, -⟩ | ⟨he, -⟩)
  · exact ⟨ts, _, he⟩
  · exact ⟨ts, _, he⟩

end

/-! ## Lists of items -/

section

variable {α : Type} {item : Reader α} {P : List Request → α → Prop}
  (hitem : ∀ ts, (item ts).Gives fun qs x => P qs x.1)

include hitem

theorem separated_gives (limit : Nat) (ts : List Token) :
    (separated item limit ts).Gives fun qs x => InTurn P qs x.1 := by
  induction limit generalizing ts with
  | zero => exact .pure .nil
  | succ limit ih =>
    refine (hitem ts).bind ?_
    rintro qs ⟨a, rest⟩ ha
    dsimp only
    split
    · refine (ih rest.tail).bind ?_
      rintro qs' ⟨as, rest'⟩ has
      refine .pure ?_
      rw [List.append_nil]
      exact .cons ha has
    · refine .pure ?_
      rw [List.append_nil]
      exact .singleton ha

theorem wholeList_gives (ts : List Token) :
    (wholeList item ts).Gives fun qs as => InTurn P qs as := by
  rw [wholeList]
  split
  · exact .pure .nil
  · refine (separated_gives hitem _ ts).bind ?_
    rintro qs ⟨as, rest⟩ has
    refine (inputEnd_gives rest).bind ?_
    rintro _ ⟨⟩ ⟨rfl, -⟩
    refine .pure ?_
    simpa using has

end

end Reading

/-! ## Texts -/

namespace Parser

open Reading (Run)

/-- A text has tokens if it is not too long and the lexer finds them. -/
theorem tokens_eq_ok {p : Parser} {text : String} {ts : List Token} :
    p.tokens text = .ok ts ↔
      text.toList.length ≤ p.limits.maxLength ∧ Lexer.tokenize text = .ok ts := by
  unfold tokens
  split
  next h =>
    constructor
    · rintro ⟨⟩
    · intro hts
      omega
  next h => simp [Nat.not_lt.1 h]

/-- What the run over the tokens gives holds of what is reported. -/
theorem report_gives {α : Type} {p : Parser} {mode : Reading.Mode}
    {read : Resolvers → Nat → List Token → Run α} {text : String}
    {post : List Reading.Request → α → Prop}
    (hread : ∀ ts, (read p.resolvers p.limits.maxDepth ts).Gives post) {a : α}
    (ha : (p.report mode read text).outcome = .ok a) :
    post (p.report mode read text).requests a := by
  rw [report] at ha ⊢
  split
  next e he =>
    rw [he] at ha
    cases ha
  next ts hts =>
    rw [hts] at ha
    exact hread ts a (Run.mapError_eq_ok.1 ha)

/-- The text is read, and the tree is one of those that it is read as: the filter, or the
    expression of an item of the ordering or the selection. -/
inductive Yields (p : Parser) (text : String) : Expr → Prop where
  | filter {e} (h : (p.parse text).outcome = .ok (some e)) : Yields p text e
  | ordering {items item} (h : (p.parseOrderBy text).outcome = .ok items) (hitem : item ∈ items) :
      Yields p text item.expr
  | selection {items item} (h : (p.parseSelect text).outcome = .ok items) (hitem : item ∈ items) :
      Yields p text item.expr

/-- Every tree that is returned is read by the rules. -/
theorem Yields.reads {p : Parser} {text : String} {e : Expr} (h : p.Yields text e) :
    ∃ qs, Reading.ReadFrom p.resolvers qs e := by
  cases h with
  | filter h => exact (report_gives (Reading.filter_gives _ _) h).of_mem (by simp)
  | ordering h hitem =>
    have hitems := Reading.wholeList_gives
      (P := fun qs (item : OrderItem) => Reading.ReadFrom p.resolvers qs item.expr)
      (Reading.orderItem_gives p.resolvers p.limits.maxDepth)
    exact (report_gives hitems h).of_mem hitem
  | selection h hitem =>
    have hitems := Reading.wholeList_gives
      (P := fun qs (item : SelectItem) => Reading.ReadFrom p.resolvers qs item.expr)
      (Reading.selectItem_gives p.resolvers p.limits.maxDepth)
    exact (report_gives hitems h).of_mem hitem

end Parser

end QueryExpr
