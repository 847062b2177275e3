import QueryExpr.Expr.Text
import QueryExpr.Proofs.Durations
import QueryExpr.Proofs.Methods

/-!
# Expressions that can be written

What is written for an expression is read as the expression only if its names and literals can
stand in a query.

* `Literal.WellFormed`, `Member.WellFormed`, `Expr.WellFormed`: what can be written.
* `Expr.settled`: an expression with durations as they are read back.
* `Expr.settled_same`: it is the same expression.
-/

namespace QueryExpr

/-! ## Literals -/

namespace Literal

/-- The literals that are read back: numbers that are not floating-point numbers, strings of plain
    characters, and durations whose seconds are not negative, among others. -/
def WellFormed : Literal → Prop
  | null | boolean _ | int _ | long _ | decimal _ | binary _ | guid _ => True
  | string s => ∀ c ∈ s.toList, Text.isPlain c = true
  | duration d => 0 ≤ d.seconds.units
  | single _ | double _ | dateTime _ => False

/-- The literal with the seconds of a duration as they are read back. -/
def settled : Literal → Literal
  | duration d => duration d.settled
  | l => l

theorem settled_same {l : Literal} (h : l.WellFormed) : l.settled.same l = true := by
  cases l with
  | duration d => exact Temporal.Duration.settled_same d
  | decimal d => simp [settled, same, Number.Decimal.same]
  | single v | double v | dateTime m => cases h
  | _ => simp [settled, same]

end Literal

/-! ## Members -/

/-- The text of the member is a name of queries, all of it, and the name is that of the member: it
    is no operator, and unary minus in front of it is no part of a number. -/
structure Member.WellFormed (m : Member) (word : String) : Prop where
  lexes : ∃ span, Lexer.tokenize m.text = .ok [⟨.name word, span⟩]
  path : m.path = pathSegments word
  noOperator : Operator.ofKeyword? word = none
  noInfinity : ¬['I', 'N', 'F', '/'] <+: word.toList ∧ ¬['I', 'N', 'F', '.'] <+: word.toList

namespace Member.WellFormed

variable {m : Member} {word : String}

theorem eq_ofText (h : m.WellFormed word) : m = .ofText word := by
  obtain ⟨path⟩ := m
  exact congrArg Member.mk h.path

theorem text_eq (h : m.WellFormed word) : m.text = word := by
  rw [h.eq_ofText, Member.text_ofText]

theorem nameText (h : m.WellFormed word) :
    Token.NameText word ∧ Token.constant? word = none := by
  obtain ⟨span, hspan⟩ := h.lexes
  rw [h.text_eq] at hspan
  exact Lexer.nameText_of_tokenize hspan rfl

theorem unsigned (h : m.WellFormed word) : Token.Unsigned m.text.toList := by
  obtain ⟨hname, hconstant⟩ := h.nameText
  rw [h.text_eq]
  apply hname.unsigned hconstant
  intro c hc
  rw [Token.isJoint, Bool.or_eq_true, beq_iff_eq, beq_iff_eq] at hc
  rcases hc with rfl | rfl
  · exact h.noInfinity.1
  · exact h.noInfinity.2

end Member.WellFormed

/-! ## Expressions -/

namespace Expr

/-- The expressions that can be written: their names and literals can stand in a query, standard
    methods are called by their canonical names with as many arguments as they take, and value lists
    are right of a membership operator and nowhere else. -/
inductive WellFormed : Expr → Prop where
  | member {m word} (h : m.WellFormed word) : WellFormed (.member m)
  | literal {l} (h : l.WellFormed) : WellFormed (.literal l)
  | call {name args spec} (hname : name ∈ MethodTable.canonicalNames)
      (hspec : MethodTable.standardSpec? name = some spec)
      (hcount : spec.accepts args.length = true) (hargs : ∀ e ∈ args, WellFormed e) :
      WellFormed (.call name args)
  | unary {op e} (hop : op.isUnary = true) (he : WellFormed e) : WellFormed (.unary op e)
  | binary {left op right} (hop : op.isUnary = false) (hv : op.takesValues = false)
      (hl : WellFormed left) (hr : WellFormed right) : WellFormed (.binary left op right)
  | membership {left op items} (hv : op.takesValues = true) (hl : WellFormed left)
      (hitems : ∀ e ∈ items, WellFormed e) : WellFormed (.binary left op (.collection items))

/-- The expression with durations as they are read back. -/
def settled : Expr → Expr
  | member m => member m
  | literal l => literal l.settled
  | call name args => call name (settledAll args)
  | binary left op right => binary left.settled op right.settled
  | unary op e => unary op e.settled
  | collection items => collection (settledAll items)
where
  /-- Several expressions with durations as they are read back. -/
  settledAll : List Expr → List Expr
    | [] => []
    | e :: es => e.settled :: settledAll es

theorem settledAll_eq_map (es : List Expr) : settled.settledAll es = es.map settled := by
  induction es with
  | nil => rfl
  | cons e es ih => rw [settled.settledAll, ih, List.map_cons]

theorem sameAll_settledAll {es : List Expr} (h : ∀ e ∈ es, e.settled.same e = true) :
    same.sameAll (settled.settledAll es) es = true := by
  induction es with
  | nil => rfl
  | cons e es ih =>
    rw [settled.settledAll, same.sameAll, h e List.mem_cons_self,
      ih fun f hf => h f (List.mem_cons_of_mem _ hf)]
    rfl

/-- Only trailing zeros in the seconds of durations are lost. -/
theorem settled_same {e : Expr} (h : e.WellFormed) : e.settled.same e = true := by
  induction h with
  | member _ => simp [settled, same]
  | literal h => exact Literal.settled_same h
  | call _ _ _ _ ih => simp [settled, same, sameAll_settledAll ih]
  | unary _ _ ih => simp [settled, same, ih]
  | binary _ _ _ _ ihl ihr => simp [settled, same, ihl, ihr]
  | membership _ _ _ ihl ih => simp [settled, same, ihl, sameAll_settledAll ih]

end Expr

end QueryExpr
