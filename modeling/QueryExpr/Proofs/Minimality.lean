import QueryExpr.Expr.Text
import QueryExpr.Proofs.Folding

/-!
# Parentheses that are not needed

Without one of the pairs of parentheses that are written around its operands, an expression is read
as another one or not at all, but for two kinds of pairs: those behind a minus around what it is no
sign of, and those left of an operator around a membership, since the reader takes a value list for
an operand of any operator.

* `Expr.Writable`: the expressions that can be written.
* `Expr.bracketed`: an expression with the parentheses that are written for it.
* `Expr.Bared`: it has all of them but one pair.
* `Pair.IsSpare`: the pairs that are not needed.
* `Parser.parse_bared`: these and no others can be left out.
-/

namespace QueryExpr

open Token (Unsigned)

namespace Operator

variable {op : Operator}

theorem precedence_of_isUnary (h : op.isUnary = true) : op.precedence = 7 := by
  cases op <;> first | rfl | cases h

theorem precedence_le_six (h : op.isUnary = false) : op.precedence ≤ 6 := by
  cases op <;> first | decide | cases h

end Operator

/-! ## What is written for an expression -/

namespace Bracketed

/-- What is written, in parentheses if it has to be. -/
def enclosed (wraps : Bool) (b : Bracketed) : Bracketed := if wraps then parens b else b

/-- The least left power of the operators that are read in parentheses, if there are any. -/
def powerWithin (wraps : Bool) (minPower : Nat) : Nat := if wraps then 0 else minPower

variable {wraps : Bool} {b : Bracketed} {minPower : Nat}

theorem text_enclosed (wraps : Bool) (b : Bracketed) :
    (enclosed wraps b).text = Expr.operand wraps b.text := by
  cases wraps <;> rfl

theorem tree_enclosed (wraps : Bool) (b : Bracketed) : (enclosed wraps b).tree = b.tree := by
  cases wraps <;> rfl

theorem Proper.enclosed (h : b.Proper) (wraps : Bool) : (enclosed wraps b).Proper := by
  cases wraps with
  | false => exact h
  | true => exact .parens h

theorem Proper.with_left {left left' right : Bracketed} {op : Operator}
    (h : (Bracketed.binary left op right).Proper) (hl : left'.Proper) :
    (Bracketed.binary left' op right).Proper := by
  cases h with
  | binary hop hv _ hr => exact .binary hop hv hl hr
  | membership hv _ hitems => exact .membership hv hl hitems

namespace Suffices

variable {left left' right : Bracketed} {op : Operator} {minPower' : Nat}

theorem leftOperand (h : (Bracketed.binary left op right).Suffices minPower) :
    minPower ≤ op.leftPower ∧ op.precedence ≤ left.level ∧ left.Suffices minPower := by
  cases h with
  | binary _ hpower hlevel hl _ | membership _ hpower hlevel hl _ => exact ⟨hpower, hlevel, hl⟩

theorem rightOperand (h : (Bracketed.binary left op right).Suffices minPower)
    (hv : op.takesValues = false) : right.Suffices op.rightPower := by
  cases h with
  | binary _ _ _ _ hr => exact hr
  | membership hv' => rw [hv] at hv'; cases hv'

theorem values {items : List Bracketed}
    (h : (Bracketed.binary left op (collection items)).Suffices minPower) :
    ∀ b ∈ items, b.Suffices 0 := by
  cases h with
  | binary _ _ _ _ hr => cases hr
  | membership _ _ _ _ hitems => exact hitems

theorem arguments {name : String} {args : List Bracketed}
    (h : (Bracketed.call name args).Suffices minPower) : ∀ b ∈ args, b.Suffices 0 := by
  cases h with
  | call hargs => exact hargs

theorem operand (h : (Bracketed.unary op b).Suffices minPower) : b.Suffices op.operandPower := by
  cases h with
  | unary h => exact h

/-- Another left operand, where other operators are read. -/
theorem with_left (h : (Bracketed.binary left op right).Suffices minPower)
    (hpower : minPower' ≤ op.leftPower) (hlevel : op.precedence ≤ left'.level)
    (hl : left'.Suffices minPower') : (Bracketed.binary left' op right).Suffices minPower' := by
  cases h with
  | binary hv _ _ _ hr => exact .binary hv hpower hlevel hl hr
  | membership hv _ _ _ hitems => exact .membership hv hpower hlevel hl hitems

/-- Another right operand. -/
theorem with_right {right' : Bracketed} (h : (Bracketed.binary left op right).Suffices minPower)
    (hv : op.takesValues = false) (hr : right'.Suffices op.rightPower) :
    (Bracketed.binary left op right').Suffices minPower := by
  obtain ⟨hpower, hlevel, hl⟩ := h.leftOperand
  exact .binary hv hpower hlevel hl hr

end Suffices

theorem level_enclosed {b' : Bracketed} (h : b.level = b'.level) (wraps : Bool) :
    (enclosed wraps b).level = (enclosed wraps b').level := by
  cases wraps with
  | false => exact h
  | true => rfl

theorem suffices_enclosed :
    (enclosed wraps b).Suffices minPower ↔ b.Suffices (powerWithin wraps minPower) := by
  cases wraps with
  | false => exact Iff.rfl
  | true => exact ⟨fun h => by cases h; assumption, .parens⟩

theorem unfolded_enclosed : (enclosed wraps b).Unfolded ↔ b.Unfolded := by
  cases wraps with
  | false => exact Iff.rfl
  | true => exact ⟨fun h => by cases h; assumption, .parens⟩

end Bracketed

namespace Expr

/-- The expressions that can be written: their names and literals are read back from their texts,
    operators have as many operands as they take, standard methods are called by their canonical
    names with as many arguments as they take, and value lists are right of a membership operator
    and nowhere else. -/
inductive Writable : Expr → Prop where
  | member {m} (h : m.LexesBack) : Writable (.member m)
  | literal {l} (h : l.LexesBack) : Writable (.literal l)
  | call {name args spec} (hname : name ∈ MethodTable.canonicalNames)
      (hspec : MethodTable.standardSpec? name = some spec)
      (hcount : spec.accepts args.length = true) (hargs : ∀ e ∈ args, Writable e) :
      Writable (.call name args)
  | unary {op e} (hop : op.isUnary = true) (he : Writable e) : Writable (.unary op e)
  | binary {left op right} (hop : op.isUnary = false) (hv : op.takesValues = false)
      (hl : Writable left) (hr : Writable right) : Writable (.binary left op right)
  | membership {left op items} (hv : op.takesValues = true) (hl : Writable left)
      (hitems : ∀ e ∈ items, Writable e) : Writable (.binary left op (.collection items))

/-- The expression with the parentheses that are written around its operands. -/
def bracketed : Expr → Bracketed
  | member m => .member m
  | literal l => .literal l
  | call name args => .call name (bracketedAll args)
  | binary left op right =>
    .binary (.enclosed (left.wrapsLeft op) left.bracketed) op
      (.enclosed (right.wrapsRight op) right.bracketed)
  | unary op inner => .unary op (.enclosed (inner.wrapsBehind op) inner.bracketed)
  | collection items => .collection (bracketedAll items)
where
  /-- Several expressions with the parentheses that are written around their operands. -/
  bracketedAll : List Expr → List Bracketed
    | [] => []
    | e :: es => e.bracketed :: bracketedAll es

theorem bracketedAll_eq_map (es : List Expr) : bracketed.bracketedAll es = es.map bracketed := by
  induction es with
  | nil => rfl
  | cons e es ih => rw [bracketed.bracketedAll, ih, List.map_cons]

variable {e : Expr}

/-- What holds of each of several expressions holds with another one in place of one of them. -/
theorem forall_among {p : Bracketed → Prop} {front behind : List Expr} {b : Bracketed}
    (h : ∀ b' ∈ bracketed.bracketedAll (front ++ e :: behind), p b') (hb : p e.bracketed → p b) :
    ∀ b' ∈ front.map bracketed ++ b :: behind.map bracketed, p b' := by
  rw [bracketedAll_eq_map, List.map_append, List.map_cons, List.forall_mem_append,
    List.forall_mem_cons] at h
  rw [List.forall_mem_append, List.forall_mem_cons]
  exact ⟨h.1, hb h.2.1, h.2.2⟩

/-- A value list has its own parentheses and gets no more. -/
theorem wrapsRight_collection (items : List Expr) (op : Operator) :
    (collection items).wrapsRight op = false := by
  cases op <;> rfl

theorem ne_collection_of_wraps {op : Operator} (h : e.wrapsRight op = true) (items : List Expr) :
    e ≠ collection items := by
  rintro rfl
  rw [wrapsRight_collection] at h
  cases h

namespace Writable

theorem text_bracketed (h : e.Writable) : e.bracketed.text = e.text := by
  have hlist : ∀ es : List Expr, (∀ e ∈ es, e.bracketed.text = e.text) →
      Bracketed.text.commaSeparated (bracketed.bracketedAll es) = text.commaSeparated es := by
    intro es
    induction es with
    | nil => intro _; rfl
    | cons e es ih =>
      intro hes
      obtain ⟨he, hes⟩ := List.forall_mem_cons.1 hes
      cases es with
      | nil => exact he
      | cons f es =>
        show e.bracketed.text ++ "," ++
          Bracketed.text.commaSeparated (bracketed.bracketedAll (f :: es)) = _
        rw [he, ih hes]
        rfl
  induction h with
  | member _ | literal _ => rfl
  | @call name args _ _ _ _ _ ih =>
    show name ++ "(" ++ Bracketed.text.commaSeparated (bracketed.bracketedAll args) ++ ")" = _
    rw [hlist args ih]
    rfl
  | unary _ _ ih => rw [bracketed, Bracketed.text, Bracketed.text_enclosed, ih, text]
  | binary _ _ _ _ ihl ihr =>
    rw [bracketed, Bracketed.text, Bracketed.text_enclosed, Bracketed.text_enclosed, ihl, ihr, text]
  | @membership left op items _ _ _ ihl ih =>
    have hvalues : (collection items).bracketed.text = (collection items).text := by
      show "(" ++ Bracketed.text.commaSeparated (bracketed.bracketedAll items) ++ ")" = _
      rw [hlist items ih]
      rfl
    rw [bracketed, Bracketed.text, Bracketed.text_enclosed, Bracketed.text_enclosed, ihl, hvalues,
      text]

theorem tree_bracketed (h : e.Writable) : e.bracketed.tree = e := by
  have hlist : ∀ es : List Expr, (∀ e ∈ es, e.bracketed.tree = e) →
      Bracketed.tree.trees (bracketed.bracketedAll es) = es := by
    intro es hes
    rw [bracketedAll_eq_map, Bracketed.trees_eq_map, List.map_map]
    exact (List.map_congr_left hes).trans (List.map_id es)
  induction h with
  | member _ | literal _ => rfl
  | call _ _ _ _ ih => rw [bracketed, Bracketed.tree, hlist _ ih]
  | unary _ _ ih => rw [bracketed, Bracketed.tree, Bracketed.tree_enclosed, ih]
  | binary _ _ _ _ ihl ihr =>
    rw [bracketed, Bracketed.tree, Bracketed.tree_enclosed, Bracketed.tree_enclosed, ihl, ihr]
  | membership _ _ _ ihl ih =>
    rw [bracketed, Bracketed.tree, Bracketed.tree_enclosed, Bracketed.tree_enclosed, ihl, bracketed,
      Bracketed.tree, hlist _ ih]

theorem proper (h : e.Writable) : e.bracketed.Proper := by
  have hlist : ∀ es : List Expr, (∀ e ∈ es, e.bracketed.Proper) →
      ∀ b ∈ bracketed.bracketedAll es, b.Proper := by
    intro es hes
    rw [bracketedAll_eq_map]
    exact List.forall_mem_map.2 hes
  induction h with
  | member h => exact .member h
  | literal h => exact .literal h
  | @call name args spec hname hspec hcount _ ih =>
    refine .call hname hspec ?_ (hlist args ih)
    rwa [bracketedAll_eq_map, List.length_map]
  | unary hop _ ih => exact .unary hop (ih.enclosed _)
  | binary hop hv _ _ ihl ihr => exact .binary hop hv (ihl.enclosed _) (ihr.enclosed _)
  | @membership left op items hv _ _ ihl ih =>
    rw [bracketed, wrapsRight_collection]
    exact .membership hv (ihl.enclosed _) (hlist items ih)

section

variable {left right inner : Expr} {op : Operator}

theorem leftOperand (h : (Expr.binary left op right).Writable) :
    op.isUnary = false ∧ left.Writable := by
  cases h with
  | binary hop _ hl _ => exact ⟨hop, hl⟩
  | membership hv hl _ => exact ⟨Operator.isUnary_of_takesValues hv, hl⟩

theorem rightOperand (h : (Expr.binary left op right).Writable)
    (hne : ∀ items, right ≠ collection items) :
    op.isUnary = false ∧ op.takesValues = false ∧ right.Writable := by
  cases h with
  | binary hop hv _ hr => exact ⟨hop, hv, hr⟩
  | membership _ _ _ => exact absurd rfl (hne _)

theorem values {items : List Expr} (h : (Expr.binary left op (collection items)).Writable) :
    op.takesValues = true ∧ ∀ e ∈ items, e.Writable := by
  cases h with
  | binary _ _ _ hr => cases hr
  | membership hv _ hitems => exact ⟨hv, hitems⟩

theorem operand (h : (Expr.unary op inner).Writable) : op.isUnary = true ∧ inner.Writable := by
  cases h with
  | unary hop he => exact ⟨hop, he⟩

theorem arguments {name : String} {args : List Expr} (h : (Expr.call name args).Writable) :
    ∀ e ∈ args, e.Writable := by
  cases h with
  | call _ _ _ hargs => exact hargs

end

/-- What is less tight than unary operators is a binary operation. -/
theorem eq_binary (h : e.Writable) (hlt : e.precedence < 7) :
    ∃ left op right, e = .binary left op right ∧ e.precedence = op.precedence := by
  cases h with
  | @unary op _ hop _ =>
    exact absurd hlt (by simp [precedence, Operator.precedence_of_isUnary hop])
  | binary _ _ _ _ | membership _ _ _ => exact ⟨_, _, _, rfl, rfl⟩
  | _ => exact absurd hlt (by simp [precedence, tightest])

end Writable

end Expr

/-! ## Without one pair of parentheses -/

/-- Where an operand stands. -/
inductive Place where
  | leftOf (op : Operator)
  | rightOf (op : Operator)
  | behind (op : Operator)

/-- A pair of parentheses around an operand. -/
structure Pair where
  /-- The least left power of the operators that are read where the operation stands. -/
  minPower : Nat
  place : Place
  operand : Expr

namespace Expr

open Bracketed (enclosed powerWithin)

/-- What is written for the expression without one pair of parentheses around an operand, where
    operators with at least the given left power are read. -/
inductive Bared : Nat → Expr → Pair → Bracketed → Prop where
  | left {minPower left op right} (hw : left.wrapsLeft op = true) :
      Bared minPower (binary left op right) ⟨minPower, .leftOf op, left⟩
        (.binary left.bracketed op (enclosed (right.wrapsRight op) right.bracketed))
  | right {minPower left op right} (hw : right.wrapsRight op = true) :
      Bared minPower (binary left op right) ⟨minPower, .rightOf op, right⟩
        (.binary (enclosed (left.wrapsLeft op) left.bracketed) op right.bracketed)
  | behind {minPower op inner} (hw : inner.wrapsBehind op = true) :
      Bared minPower (unary op inner) ⟨minPower, .behind op, inner⟩ (.unary op inner.bracketed)
  | inLeft {minPower left op right pair b}
      (h : Bared (powerWithin (left.wrapsLeft op) minPower) left pair b) :
      Bared minPower (binary left op right) pair
        (.binary (enclosed (left.wrapsLeft op) b) op
          (enclosed (right.wrapsRight op) right.bracketed))
  | inRight {minPower left op right pair b}
      (h : Bared (powerWithin (right.wrapsRight op) op.rightPower) right pair b) :
      Bared minPower (binary left op right) pair
        (.binary (enclosed (left.wrapsLeft op) left.bracketed) op
          (enclosed (right.wrapsRight op) b))
  | inOperand {minPower op inner pair b}
      (h : Bared (powerWithin (inner.wrapsBehind op) op.operandPower) inner pair b) :
      Bared minPower (unary op inner) pair (.unary op (enclosed (inner.wrapsBehind op) b))
  | inArgument {minPower name front e behind pair b} (h : Bared 0 e pair b) :
      Bared minPower (call name (front ++ e :: behind)) pair
        (.call name (front.map bracketed ++ b :: behind.map bracketed))
  | inValue {minPower left op front e behind pair b} (h : Bared 0 e pair b) :
      Bared minPower (binary left op (collection (front ++ e :: behind))) pair
        (.binary (enclosed (left.wrapsLeft op) left.bracketed) op
          (.collection (front.map bracketed ++ b :: behind.map bracketed)))

end Expr

/-- The pairs that can be left out: left of an operator around a membership, where its own operator
    is read, and behind a minus around a unary operation or around a literal that the minus is no
    part of. -/
def Pair.IsSpare : Pair → Prop
  | ⟨minPower, .leftOf _, .binary _ op _⟩ => op.takesValues = true ∧ minPower ≤ op.leftPower
  | ⟨_, .behind .neg, .unary _ _⟩ => True
  | ⟨_, .behind .neg, .literal l⟩ => Unsigned l.text.toList
  | _ => False

/-! ## The text and the tree -/

/-- The second text is the first without the parentheses around a part of it. -/
def LosesPair (inner text text' : String) : Prop :=
  ∃ front behind, text = front ++ "(" ++ inner ++ ")" ++ behind ∧ text' = front ++ inner ++ behind

namespace LosesPair

variable {inner text text' : String}

theorem parens (inner : String) : LosesPair inner ("(" ++ inner ++ ")") inner :=
  ⟨"", "", by simp, by simp⟩

/-- Parts of longer texts. -/
theorem within (h : LosesPair inner text text') (front behind : String) :
    LosesPair inner (front ++ text ++ behind) (front ++ text' ++ behind) := by
  obtain ⟨front', behind', rfl, rfl⟩ := h
  exact ⟨front ++ front', behind' ++ behind, by simp [String.append_assoc],
    by simp [String.append_assoc]⟩

theorem behind (h : LosesPair inner text text') (front : String) :
    LosesPair inner (front ++ text) (front ++ text') := by
  simpa using h.within front ""

theorem inFrontOf (h : LosesPair inner text text') (behind : String) :
    LosesPair inner (text ++ behind) (text' ++ behind) := by
  simpa using h.within "" behind

theorem leftOf (h : LosesPair inner text text') (op : Operator) (right : String) :
    LosesPair inner (text ++ " " ++ op.keyword ++ " " ++ right)
      (text' ++ " " ++ op.keyword ++ " " ++ right) :=
  (((h.inFrontOf _).inFrontOf _).inFrontOf _).inFrontOf _

theorem operand (h : LosesPair inner text text') (wraps : Bool) :
    LosesPair inner (Expr.operand wraps text) (Expr.operand wraps text') := by
  cases wraps with
  | false => exact h
  | true => exact h.within "(" ")"

end LosesPair

namespace Bracketed

/-- One of several expressions with commas between them. -/
theorem exists_commaSeparated (front behind : List Bracketed) :
    ∃ s s', ∀ b, text.commaSeparated (front ++ b :: behind) = s ++ b.text ++ s' := by
  induction front with
  | nil =>
    cases behind with
    | nil => exact ⟨"", "", fun b => by simp [text.commaSeparated]⟩
    | cons c behind =>
      exact ⟨"", "," ++ text.commaSeparated (c :: behind), fun b => by
        simp [text.commaSeparated, String.append_assoc]⟩
  | cons a front ih =>
    obtain ⟨s, s', hs⟩ := ih
    refine ⟨a.text ++ "," ++ s, s', fun b => ?_⟩
    have hcons : text.commaSeparated (a :: (front ++ b :: behind)) =
        a.text ++ "," ++ text.commaSeparated (front ++ b :: behind) := by
      cases front <;> rfl
    rw [List.cons_append, hcons, hs]
    simp [String.append_assoc]

end Bracketed

namespace Expr.Bared

open Bracketed (text_enclosed enclosed)

variable {minPower : Nat} {e : Expr} {pair : Pair} {b : Bracketed}

/-- An expression among others with commas between them. -/
theorem losesPair_among {inner : String} (h : LosesPair inner e.bracketed.text b.text)
    (front behind : List Expr) : LosesPair inner
      (Bracketed.text.commaSeparated (bracketed.bracketedAll (front ++ e :: behind)))
      (Bracketed.text.commaSeparated (front.map bracketed ++ b :: behind.map bracketed)) := by
  obtain ⟨s, s', hs⟩ :=
    Bracketed.exists_commaSeparated (front.map bracketed) (behind.map bracketed)
  rw [bracketedAll_eq_map, List.map_append, List.map_cons, hs, hs]
  exact h.within s s'

theorem losesPair (h : Bared minPower e pair b) :
    LosesPair pair.operand.bracketed.text e.bracketed.text b.text := by
  induction h with
  | left hw =>
    simp only [bracketed, Bracketed.text, text_enclosed, hw]
    exact (LosesPair.parens _).leftOf _ _
  | right hw =>
    simp only [bracketed, Bracketed.text, text_enclosed, hw]
    exact (LosesPair.parens _).behind _
  | behind hw =>
    simp only [bracketed, Bracketed.text, text_enclosed, hw]
    exact (LosesPair.parens _).behind _
  | inLeft _ ih =>
    simp only [bracketed, Bracketed.text, text_enclosed]
    exact (ih.operand _).leftOf _ _
  | inRight _ ih =>
    simp only [bracketed, Bracketed.text, text_enclosed]
    exact (ih.operand _).behind _
  | inOperand _ ih =>
    simp only [bracketed, Bracketed.text, text_enclosed]
    exact (ih.operand _).behind _
  | inArgument _ ih =>
    simp only [bracketed, Bracketed.text]
    exact (losesPair_among ih _ _).within _ _
  | inValue _ ih =>
    simp only [bracketed, Bracketed.text, text_enclosed, wrapsRight_collection]
    exact ((losesPair_among ih _ _).within _ _).behind _

theorem ne_collection (h : Bared minPower e pair b) (items : List Expr) : e ≠ collection items := by
  rintro rfl
  cases h

theorem writable_operand (h : Bared minPower e pair b) (he : e.Writable) :
    pair.operand.Writable := by
  induction h with
  | left _ => exact he.leftOperand.2
  | right hw => exact (he.rightOperand (ne_collection_of_wraps hw)).2.2
  | behind _ => exact he.operand.2
  | inLeft _ ih => exact ih he.leftOperand.2
  | inRight h ih => exact ih (he.rightOperand h.ne_collection).2.2
  | inOperand _ ih => exact ih he.operand.2
  | inArgument _ ih => exact ih (he.arguments _ (by simp))
  | inValue _ ih => exact ih (he.values.2 _ (by simp))

/-- The expression is the same one without the pair. -/
theorem tree_eq (h : Bared minPower e pair b) : b.tree = e.bracketed.tree := by
  induction h with
  | inArgument _ ih | inValue _ ih =>
    simp [bracketed, Bracketed.tree, bracketedAll_eq_map, Bracketed.trees_eq_map, ih,
      wrapsRight_collection, enclosed]
  | _ => simp [bracketed, Bracketed.tree, Bracketed.tree_enclosed, *]

theorem proper (h : Bared minPower e pair b) (he : e.Writable) : b.Proper := by
  induction h with
  | left _ => exact he.proper.with_left he.leftOperand.2.proper
  | right hw =>
    obtain ⟨hop, hv, hr⟩ := he.rightOperand (ne_collection_of_wraps hw)
    exact .binary hop hv (he.leftOperand.2.proper.enclosed _) hr.proper
  | behind _ => exact .unary he.operand.1 he.operand.2.proper
  | inLeft _ ih => exact he.proper.with_left ((ih he.leftOperand.2).enclosed _)
  | inRight h ih =>
    obtain ⟨hop, hv, hr⟩ := he.rightOperand h.ne_collection
    exact .binary hop hv (he.leftOperand.2.proper.enclosed _) ((ih hr).enclosed _)
  | inOperand _ ih => exact .unary he.operand.1 ((ih he.operand.2).enclosed _)
  | inArgument _ ih =>
    have hargs := he.arguments
    cases he.proper with
    | call hname hspec hcount hproper =>
      exact .call hname hspec (by simpa [bracketedAll_eq_map] using hcount)
        (forall_among hproper fun _ => ih (hargs _ (by simp)))
  | inValue _ ih =>
    obtain ⟨hv, hitems⟩ := he.values
    have hproper := fun e he => (hitems e he).proper
    rw [← List.forall_mem_map, ← bracketedAll_eq_map] at hproper
    exact .membership hv (he.leftOperand.2.proper.enclosed _)
      (forall_among hproper fun _ => ih (hitems _ (by simp)))

theorem level_eq (h : Bared minPower e pair b) : b.level = e.bracketed.level := by
  cases h <;> rfl

end Expr.Bared

/-! ## Pairs that are needed -/

namespace Expr

open Bracketed (enclosed powerWithin suffices_enclosed unfolded_enclosed)

variable {minPower : Nat} {e : Expr} {pair : Pair} {b : Bracketed}

theorem level_bracketed {left right : Expr} {op : Operator} (hv : op.takesValues = false) :
    (binary left op right).bracketed.level = op.precedence := by
  simp [bracketed, Bracketed.level, hv]

theorem suffices_binary {left right : Expr} {op : Operator}
    (h : (binary left op right).bracketed.Suffices minPower) : minPower ≤ op.leftPower :=
  h.leftOperand.1

/-- Left of an operator, what is less tight than the operator is read as its operand only if it is a
    membership. -/
theorem isSpare_left {left : Expr} {op : Operator} (hl : left.Writable) (hop : op.isUnary = false)
    (hw : left.wrapsLeft op = true) (hlevel : op.precedence ≤ left.bracketed.level)
    (hs : left.bracketed.Suffices minPower) : Pair.IsSpare ⟨minPower, .leftOf op, left⟩ := by
  have hsix := Operator.precedence_le_six hop
  have hlt : left.precedence < op.precedence := by simpa [wrapsLeft] using hw
  obtain ⟨l, op', r, rfl, hprecedence⟩ := hl.eq_binary (Nat.lt_of_lt_of_le hlt (by omega))
  refine ⟨?_, suffices_binary hs⟩
  -- behind any other operation only operators go on that are no tighter
  by_contra hv
  rw [level_bracketed (Bool.eq_false_iff.2 hv)] at hlevel
  omega

/-- Right of an operator, what is no tighter than the operator is not read as its operand. -/
theorem not_suffices_right {right : Expr} {op : Operator} (hr : right.Writable)
    (hop : op.isUnary = false) (hw : right.wrapsRight op = true) :
    ¬ right.bracketed.Suffices op.rightPower := by
  have hsix := Operator.precedence_le_six hop
  have hle : right.precedence ≤ op.precedence := by simpa [wrapsRight] using hw
  obtain ⟨l, op', r, rfl, hprecedence⟩ := hr.eq_binary (by omega)
  intro hs
  have hpower := suffices_binary hs
  have hone := op'.precedence_bounds.1
  unfold Operator.leftPower Operator.rightPower at hpower
  omega

/-- No binary operation is read as the operand of a unary operator. -/
theorem not_suffices_behind {left right : Expr} {op op' : Operator} (hop : op.isUnary = true)
    (hop' : op'.isUnary = false) :
    ¬ (binary left op' right).bracketed.Suffices op.operandPower := by
  intro hs
  have hpower := suffices_binary hs
  have hseven := Operator.precedence_of_isUnary hop
  have hsix := Operator.precedence_le_six hop'
  unfold Operator.leftPower Operator.operandPower at hpower
  omega

theorem isSpare_behind {inner : Expr} {op : Operator} (he : (unary op inner).Writable)
    (hw : inner.wrapsBehind op = true) (hs : inner.bracketed.Suffices op.operandPower)
    (hu : op = .neg → Unsigned inner.bracketed.text.toList) :
    Pair.IsSpare ⟨minPower, .behind op, inner⟩ := by
  obtain ⟨hop, hinner⟩ := he.operand
  cases op with
  | not =>
    have hlt : inner.precedence < Operator.not.precedence := by simpa [wrapsBehind] using hw
    obtain ⟨l, op', r, rfl, -⟩ := hinner.eq_binary hlt
    exact absurd hs (not_suffices_behind rfl hinner.leftOperand.1)
  | neg =>
    cases inner with
    | member _ | call _ _ => cases hw
    | literal l => exact hu rfl
    | unary _ _ => trivial
    | binary l op' r => exact absurd hs (not_suffices_behind rfl hinner.leftOperand.1)
    | collection _ => cases hinner
  | _ => cases hop

/-- A pair without which the expression is read is spare. -/
theorem Bared.isSpare (h : Bared minPower e pair b) (he : e.Writable) (hs : b.Suffices minPower)
    (hu : b.Unfolded) : pair.IsSpare := by
  induction h with
  | left hw =>
    obtain ⟨hop, hl⟩ := he.leftOperand
    obtain ⟨-, hlevel, hsl⟩ := hs.leftOperand
    exact isSpare_left hl hop hw hlevel hsl
  | right hw =>
    obtain ⟨hop, hv, hr⟩ := he.rightOperand (ne_collection_of_wraps hw)
    exact absurd (hs.rightOperand hv) (not_suffices_right hr hop hw)
  | behind hw =>
    cases hu with
    | unary hsign _ => exact isSpare_behind he hw hs.operand hsign
  | inLeft _ ih =>
    cases hu with
    | binary hul _ =>
      have hsl := suffices_enclosed.1 hs.leftOperand.2.2
      exact ih he.leftOperand.2 hsl (unfolded_enclosed.1 hul)
  | inRight h ih =>
    obtain ⟨-, hv, hr⟩ := he.rightOperand h.ne_collection
    cases hu with
    | binary _ hur =>
      exact ih hr (suffices_enclosed.1 (hs.rightOperand hv)) (unfolded_enclosed.1 hur)
  | inOperand _ ih =>
    cases hu with
    | unary _ hub =>
      exact ih he.operand.2 (suffices_enclosed.1 hs.operand) (unfolded_enclosed.1 hub)
  | inArgument _ ih =>
    cases hu with
    | call hargs =>
      exact ih (he.arguments _ (by simp)) (hs.arguments _ (by simp)) (hargs _ (by simp))
  | inValue _ ih =>
    cases hu with
    | binary _ hur =>
      cases hur with
      | collection hitems =>
        exact ih (he.values.2 _ (by simp)) (hs.values _ (by simp)) (hitems _ (by simp))

end Expr

/-! ## Pairs that are not needed -/

namespace Expr

open Bracketed (enclosed powerWithin suffices_enclosed unfolded_enclosed)

variable {minPower minPower' : Nat} {e : Expr} {pair : Pair} {b : Bracketed}

/-- A left operand in parentheses is the same wherever it stands, and one without them is tighter
    than the operator. -/
theorem suffices_binary_of_lt {left right : Expr} {op : Operator}
    (ih : ∀ {minPower minPower'}, left.bracketed.Suffices minPower →
      minPower' < 2 * left.precedence → left.bracketed.Suffices minPower')
    (hs : (binary left op right).bracketed.Suffices minPower)
    (hlt : minPower' < 2 * op.precedence) :
    (binary left op right).bracketed.Suffices minPower' := by
  obtain ⟨-, hlevel, hl⟩ := hs.leftOperand
  have hpower : minPower' ≤ op.leftPower := by
    unfold Operator.leftPower
    omega
  refine hs.with_left hpower hlevel (suffices_enclosed.2 ?_)
  rw [suffices_enclosed] at hl
  cases hw : left.wrapsLeft op with
  | true => rwa [hw] at hl
  | false =>
    have hle : op.precedence ≤ left.precedence := by simpa [wrapsLeft] using hw
    exact ih hl (Nat.lt_of_lt_of_le hlt (Nat.mul_le_mul_left 2 hle))

/-- What has enough parentheses has enough of them wherever its own operator is read. -/
theorem Writable.suffices_of_lt (h : e.Writable) (hs : e.bracketed.Suffices minPower)
    (hlt : minPower' < 2 * e.precedence) : e.bracketed.Suffices minPower' := by
  induction h generalizing minPower minPower' with
  | member _ => cases hs with | member hword => exact .member hword
  | literal _ => exact .literal
  | call _ _ _ _ _ => exact .call hs.arguments
  | unary _ _ _ => exact .unary hs.operand
  | binary _ _ _ _ ihl _ | membership _ _ _ ihl _ => exact suffices_binary_of_lt ihl hs hlt

/-- The operand of a spare pair left of an operator is a membership whose own operator is read
    there. -/
theorem suffices_left {left : Expr} {op : Operator} (hl : left.Writable)
    (hop : op.isUnary = false) (hspare : Pair.IsSpare ⟨minPower, .leftOf op, left⟩)
    (hs : left.bracketed.Suffices 0) :
    op.precedence ≤ left.bracketed.level ∧ left.bracketed.Suffices minPower := by
  cases left with
  | binary l op' r =>
    obtain ⟨hv, hpower⟩ := hspare
    have hlevel : (binary l op' r).bracketed.level = 6 := by
      simp [bracketed, Bracketed.level, hv]
    refine ⟨hlevel ▸ Operator.precedence_le_six hop, hl.suffices_of_lt hs ?_⟩
    have hone := op'.precedence_bounds.1
    unfold Operator.leftPower at hpower
    show minPower < 2 * op'.precedence
    omega
  | _ => exact hspare.elim

/-- The operand of a spare pair behind an operator is read wherever it stands. -/
theorem suffices_behind {inner : Expr} {op : Operator} (hinner : inner.Writable)
    (hspare : Pair.IsSpare ⟨minPower, .behind op, inner⟩) (hs : inner.bracketed.Suffices 0) :
    inner.bracketed.Suffices op.operandPower := by
  cases op with
  | neg =>
    cases inner with
    | unary op' e =>
      refine hinner.suffices_of_lt hs ?_
      show 13 < 2 * op'.precedence
      rw [Operator.precedence_of_isUnary hinner.operand.1]
      decide
    | literal l => exact .literal
    | _ => exact hspare.elim
  | _ => exact hspare.elim

/-- A minus in front of it is a token of its own. -/
theorem unsigned_behind {inner : Expr} {op : Operator} (hinner : inner.Writable)
    (hspare : Pair.IsSpare ⟨minPower, .behind op, inner⟩) :
    Unsigned inner.bracketed.text.toList := by
  cases op with
  | neg =>
    cases inner with
    | unary op' e => exact Bracketed.unsigned_opening hinner.operand.1 _
    | literal l => exact hspare
    | _ => exact hspare.elim
  | _ => exact hspare.elim

/-- What stands behind a minus is in parentheses or a call. -/
theorem Bared.unsigned (h : Bared minPower e pair b) (he : e.Writable) :
    Unsigned (enclosed (e.wrapsBehind .neg) b).text.toList := by
  cases h with
  | inArgument _ =>
    cases he with
    | call hname _ _ _ => exact unsigned_call hname _
  | _ => exact Token.unsigned_parens _

/-- Without a spare pair, an expression that has enough parentheses has enough of them. -/
theorem Bared.suffices (h : Bared minPower e pair b) (he : e.Writable) (hspare : pair.IsSpare)
    (hs : e.bracketed.Suffices minPower) : b.Suffices minPower := by
  induction h with
  | left hw =>
    obtain ⟨hop, hl⟩ := he.leftOperand
    obtain ⟨hpower, -, hsl⟩ := hs.leftOperand
    rw [suffices_enclosed, hw] at hsl
    obtain ⟨hlevel, hsl⟩ := suffices_left hl hop hspare hsl
    exact hs.with_left hpower hlevel hsl
  | right _ => exact hspare.elim
  | behind hw =>
    have hinner := hs.operand
    rw [suffices_enclosed, hw] at hinner
    exact .unary (suffices_behind he.operand.2 hspare hinner)
  | inLeft h ih =>
    obtain ⟨hpower, hlevel, hsl⟩ := hs.leftOperand
    rw [← Bracketed.level_enclosed h.level_eq] at hlevel
    exact hs.with_left hpower hlevel
      (suffices_enclosed.2 (ih he.leftOperand.2 hspare (suffices_enclosed.1 hsl)))
  | inRight h ih =>
    -- a value list is no operand, so that the operator is no membership
    obtain ⟨-, hv, hr⟩ := he.rightOperand h.ne_collection
    exact hs.with_right hv
      (suffices_enclosed.2 (ih hr hspare (suffices_enclosed.1 (hs.rightOperand hv))))
  | inOperand _ ih =>
    exact .unary (suffices_enclosed.2 (ih he.operand.2 hspare (suffices_enclosed.1 hs.operand)))
  | inArgument _ ih =>
    exact .call (forall_among hs.arguments (ih (he.arguments _ (by simp)) hspare))
  | inValue _ ih =>
    obtain ⟨hv, hvalues⟩ := he.values
    obtain ⟨hpower, hlevel, hsl⟩ := hs.leftOperand
    simp only [bracketed, wrapsRight_collection] at hs
    exact .membership hv hpower hlevel hsl
      (forall_among hs.values (ih (hvalues _ (by simp)) hspare))

/-- Without a spare pair, each minus is a token of its own if it was one. -/
theorem Bared.unfolded (h : Bared minPower e pair b) (he : e.Writable) (hspare : pair.IsSpare)
    (hu : e.bracketed.Unfolded) : b.Unfolded := by
  induction h with
  | left _ =>
    cases hu with
    | binary hl hr => exact .binary (unfolded_enclosed.1 hl) hr
  | right _ => exact hspare.elim
  | behind _ =>
    cases hu with
    | unary _ hinner =>
      exact .unary (fun _ => unsigned_behind he.operand.2 hspare) (unfolded_enclosed.1 hinner)
  | inLeft _ ih =>
    cases hu with
    | binary hl hr =>
      exact .binary (unfolded_enclosed.2 (ih he.leftOperand.2 hspare (unfolded_enclosed.1 hl))) hr
  | inRight h ih =>
    cases hu with
    | binary hl hr =>
      have hright := (he.rightOperand h.ne_collection).2.2
      exact .binary hl (unfolded_enclosed.2 (ih hright hspare (unfolded_enclosed.1 hr)))
  | inOperand h ih =>
    cases hu with
    | unary _ hinner =>
      refine .unary ?_ (unfolded_enclosed.2 (ih he.operand.2 hspare (unfolded_enclosed.1 hinner)))
      rintro rfl
      exact h.unsigned he.operand.2
  | inArgument _ ih =>
    cases hu with
    | call hargs => exact .call (forall_among hargs (ih (he.arguments _ (by simp)) hspare))
  | inValue _ ih =>
    cases hu with
    | binary hl hr =>
      cases unfolded_enclosed.1 hr with
      | collection hitems =>
        exact .binary hl (.collection
          (forall_among hitems (ih (he.values.2 _ (by simp)) hspare)))

end Expr

/-! ## Reading without one pair of parentheses -/

namespace Parser

open QueryExpr.Expr (Bared)

/-- Without one pair of the parentheses that are written around its operands, an expression is read
    back only if the pair is spare. Then it is read back if it is with the pair, under limits that
    cover the text. -/
theorem parse_bared {e : Expr} (he : e.Writable) {pair : Pair} {b : Bracketed}
    (hb : Bared 0 e pair b) :
    LosesPair pair.operand.text e.text b.text ∧
      (∀ limits, (⟨standard.resolvers, limits⟩ : Parser).ReadsAs b.text e → pair.IsSpare) ∧
      (pair.IsSpare → (∃ limits, (⟨standard.resolvers, limits⟩ : Parser).ReadsAs e.text e) →
        ∀ limits : Limits, b.text.toList.length < limits.maxDepth →
          b.text.toList.length ≤ limits.maxLength →
          (⟨standard.resolvers, limits⟩ : Parser).ReadsAs b.text e) := by
  have htree : b.tree = e := hb.tree_eq.trans he.tree_bracketed
  have hproper := hb.proper he
  refine ⟨?_, fun limits hreads => ?_, ?_⟩
  · rw [← he.text_bracketed, ← (hb.writable_operand he).text_bracketed]
    exact hb.losesPair
  · obtain ⟨hsuffices, hunfolded⟩ := hproper.suffices_of_readsAs (htree ▸ hreads)
    exact hb.isSpare he hsuffices hunfolded
  · rintro hspare ⟨limits, hreads⟩ limits' hdepth hlength
    have hwhole : (⟨standard.resolvers, limits⟩ : Parser).ReadsAs e.bracketed.text
        e.bracketed.tree := by
      rwa [he.text_bracketed, he.tree_bracketed]
    obtain ⟨hsuffices, hunfolded⟩ := he.proper.suffices_of_readsAs hwhole
    have hreads' := hproper.readsAs_of_suffices (hb.suffices he hspare hsuffices)
      (hb.unfolded he hspare hunfolded) hdepth hlength
    rwa [htree] at hreads'

/-- The right operand needs its parentheses, and the membership on the left does not. -/
theorem parse_bared_membership :
    let values : Expr := .binary (.member ⟨["a"]⟩) .isIn (.collection [.literal (.int 1)])
    let difference : Expr := .binary (.member ⟨["b"]⟩) .sub (.member ⟨["c"]⟩)
    let e : Expr := .binary values .sub difference
    e.Writable ∧ e.text = "(a in (1)) sub (b sub c)" ∧
      (∀ limits, ¬ (⟨standard.resolvers, limits⟩ : Parser).ReadsAs "(a in (1)) sub b sub c" e) ∧
      standard.ReadsAs "a in (1) sub (b sub c)" e := by
  intro values difference e
  have ha : Member.LexesBack ⟨["a"]⟩ := ⟨⟨_, rfl⟩, rfl⟩
  have hb : Member.LexesBack ⟨["b"]⟩ := ⟨⟨_, rfl⟩, rfl⟩
  have hc : Member.LexesBack ⟨["c"]⟩ := ⟨⟨_, rfl⟩, rfl⟩
  have hone : Literal.LexesBack (.int 1) := ⟨_, _, _, rfl, rfl, rfl⟩
  have hvalues : values.Writable :=
    .membership rfl (.member ha) (List.forall_mem_singleton.2 (.literal hone))
  have he : e.Writable := .binary rfl rfl hvalues (.binary rfl rfl (.member hb) (.member hc))
  have htext : e.text = "(a in (1)) sub (b sub c)" := rfl
  have hparse : (standard.parse "(a in (1)) sub (b sub c)").outcome = .ok (some e) := rfl
  have hread : standard.ReadsAs e.text e := ⟨e, htext ▸ hparse, rfl⟩
  have hright : Bared 0 e ⟨0, .rightOf .sub, difference⟩ _ := .right rfl
  have hleft : Bared 0 e ⟨0, .leftOf .sub, values⟩ _ := .left rfl
  obtain ⟨-, hneeded, -⟩ := parse_bared he hright
  obtain ⟨-, -, hspare⟩ := parse_bared he hleft
  refine ⟨he, htext, hneeded, ?_⟩
  exact hspare ⟨rfl, Nat.zero_le _⟩ ⟨_, hread⟩ .standard (by decide) (by decide)

/-- A minus behind a minus is read back without the parentheses around it. -/
theorem parse_minus_bared :
    let negative : Expr := .unary .neg (.member ⟨["x"]⟩)
    let e : Expr := .unary .neg negative
    e.Writable ∧ e.text = "-(-x)" ∧
      (∃ b, Bared 0 e ⟨0, .behind .neg, negative⟩ b ∧ b.text = "--x") ∧
      (standard.parse "--x").outcome = .ok (some e) := by
  intro negative e
  have hx : Member.LexesBack ⟨["x"]⟩ := ⟨⟨_, rfl⟩, rfl⟩
  exact ⟨.unary rfl (.unary rfl (.member hx)), rfl, ⟨_, .behind rfl, rfl⟩, rfl⟩

end Parser

end QueryExpr
