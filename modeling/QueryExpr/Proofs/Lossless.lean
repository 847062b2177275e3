import Mathlib.Data.List.Forall2
import QueryExpr.Expr.Json
import QueryExpr.Proofs.Durations
import QueryExpr.Proofs.Quotations
import QueryExpr.Proofs.Whitelist

/-!
# The JSON form loses nothing

Two expressions with the same JSON form are the same expression, as long as their literals are
written in full: floating-point numbers and moments are not among them, nor are durations with
negative seconds, for which there is no notation.

* `Json.Same`: equality of JSON values, where the order of the fields of an object does not matter.
* `Literal.Exact`: the literals that JSON writes in full.
* `Literal.same_of_json`, `Expr.same_of_json`: literals and expressions with the same JSON form are
  the same.
* `Expr.json_lossless`: the same, with the condition on the literals that stand in the trees.
-/

namespace QueryExpr

/-! ## Equality of JSON values -/

/-- The same value: arrays agree element by element, and objects have the same fields in any
    order. -/
inductive Json.Same : Json → Json → Prop where
  | null : Same .null .null
  | boolean (b) : Same (.boolean b) (.boolean b)
  | integer (n) : Same (.integer n) (.integer n)
  | floating (f v) : Same (.floating f v) (.floating f v)
  | string (s) : Same (.string s) (.string s)
  | array {as bs} (h : List.Forall₂ Same as bs) : Same (.array as) (.array bs)
  | object {fs gs : List (String × Json)}
      (h : ∀ name, Option.Rel Same (fs.lookup name) (gs.lookup name)) :
      Same (.object fs) (.object gs)

namespace Json

mutual

/-- Every value is the same as itself. -/
theorem Same.refl (j : Json) : Same j j := by
  cases j with
  | null => exact .null
  | boolean b => exact .boolean b
  | integer n => exact .integer n
  | floating f v => exact .floating f v
  | string s => exact .string s
  | array elements => exact .array (Same.reflAll elements)
  | object fields => exact .object (Same.reflFields fields)

theorem Same.reflAll (elements : List Json) : List.Forall₂ Same elements elements := by
  cases elements with
  | nil => exact .nil
  | cons element elements => exact .cons (Same.refl element) (Same.reflAll elements)

theorem Same.reflFields (fields : List (String × Json)) (name : String) :
    Option.Rel Same (fields.lookup name) (fields.lookup name) := by
  cases fields with
  | nil => exact .none
  | cons field fields =>
    obtain ⟨tag, value⟩ := field
    rw [List.lookup_cons]
    split
    · exact .some (Same.refl value)
    · exact Same.reflFields fields name

end

theorem eq_of_same_string {s t : String} (h : Same (.string s) (.string t)) : s = t := by
  cases h
  rfl

theorem eq_of_same_integer {m n : Int} (h : Same (.integer m) (.integer n)) : m = n := by
  cases h
  rfl

theorem eq_of_same_boolean {a b : Bool} (h : Same (.boolean a) (.boolean b)) : a = b := by
  cases h
  rfl

theorem forall₂_of_same_array {as bs : List Json} (h : Same (.array as) (.array bs)) :
    List.Forall₂ Same as bs := by
  cases h with
  | array h => exact h

/-- Lists whose elements are known from their JSON forms are known from theirs. -/
theorem eq_of_same_map {α : Type} {f : α → Json} (hf : ∀ {a b}, Same (f a) (f b) → a = b)
    {as bs : List α} (h : Same (.array (as.map f)) (.array (bs.map f))) : as = bs := by
  have hall := forall₂_of_same_array h
  rw [List.forall₂_map_left_iff, List.forall₂_map_right_iff] at hall
  exact List.forall₂_eq_eq_eq ▸ hall.imp fun _ _ => hf

/-- The values of a field in objects that are the same. -/
theorem same_of_field {fs gs : List (String × Json)} (h : Same (.object fs) (.object gs))
    (name : String) {v w : Json} (hv : fs.lookup name = some v) (hw : gs.lookup name = some w) :
    Same v w := by
  cases h with
  | object h =>
    have hvalues := h name
    rw [hv, hw] at hvalues
    cases hvalues with
    | some hvw => exact hvw

/-- Objects with one field have the same field. -/
theorem same_of_tagged {tag tag' : String} {v w : Json} (h : Same (tagged tag v) (tagged tag' w)) :
    tag = tag' ∧ Same v w := by
  cases h with
  | object h =>
    have hvalues := h tag
    by_cases htag : tag = tag'
    · rw [htag, List.lookup_cons_self, List.lookup_cons_self] at hvalues
      cases hvalues with
      | some hvw => exact ⟨htag, hvw⟩
    · have hnone : List.lookup tag [(tag', w)] = none := by
        rw [List.lookup_cons, beq_false_of_ne htag]
        rfl
      rw [hnone, List.lookup_cons_self] at hvalues
      cases hvalues

end Json

/-! ## Texts of values -/

namespace Number.Decimal

/-- Decimals of the value of a third one are of one value. -/
theorem same_of_same {a b d : Decimal} (ha : d.same a = true) (hb : d.same b = true) :
    a.same b = true := by
  simp only [same, beq_iff_eq] at ha hb ⊢
  have hpow : (Nat.pow 10 d.scale : Int) ≠ 0 :=
    Int.natCast_ne_zero.2 (Nat.ne_of_gt (Nat.pow_pos (by decide)))
  apply Int.eq_of_mul_eq_mul_right hpow
  calc a.units * Nat.pow 10 b.scale * Nat.pow 10 d.scale
    _ = a.units * Nat.pow 10 d.scale * Nat.pow 10 b.scale := Int.mul_right_comm _ _ _
    _ = d.units * Nat.pow 10 b.scale * Nat.pow 10 a.scale := by rw [← ha, Int.mul_right_comm]
    _ = b.units * Nat.pow 10 a.scale * Nat.pow 10 d.scale := by rw [hb, Int.mul_right_comm]

theorem eq_of_text {a b : Decimal} (h : a.text = b.text) : a = b := by
  have hread := readPlain_chars a
  rw [String.ofList_inj.1 h, readPlain_chars b] at hread
  exact (Option.some.inj hread).symm

end Number.Decimal

/-- Durations of one text have the same components, those that are zero among them. -/
theorem Temporal.Duration.same_of_text {a b : Duration} (ha : 0 ≤ a.seconds.units)
    (hb : 0 ≤ b.seconds.units) (h : a.text = b.text) : a.same b = true := by
  have hread := read_chars ha
  rw [String.ofList_inj.1 h, read_chars hb] at hread
  have hsettled : b.settled = a.settled := Option.some.inj hread
  obtain ⟨_, _, _, _, _, _, seconds⟩ := a
  obtain ⟨_, _, _, _, _, _, seconds'⟩ := b
  simp only [settled, mk.injEq] at hsettled
  obtain ⟨rfl, rfl, rfl, rfl, rfl, rfl, hseconds⟩ := hsettled
  have hstrip := seconds.strip_same
  rw [← hseconds] at hstrip
  simp [same, Number.Decimal.same_of_same hstrip seconds'.strip_same]

theorem Bytes.Guid.eq_of_text {a b : Guid} (h : a.text = b.text) : a = b := by
  have hread := read_chars a
  rw [String.ofList_inj.1 h, read_chars b] at hread
  cases hread
  rfl

/-- The operator that a name in the JSON form stands for. -/
def Operator.ofCanonical? (name : String) : Option Operator :=
  [not, neg, mul, div, mod, add, sub, lt, gt, le, ge, eq, ne, isIn, notIn, and, or].find?
    (·.canonical == name)

theorem Operator.ofCanonical?_canonical (op : Operator) : ofCanonical? op.canonical = some op := by
  cases op <;> rfl

theorem Operator.eq_of_canonical {o p : Operator} (h : o.canonical = p.canonical) : o = p := by
  have hop := ofCanonical?_canonical o
  rw [h, ofCanonical?_canonical p] at hop
  exact (Option.some.inj hop).symm

/-! ## Literals -/

/-- JSON writes the literal in full. -/
def Literal.Exact : Literal → Prop
  | single _ | double _ | dateTime _ => False
  | duration d => 0 ≤ d.seconds.units
  | _ => True

/-- Literals with the same JSON form are the same. -/
theorem Literal.same_of_json {a b : Literal} (ha : a.Exact) (hb : b.Exact)
    (h : Json.Same a.json b.json) : a.same b = true := by
  -- literals of two kinds have different tags, and null alone is no object
  cases a <;> cases b <;>
    try first
      | exact absurd (Json.same_of_tagged h).1 (by decide)
      | (cases h; done)
  case null.null => rfl
  case string.string s t => exact beq_iff_eq.2 (Json.eq_of_same_string (Json.same_of_tagged h).2)
  case boolean.boolean s t => exact beq_iff_eq.2 (Json.eq_of_same_boolean (Json.same_of_tagged h).2)
  case single.single v w => exact ha.elim
  case double.double v w => exact ha.elim
  case decimal.decimal d e =>
    have hd : d = e := Number.Decimal.eq_of_text (Json.eq_of_same_string (Json.same_of_tagged h).2)
    exact hd ▸ beq_self_eq_true _
  case int.int m n =>
    exact beq_iff_eq.2 (Int32.toInt_inj.1 (Json.eq_of_same_integer (Json.same_of_tagged h).2))
  case long.long m n =>
    exact beq_iff_eq.2 (Int64.toInt_inj.1 (Json.eq_of_same_integer (Json.same_of_tagged h).2))
  case binary.binary as bs =>
    have hbyte : ∀ {b b' : UInt8}, Json.Same (.integer b.toNat) (.integer b'.toNat) → b = b' :=
      fun hsame => UInt8.toNat_inj.1 (Int.ofNat_inj.1 (Json.eq_of_same_integer hsame))
    exact beq_iff_eq.2 (Json.eq_of_same_map hbyte (Json.same_of_tagged h).2)
  case dateTime.dateTime m n => exact ha.elim
  case guid.guid g g' =>
    exact beq_iff_eq.2 (Bytes.Guid.eq_of_text (Json.eq_of_same_string (Json.same_of_tagged h).2))
  case duration.duration d e =>
    exact Temporal.Duration.same_of_text ha hb (Json.eq_of_same_string (Json.same_of_tagged h).2)

/-! ## Expressions -/

namespace Expr

/-- JSON writes the literal in full, if the node is one. -/
def ExactNode : Expr → Prop
  | literal l => l.Exact
  | _ => True

mutual

/-- Expressions with the same JSON form are the same. -/
theorem same_of_json {e f : Expr} (he : e.All ExactNode) (hf : f.All ExactNode)
    (h : Json.Same e.json f.json) : e.same f = true := by
  -- the tags of two kinds of nodes differ; the tag of a byte string is inside that of a literal
  cases e <;> cases f <;>
    try exact absurd (Json.same_of_tagged h).1 (by decide)
  all_goals have hbody := (Json.same_of_tagged h).2
  case member.member m n =>
    have hpath : m.path = n.path :=
      Json.eq_of_same_map Json.eq_of_same_string (Json.same_of_field hbody "path" rfl rfl)
    exact beq_iff_eq.2 (congrArg Member.mk hpath)
  case literal.literal a b =>
    exact Literal.same_of_json (all_literal.1 he) (all_literal.1 hf) hbody
  case call.call name args name' args' =>
    have hname := Json.eq_of_same_string (Json.same_of_field hbody "name" rfl rfl)
    have hargs := sameAll_of_json (all_call.1 he).2 (all_call.1 hf).2
      (Json.forall₂_of_same_array (Json.same_of_field hbody "args" rfl rfl))
    simp [same, hname, hargs]
  case binary.binary left op right left' op' right' =>
    have hop := Json.eq_of_same_string (Json.same_of_field hbody "op" rfl rfl)
    have hleft := same_of_json (all_binary.1 he).2.1 (all_binary.1 hf).2.1
      (Json.same_of_field hbody "left" rfl rfl)
    have hright := same_of_json (all_binary.1 he).2.2 (all_binary.1 hf).2.2
      (Json.same_of_field hbody "right" rfl rfl)
    simp [same, Operator.eq_of_canonical hop, hleft, hright]
  case unary.unary op inner op' inner' =>
    have hop := Json.eq_of_same_string (Json.same_of_field hbody "op" rfl rfl)
    have hinner := same_of_json (all_unary.1 he).2 (all_unary.1 hf).2
      (Json.same_of_field hbody "operand" rfl rfl)
    simp [same, Operator.eq_of_canonical hop, hinner]
  case collection.collection items items' =>
    exact sameAll_of_json (all_collection.1 he).2 (all_collection.1 hf).2
      (Json.forall₂_of_same_array hbody)

theorem sameAll_of_json {es fs : List Expr} (hes : ∀ e ∈ es, e.All ExactNode)
    (hfs : ∀ f ∈ fs, f.All ExactNode)
    (h : List.Forall₂ Json.Same (json.jsonAll es) (json.jsonAll fs)) :
    same.sameAll es fs = true := by
  cases es with
  | nil =>
    cases fs with
    | nil => rfl
    | cons f fs => cases h
  | cons e es =>
    cases fs with
    | nil => cases h
    | cons f fs =>
      rw [List.forall_mem_cons] at hes hfs
      cases h with
      | cons hhead htail =>
        simp [same.sameAll, same_of_json hes.1 hfs.1 hhead, sameAll_of_json hes.2 hfs.2 htail]

end

theorem all_exactNode {e : Expr} (h : ∀ l, literal l ∈ e.walk → l.Exact) : e.All ExactNode := by
  intro node hnode
  cases node with
  | literal l => exact h l hnode
  | _ => trivial

/-- Expressions whose literals JSON writes in full are the same if their JSON forms are. -/
theorem json_lossless {e f : Expr} (he : ∀ l, literal l ∈ e.walk → l.Exact)
    (hf : ∀ l, literal l ∈ f.walk → l.Exact) (h : Json.Same e.json f.json) : e.same f = true :=
  same_of_json (all_exactNode he) (all_exactNode hf) h

/-- Trees whose seconds have 1.5 and 1.50 for a value have one JSON form. -/
theorem json_lossless_seconds :
    let tree (seconds : Number.Decimal) : Expr :=
      .binary (.call "f" [.member ⟨["a", "b"]⟩, .literal (.binary [1, 255])]) .isIn
        (.collection [.literal .null, .literal (.duration ⟨true, 0, 0, 0, 0, 1, seconds⟩)])
    let short : Number.Decimal := ⟨15, 1, by decide, by decide⟩
    let long : Number.Decimal := ⟨150, 2, by decide, by decide⟩
    tree short ≠ tree long ∧ (tree short).same (tree long) = true := by
  intro tree short long
  have htext : Temporal.Duration.text ⟨true, 0, 0, 0, 0, 1, short⟩ =
      Temporal.Duration.text ⟨true, 0, 0, 0, 0, 1, long⟩ := by decide +kernel
  have hjson : (tree short).json = (tree long).json := by
    simp only [tree, json, json.jsonAll, Literal.json, htext]
  refine ⟨by simp [tree, short, long], json_lossless ?_ ?_ (hjson ▸ Json.Same.refl _)⟩
  · simp [tree, short, walk, walk.walkAll, Literal.Exact]
  · simp [tree, long, walk, walk.walkAll, Literal.Exact]

end Expr

end QueryExpr
