import QueryExpr.Proofs.Lockstep
import QueryExpr.Proofs.Precedence
import QueryExpr.Proofs.Rescan
import QueryExpr.Proofs.Whitelist

/-!
# The shape of what is read

Whoever translates a tree relies on more than the type of trees says: which operators have one
operand, where value lists stand, what strings are made of, and what the path of a member is.

* `Expr.Shaped`: operators and value lists stand where they belong.
* `Reads.shaped`: trees that are read are of this shape, if calls keep their arguments.
* `ProperPath`: a path of segments as names have them.
* `Lexer.proper_of_tokenize`: tokens have proper paths and strings of plain characters.
* `Run.Proper.lockstep`: so have requests and trees, whether or not the reading comes to an end.
* `Parser.shaped_of_tables`: both hold of whatever is returned and asked.
-/

namespace QueryExpr

/-! ## Trees -/

/-- Unary operators have one operand and binary operators two, the right operand of a membership is
    a value list, and there are no other value lists. -/
inductive Expr.Shaped : Expr → Prop where
  | member (m) : Shaped (.member m)
  | literal (l) : Shaped (.literal l)
  | call (name) {args} (h : ∀ arg ∈ args, Shaped arg) : Shaped (.call name args)
  | unary {op inner} (hop : op.isUnary = true) (h : Shaped inner) : Shaped (.unary op inner)
  | binary {left op right} (hop : op.isUnary = false) (hv : op.takesValues = false)
      (hl : Shaped left) (hr : Shaped right) : Shaped (.binary left op right)
  | membership {left op items} (hv : op.takesValues = true) (hl : Shaped left)
      (h : ∀ item ∈ items, Shaped item) : Shaped (.binary left op (.collection items))

/-- A string has plain characters only. -/
def Expr.PlainString : Expr → Prop
  | literal (.string s) => ∀ c ∈ s.toList, Text.isPlain c = true
  | _ => True

/-- The arguments of a resolved call are among those it was asked with. -/
def Resolvers.KeepsArguments (r : Resolvers) : Prop :=
  ∀ name args c, r.methods.resolve name args = .ok c → ∀ arg ∈ c.args, arg ∈ args

/-- A registry of tables resolves a call with its arguments, in whatever order. -/
theorem Registry.args_perm {registry : Registry} {tables : List MethodTable}
    (htables : registry.strategies = tables.map MethodTable.toStrategy) {name : String}
    {args : List Expr} {c : Call} (h : registry.resolve name args = .ok c) : c.args.Perm args := by
  obtain ⟨t, -, hresolve⟩ := resolve_eq_ok htables h
  obtain ⟨entry, -, hconstruct⟩ := MethodTable.resolve_eq_ok hresolve
  exact (MethodSpec.construct_eq_ok hconstruct).2.2

theorem Registry.keepsArguments {registry : Registry} {tables : List MethodTable}
    (htables : registry.strategies = tables.map MethodTable.toStrategy) (members : MemberResolver) :
    Resolvers.KeepsArguments ⟨members, registry.resolver⟩ :=
  fun _ _ _ h _ harg => (args_perm htables h).mem_iff.1 harg

namespace Reading

theorem isUnary_of_unary? {t : Token} {op : Operator} (h : t.kind.unary? = some op) :
    op.isUnary = true := by
  rcases unary?_eq_some h with ⟨-, rfl⟩ | ⟨-, rfl⟩ <;> rfl

theorem isUnary_of_nextOperator? {minPower : Nat} {ts : List Token} {op : Operator}
    (h : nextOperator? minPower ts = some op) : op.isUnary = false := by
  obtain ⟨t, ts, rfl⟩ := eq_cons_of_nextOperator? h
  obtain ⟨word, -, hbinary⟩ := binary?_eq_some (nextOperator?_eq_some.1 h).1
  exact (keyword_of_binary? hbinary).2

/-- What a part of the reader makes is shaped. A value list is a collection, the only one; a chain
    makes what it does of a left operand that is shaped. -/
def Part.Shapes (e : Expr) : Part → Prop
  | .expression _ | .operand => e.Shaped
  | .chain _ left => left.Shaped → e.Shaped
  | .values | .items => ∃ items, e = .collection items ∧ ∀ item ∈ items, item.Shaped

theorem Reads.shaped {r : Resolvers} (hr : r.KeepsArguments) {part : Part} {ts rest : List Token}
    {qs : List Request} {e : Expr} (h : Reads r part ts qs e rest) : part.Shapes e := by
  induction h with
  | expression _ _ ihf ihm => exact ihm ihf
  | unary ht _ ih => exact .unary (isUnary_of_unary? ht) ih
  | literal _ _ => exact .literal _
  | parens _ _ _ ih | values _ _ ih => exact ih
  | call _ _ _ hc ih =>
    obtain ⟨items, heq, hitems⟩ := ih
    obtain rfl := Expr.collection.inj heq
    exact .call _ fun arg harg => hitems arg (hr _ _ _ hc arg harg)
  | member _ _ _ _ => exact .member _
  | stop _ => exact id
  | binary hop hv _ _ iho ihm =>
    intro hleft
    exact ihm (.binary (isUnary_of_nextOperator? hop) hv hleft iho)
  | membership hop hv _ _ ihl ihm =>
    intro hleft
    obtain ⟨items, rfl, hitems⟩ := ihl
    exact ihm (.membership hv hleft hitems)
  | noValues _ _ => exact ⟨[], rfl, by simp⟩
  | lastItem _ _ ih => exact ⟨_, rfl, List.forall_mem_singleton.2 ih⟩
  | nextItem _ _ _ ihi ihm =>
    obtain ⟨items, heq, hitems⟩ := ihm
    obtain rfl := Expr.collection.inj heq
    exact ⟨_, rfl, List.forall_mem_cons.2 ⟨ihi, hitems⟩⟩

end Reading

/-! ## Paths -/

/-- Some segments that are not empty and have no slash, of which the first begins like a word. -/
structure ProperPath (path : List String) : Prop where
  nonempty : path ≠ []
  segments : ∀ segment ∈ path, segment ≠ "" ∧ '/' ∉ segment.toList
  starts : ∀ first ∈ path.head?, Token.startsWord first.toList = true

namespace Text.Segments

theorem splitChars_of_ne {sep c : Char} {cs first : List Char} {others : List (List Char)}
    (hc : c ≠ sep) (h : splitChars sep cs = first :: others) :
    splitChars sep (c :: cs) = (c :: first) :: others := by
  simp [splitChars, hc, h]

/-- No segment has the separator in it. -/
theorem not_mem_of_mem_splitChars {sep : Char} {cs : List Char} :
    ∀ segment ∈ splitChars sep cs, sep ∉ segment := by
  induction cs with
  | nil => simp [splitChars]
  | cons c cs ih =>
    by_cases hc : c = sep
    · rw [splitChars, if_pos hc]
      exact List.forall_mem_cons.2 ⟨List.not_mem_nil, ih⟩
    · obtain ⟨first, others, hcs⟩ := List.exists_cons_of_ne_nil (splitChars_ne_nil sep cs)
      rw [hcs] at ih
      obtain ⟨hfirst, hothers⟩ := List.forall_mem_cons.1 ih
      rw [splitChars_of_ne hc hcs]
      refine List.forall_mem_cons.2 ⟨?_, hothers⟩
      rw [List.mem_cons, not_or]
      exact ⟨Ne.symm hc, hfirst⟩

end Text.Segments

namespace Token

open Text.Segments (splitChars)

/-- Behind each slash of a name a word begins. -/
theorem splitChars_of_splitName {cs : List Char} (h : (splitName cs).1 = cs) :
    ∃ first others, splitChars '/' cs = first :: others ∧ (∀ segment ∈ others, segment ≠ []) ∧
      (startsWord cs = true → startsWord first = true) := by
  induction cs with
  | nil => exact ⟨[], [], rfl, by simp, id⟩
  | cons c cs ih =>
    simp only [splitName] at h
    split at h
    next hc =>
      obtain ⟨first, others, hcs, hothers, hfirst⟩ := ih (List.cons.inj h).2
      by_cases hslash : c = '/'
      · subst hslash
        have hslash : Text.isNameChar '/' = false := by decide
        rw [hslash, Bool.false_or, Bool.and_eq_true] at hc
        refine ⟨[], first :: others, ?_, ?_, ?_⟩
        · rw [splitChars, if_pos rfl, hcs]
        · refine List.forall_mem_cons.2 ⟨?_, hothers⟩
          rintro rfl
          cases hfirst hc.2
        · intro hstart
          have : Text.isNameStart '/' = false := by decide
          rw [startsWord, this] at hstart
          cases hstart
      · exact ⟨c :: first, others, Text.Segments.splitChars_of_ne hslash hcs, hothers, id⟩
    next => cases h

theorem properPath_of_splitName {word : String} (hstart : startsWord word.toList = true)
    (h : (splitName word.toList).1 = word.toList) : ProperPath (pathSegments word) := by
  obtain ⟨first, others, hsplit, hothers, hfirst⟩ := splitChars_of_splitName h
  have hword := hfirst hstart
  have hne : first ≠ [] := by
    rintro rfl
    cases hword
  have hsegments : ∀ segment ∈ first :: others, segment ≠ [] ∧ '/' ∉ segment := by
    intro segment hmem
    refine ⟨?_, Text.Segments.not_mem_of_mem_splitChars segment (hsplit ▸ hmem)⟩
    rcases List.mem_cons.1 hmem with rfl | hmem
    · exact hne
    · exact hothers segment hmem
  have hpath : pathSegments word = (first :: others).map String.ofList := by
    rw [← hsplit]
    rfl
  rw [hpath]
  refine ⟨by simp, ?_, ?_⟩
  · intro segment hmem
    obtain ⟨chars, hchars, rfl⟩ := List.mem_map.1 hmem
    rw [ne_eq, ← String.toList_eq_nil_iff, String.toList_ofList]
    exact hsegments chars hchars
  · rintro _ ⟨⟩
    rw [String.toList_ofList]
    exact hword

/-! ## Tokens -/

/-- A string has plain characters only, and the path of a name is proper. -/
def Kind.Proper : Kind → Prop
  | literal raw => PlainBody raw
  | name word => ProperPath (pathSegments word)
  | mark _ => True

theorem proper_of_scan {afterOperand : Bool} {c : Char} {cs : List Char} {kind : Kind}
    (h : (scan afterOperand c cs).outcome = .ok kind) : kind.Proper := by
  cases kind with
  | literal raw => exact plainBody_of_scan h
  | mark m => trivial
  | name word =>
    obtain ⟨hstart, hword, -⟩ := name_of_scan h
    apply properPath_of_splitName
    · rw [hword, splitName, if_pos (by simp [Text.isNameChar_of_isNameStart hstart])]
      exact hstart
    · rw [hword, splitName_splitName]

end Token

/-- What holds of whatever a scan gives holds of all tokens. -/
theorem Lexer.forall_of_cuts {P : Token.Kind → Prop}
    (hP : ∀ afterOperand c cs kind, (Token.scan afterOperand c cs).outcome = .ok kind → P kind)
    {afterOperand : Bool} {before cs : List Char} {ts : List Token}
    (h : Cuts afterOperand before cs ts) : ∀ t ∈ ts, P t.kind := by
  induction h with
  | done => simp
  | token _ _ hscan _ ih =>
    exact List.forall_mem_cons.2 ⟨hP _ _ _ _ (congrArg Token.Scan.outcome hscan), ih⟩

theorem Lexer.proper_of_tokenize {text : String} {ts : List Token} (h : tokenize text = .ok ts) :
    ∀ t ∈ ts, t.kind.Proper :=
  forall_of_cuts (fun _ _ _ _ => Token.proper_of_scan) (cuts_of_tokenize h)

/-! ## Readings of proper tokens -/

/-- A literal is a string only if its body is that of a string. -/
theorem Literal.Raw.eq_of_value_string {raw : Raw} {s : String} (h : raw.value = .ok (.string s)) :
    raw.kind = .string ∧ raw.body = s := by
  unfold value at h
  cases hkind : raw.kind with
  | string =>
    simp only [hkind] at h
    cases h
    exact ⟨rfl, rfl⟩
  | single | double =>
    simp only [hkind, Lexer.map_eq_ok] at h
    obtain ⟨_, -, h⟩ := h
    cases h
  | null =>
    simp only [hkind] at h
    cases h
  | _ =>
    simp only [hkind] at h
    repeat' split at h
    all_goals cases h

/-- A plain body has a plain string as its value, if a string at all. -/
theorem Literal.Raw.plainString_of_value {raw : Raw} {l : Literal} (hraw : Token.PlainBody raw)
    (hvalue : raw.value = .ok l) : (Expr.literal l).PlainString := by
  cases l with
  | string s =>
    obtain ⟨hkind, rfl⟩ := eq_of_value_string hvalue
    exact hraw hkind
  | _ => trivial

namespace Reading

variable {α β γ δ : Type}

/-- The path of a member is proper. -/
def Request.Proper : Request → Prop
  | .member path => ProperPath path
  | .method _ _ => True

/-- Whatever is asked is proper, and the ends are related. -/
structure Run.Proper (R : α → β → Prop) (run : Run α) (run' : Run β) : Prop where
  requests : ∀ q ∈ run.requests, q.Proper
  ends : Ends R run.outcome run'.outcome

namespace Run.Proper

variable {R : α → β → Prop} {S : γ → δ → Prop}

theorem pure {a : α} {b : β} (h : R a b) : Proper R (pure a) (pure b) :=
  ⟨by rintro _ ⟨⟩, .ok h⟩

theorem fail (f : Fault) : Proper R (fail f) (fail f) := ⟨by rintro _ ⟨⟩, .error f⟩

theorem enter (p : Phase) : Proper (fun _ _ => True) (Run.enter p) (Run.enter p) :=
  ⟨by rintro _ ⟨⟩, .ok trivial⟩

theorem bind {run : Run α} {run' : Run β} {f : α → Run γ} {g : β → Run δ}
    (h : Proper R run run') (hf : ∀ a b, R a b → Proper S (f a) (g b)) :
    Proper S (run >>= f) (run' >>= g) := by
  rcases h.ends.values_or_fault with ⟨a, b, hrun, hrun', hab⟩ | ⟨fault, hrun, hrun'⟩
  · have hfg := hf a b hab
    constructor
    · rw [requests_bind_ok hrun]
      intro q hq
      exact (List.mem_append.1 hq).elim (h.requests q) (hfg.requests q)
    · rw [outcome_bind_ok hrun, outcome_bind_ok hrun']
      exact hfg.ends
  · rw [bind_error hrun, bind_error hrun']
    exact ⟨h.requests, .error fault⟩

theorem ask {q : Request} (hq : q.Proper) {notes : List Note} {answer : Except Fault α}
    {R : α → α → Prop} (hR : ∀ a, answer = .ok a → R a a) :
    Proper R (Run.ask q notes answer) (Run.ask q notes answer) := by
  constructor
  · rw [requests_ask]
    simpa using hq
  · rw [outcome_ask]
    cases answer with
    | ok a => exact .ok (hR a rfl)
    | error f => exact .error f

/-- The same expression, of which all strings are plain. -/
def Trees (e e' : Expr) : Prop := e.All Expr.PlainString ∧ e = e'

theorem forall₂_trees {es es' : List Expr} (h : List.Forall₂ Trees es es') :
    (∀ e ∈ es, e.All Expr.PlainString) ∧ es = es' := by
  obtain ⟨hall, heq⟩ := (List.forall₂_and_left _ _).1 h
  exact ⟨hall, List.forall₂_eq_eq_eq ▸ heq⟩

theorem literalValue {raw : Literal.Raw} (hraw : Token.PlainBody raw) (span : Span) :
    Proper Trees (literalValue raw span) (literalValue raw span) := by
  unfold Reading.literalValue
  split
  next l hvalue =>
    exact pure ⟨Expr.all_literal.2 (Literal.Raw.plainString_of_value hraw hvalue), rfl⟩
  next => exact fail _

theorem member {word : String} (hword : ProperPath (pathSegments word)) (r : Resolvers) :
    Proper Trees (member r word) (member r word) := by
  refine bind (enter .member) fun _ _ _ => ?_
  refine bind (ask (q := .member _) hword (R := fun a b => a = b) fun _ _ => rfl) ?_
  rintro m _ rfl
  exact bind (enter .expression) fun _ _ _ => pure ⟨Expr.all_member.2 trivial, rfl⟩

variable {r : Resolvers} (hr : r.KeepsArguments)

include hr in
theorem call (word : String) {args : List Expr} (hargs : ∀ arg ∈ args, arg.All Expr.PlainString) :
    Proper Trees (call r word args) (call r word args) := by
  refine bind (ask (q := .method _ _) trivial
    (R := fun (a b : Call) => (∀ arg ∈ a.args, arg ∈ args) ∧ a = b)
    fun c hc => ⟨hr _ _ _ (mapError_eq_ok.1 hc), rfl⟩) ?_
  rintro c _ ⟨hc, rfl⟩
  refine bind (enter .expression) fun _ _ _ => pure ⟨?_, rfl⟩
  exact Expr.all_call.2 ⟨trivial, fun arg harg => hargs arg (hc arg harg)⟩

include hr in
/-- A reading of proper tokens is in step with itself, and all it asks and makes is proper. -/
def lockstep : Lockstep r r where
  Values := Trees
  Tokens t t' := t.kind.Proper ∧ t = t'
  Runs R run run' := Proper R run run'
  kind_eq h := congrArg Token.kind h.2
  unary op := by
    rintro e _ ⟨he, rfl⟩
    exact ⟨Expr.all_unary.2 ⟨trivial, he⟩, rfl⟩
  binary op := by
    rintro e _ f _ ⟨he, rfl⟩ ⟨hf, rfl⟩
    exact ⟨Expr.all_binary.2 ⟨trivial, he, hf⟩, rfl⟩
  collection h := by
    obtain ⟨hall, rfl⟩ := forall₂_trees h
    exact ⟨Expr.all_collection.2 ⟨trivial, hall⟩, rfl⟩
  pure := pure
  grammar _ _ := fail _
  bind := bind
  enter := enter
  literal := by
    rintro t _ raw ⟨ht, rfl⟩ hraw
    rw [hraw] at ht
    exact literalValue ht t.span
  member := by
    rintro t _ word ⟨ht, rfl⟩ hword
    rw [hword] at ht
    exact member ht r
  call word _ _ hargs := by
    obtain ⟨hall, rfl⟩ := forall₂_trees hargs
    exact call hr word hall

/-- What is true of the value of a run in step with itself. -/
theorem of_outcome {R : α → α → Prop} {run : Run α} (h : Proper R run run) {a : α}
    (ha : run.outcome = .ok a) : R a a := by
  rcases h.ends.values_or_fault with ⟨b, c, hb, hc, hbc⟩ | ⟨f, hf, -⟩
  · rw [ha] at hb hc
    cases hb
    cases hc
    exact hbc
  · rw [ha] at hf
    cases hf

end Run.Proper

end Reading

/-! ## Texts -/

namespace Parser

open Reading (Run)

variable {p : Parser}

/-- What holds of the runs over proper tokens holds of what is reported. -/
theorem report_proper {α : Type} {mode : Reading.Mode}
    {read : Resolvers → Nat → List Token → Run α} {R : α → α → Prop}
    (hread : ∀ ts, (∀ t ∈ ts, t.kind.Proper) → Run.Proper R (read p.resolvers p.limits.maxDepth ts)
      (read p.resolvers p.limits.maxDepth ts)) (text : String) :
    (∀ q ∈ (p.report mode read text).requests, q.Proper) ∧
      ∀ a, (p.report mode read text).outcome = .ok a → R a a := by
  rw [report]
  split
  next => exact ⟨by rintro _ ⟨⟩, by rintro _ ⟨⟩⟩
  next ts hts =>
    have hrun := hread ts (Lexer.proper_of_tokenize (tokens_eq_ok.1 hts).2)
    exact ⟨hrun.requests, fun a ha => hrun.of_outcome (Run.mapError_eq_ok.1 ha)⟩

variable (hr : p.resolvers.KeepsArguments)

include hr

omit hr in
theorem tokens_self {ts : List Token} (hts : ∀ t ∈ ts, t.kind.Proper) :
    List.Forall₂ (fun t t' : Token => t.kind.Proper ∧ t = t') ts ts :=
  List.forall₂_same.2 fun t ht => ⟨hts t ht, rfl⟩

theorem parse_proper (text : String) :
    (∀ q ∈ (p.parse text).requests, q.Proper) ∧
      ∀ e?, (p.parse text).outcome = .ok e? → Option.Rel Run.Proper.Trees e? e? := by
  refine report_proper (fun ts hts => ?_) text
  exact Reading.Lockstep.filter ((Run.Proper.lockstep hr).expression _ 0) (tokens_self hts)

theorem parseOrderBy_proper (text : String) :
    (∀ q ∈ (p.parseOrderBy text).requests, q.Proper) ∧
      ∀ items, (p.parseOrderBy text).outcome = .ok items →
        List.Forall₂ (Run.Proper.lockstep hr).OrderItems items items := by
  refine report_proper (fun ts hts => ?_) text
  exact Reading.Lockstep.wholeList
    (Reading.Lockstep.orderItem ((Run.Proper.lockstep hr).expression _ 0)) (tokens_self hts)

theorem parseSelect_proper (text : String) :
    (∀ q ∈ (p.parseSelect text).requests, q.Proper) ∧
      ∀ items, (p.parseSelect text).outcome = .ok items →
        List.Forall₂ (Run.Proper.lockstep hr).SelectItems items items := by
  refine report_proper (fun ts hts => ?_) text
  exact Reading.Lockstep.wholeList
    (Reading.Lockstep.selectItem ((Run.Proper.lockstep hr).expression _ 0)) (tokens_self hts)

theorem Yields.plainStrings {text : String} {e : Expr} (h : p.Yields text e) :
    e.All Expr.PlainString := by
  cases h with
  | filter h =>
    cases (parse_proper hr text).2 _ h with
    | some he => exact he.1
  | ordering h hitem =>
    have hitems := (parseOrderBy_proper hr text).2 _ h
    exact (List.forall₂_same.1 hitems _ hitem).1.1
  | selection h hitem =>
    have hitems := (parseSelect_proper hr text).2 _ h
    exact (List.forall₂_same.1 hitems _ hitem).1.1

theorem Yields.shaped {text : String} {e : Expr} (h : p.Yields text e) : e.Shaped := by
  obtain ⟨_, _, _, hread⟩ := h.reads
  exact hread.shaped hr

omit hr

/-- With tables of methods and any resolver of members, the operators and value lists of every
    returned tree stand where they belong and its strings have plain characters only. Every path
    that is asked for is proper, also where the text is not read to its end. -/
theorem shaped_of_tables (members : MemberResolver) (tables : List MethodTable)
    (registry : Registry) (htables : registry.strategies = tables.map MethodTable.toStrategy)
    (limits : Limits) (text : String) :
    let p : Parser := ⟨⟨members, registry.resolver⟩, limits⟩
    (∀ e, p.Yields text e → e.Shaped ∧ ∀ node ∈ e.walk, node.PlainString) ∧
      ∀ q, q ∈ (p.parse text).requests ∨ q ∈ (p.parseOrderBy text).requests ∨
        q ∈ (p.parseSelect text).requests → q.Proper := by
  intro p
  have hr : p.resolvers.KeepsArguments := Registry.keepsArguments htables members
  constructor
  · intro e he
    exact ⟨he.shaped hr, he.plainStrings hr⟩
  · rintro q (hq | hq | hq)
    · exact (parse_proper hr text).1 q hq
    · exact (parseOrderBy_proper hr text).1 q hq
    · exact (parseSelect_proper hr text).1 q hq

/-- A value list with a call whose arguments have changed places, and a text that is not read to
    its end though a path has been asked for. -/
theorem shaped_of_tables_substringof :
    let p := standard
    let call : Expr := .call "contains" [.member ⟨["author", "name"]⟩, .literal (.string "it's")]
    let e : Expr := .binary (.literal (.boolean true)) .isIn (.collection [call])
    Registry.standard.strategies = MethodTable.standardTables.map MethodTable.toStrategy ∧
      p.Yields "true in (substringof('it''s', author/name))" e ∧ e.Shaped ∧
      (∀ node ∈ e.walk, node.PlainString) ∧
      (∃ error, (p.parse "a/b eq").outcome = .error error) ∧
      (p.parse "a/b eq").requests = [.member ["a", "b"]] ∧
      ProperPath ["a", "b"] := by
  intro p call e
  have htables : Registry.standard.strategies =
      MethodTable.standardTables.map MethodTable.toStrategy := rfl
  have hyields : p.Yields "true in (substringof('it''s', author/name))" e := .filter rfl
  have hrequests : (p.parse "a/b eq").requests = [.member ["a", "b"]] := rfl
  have hread := (shaped_of_tables .passThrough _ _ htables .standard
    "true in (substringof('it''s', author/name))").1 e hyields
  have hpath := (shaped_of_tables .passThrough _ _ htables .standard "a/b eq").2
    (.member ["a", "b"]) (.inl (hrequests ▸ List.mem_singleton_self _))
  exact ⟨htables, hyields, hread.1, hread.2, ⟨_, rfl⟩, hrequests, hpath⟩

end Parser

end QueryExpr
