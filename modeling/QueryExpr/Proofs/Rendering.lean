import QueryExpr.Parser
import QueryExpr.Proofs.Numerals
import QueryExpr.Proofs.Precedence
import QueryExpr.Proofs.Quotations
import QueryExpr.Proofs.WellFormed

/-!
# Reading expressions back

Parentheses are written where the tree would be another one without them, and each part is set off
from what follows it. So the text of a well-formed expression is read as the expression.

* `Phrase.OfKinds`: tokens of given kinds that are a phrase of the grammar.
* `Rendered`: a text that is read as an expression of a level of the grammar.
* `Expr.WellFormed.rendered`: the text of an expression is, by induction on the expression.
* `Parser.parse_text`: reading what is written.
-/

namespace QueryExpr

namespace Token

/-! ## Literals -/

/-- A word that is a constant is read as its literal. -/
theorem lexeme_constant {word : String} (h : NameText word) {raw : Literal.Raw}
    (hconstant : constant? word = some raw) {l : Literal} (hvalue : raw.value = .ok l) :
    LiteralLexeme word.toList l := by
  refine ⟨raw, hvalue, ?_⟩
  have hkind : kindOfName word = .literal raw := by rw [kindOfName, hconstant]
  rw [← hkind]
  exact lexeme_word h false

theorem isBodyChar_duration (d : Temporal.Duration) : ∀ c ∈ d.chars, isBodyChar c = true := by
  intro c hc
  have hnotation := List.all_eq_true.1 d.all_isNotationChar_chars c hc
  rw [Temporal.Duration.isNotationChar, Bool.or_eq_true, List.contains_iff_mem] at hnotation
  rcases hnotation with hdigit | hmem
  · exact Text.of_isDigit (isBodyChar · = true) hdigit (by decide)
  · have hall : ['-', '.', 'P', 'T', 'Y', 'M', 'D', 'H', 'S'].all isBodyChar = true := by decide
    exact List.all_eq_true.1 hall c hmem

/-- Durations are read back, without trailing zeros in their seconds. -/
theorem lexeme_duration {d : Temporal.Duration} (hs : 0 ≤ d.seconds.units) :
    LiteralLexeme (Literal.duration d).text.toList (.duration d.settled) := by
  have hkind : TypeWord.duration.kindOf d.chars = .ok .duration := rfl
  apply lexeme_typed nameText_duration rfl (isBodyChar_duration d) hkind
  simp only [Literal.Raw.value, String.toList_ofList, Temporal.Duration.read_chars hs]

/-- Well-formed literals are read back. -/
theorem lexeme_literal {l : Literal} (h : l.WellFormed) :
    LiteralLexeme l.text.toList l.settled := by
  cases l with
  | null => exact lexeme_constant ⟨⟨'n', _, rfl, rfl, rfl⟩, rfl⟩ rfl rfl
  | boolean b =>
    cases b with
    | true => exact lexeme_constant ⟨⟨'t', _, rfl, rfl, rfl⟩, rfl⟩ rfl rfl
    | false => exact lexeme_constant ⟨⟨'f', _, rfl, rfl, rfl⟩, rfl⟩ rfl rfl
  | string s => exact lexeme_string h
  | int n => exact lexeme_int n
  | long n => exact lexeme_long n
  | decimal d => exact lexeme_decimal d
  | binary bytes => exact lexeme_binary bytes
  | guid g => exact lexeme_guid g
  | duration d => exact lexeme_duration h
  | single v | double v | dateTime m => cases h

/-! ## Words of operators -/

/-- The keywords of operators are names. -/
theorem lexeme_keyword {op : Operator} (h : op ≠ .neg) (afterOperand : Bool) :
    Lexeme afterOperand op.keyword.toList (.name op.keyword) := by
  have hname : NameText op.keyword := by
    cases op with
    | neg => exact absurd rfl h
    | _ => exact ⟨⟨_, _, rfl, rfl, rfl⟩, rfl⟩
  refine lexeme_name hname ?_ afterOperand
  cases op <;> rfl

/-- A minus behind the keyword of an operator is a sign. -/
theorem endsOperand_keyword {op : Operator} (h : op ≠ .neg) :
    (Kind.name op.keyword).endsOperand = false := by
  simp [Kind.endsOperand, Operator.ofKeyword?_keyword h]

end Token

namespace Lexer.LexedBy

variable {L : Bool → List Char → List Token.Kind → Prop} (hL : TokenByToken L)
  {text text' : String} {kinds kinds' : List Token.Kind}

include hL

/-- A binary operator between two texts. -/
theorem operator {op : Operator} (hop : op.isUnary = false) (h : LexedBy L text.toList kinds)
    (h' : LexedBy L text'.toList kinds') :
    LexedBy L (text ++ " " ++ op.keyword ++ " " ++ text').toList
      (kinds ++ .name op.keyword :: kinds') := by
  have hneg : op ≠ .neg := by rintro rfl; cases hop
  exact between hL (Token.lexeme_keyword hneg) (Token.endsOperand_keyword hneg) h h'

theorem not (h : LexedBy L text.toList kinds) :
    LexedBy L ("not " ++ text).toList (.name "not" :: kinds) := by
  have hneg : Operator.not ≠ .neg := by decide
  have := behindWord hL (Token.lexeme_keyword hneg) (Token.endsOperand_keyword hneg) h
  simpa [Operator.keyword] using this

end Lexer.LexedBy

namespace Reading

/-! ## Phrases of given kinds -/

/-- The phrase derives any tokens of the given kinds, unless an opening parenthesis follows them. -/
def Phrase.OfKinds (r : Resolvers) (phrase : Phrase) (kinds : List Token.Kind) (e : Expr) : Prop :=
  ∀ ts rest : List Token, ts.map Token.kind = kinds → startsWith .parenOpen rest = false →
    Derives r phrase (ts ++ rest) e rest

namespace Phrase.OfKinds

variable {r : Resolvers} {kinds kinds' : List Token.Kind} {e left right : Expr}

theorem weaken {m n : Nat} (hmn : m ≤ n) (h : (level n).OfKinds r kinds e) :
    (level m).OfKinds r kinds e :=
  fun ts rest hts hrest => (h ts rest hts hrest).weaken hmn

/-- Where a token stands behind the phrase that is no opening parenthesis, the phrase ends there. -/
theorem upTo {n : Nat} (h : (level n).OfKinds r kinds e) {k : Token.Kind}
    (hk : k ≠ .mark .parenOpen) {ts : List Token} (hts : ts.map Token.kind = kinds ++ k :: kinds')
    (rest : List Token) : ∃ u vs, u.kind = k ∧ vs.map Token.kind = kinds' ∧
      Derives r (.level n) (ts ++ rest) e (u :: (vs ++ rest)) := by
  obtain ⟨us, ws, rfl, hus, hws⟩ := List.map_eq_append_iff.1 hts
  obtain ⟨u, vs, rfl, hu, hvs⟩ := List.map_eq_cons_iff.1 hws
  have hnext : startsWith .parenOpen (u :: (vs ++ rest)) = false := by
    simpa [startsWith, hu] using hk
  refine ⟨u, vs, hu, hvs, ?_⟩
  rw [List.append_assoc]
  exact h us _ hus hnext

theorem literal {raw : Literal.Raw} {l : Literal} (hl : raw.value = .ok l) :
    (level 8).OfKinds r [.literal raw] (.literal l) := by
  intro ts rest hts _
  obtain ⟨t, ts, rfl, ht, hts⟩ := List.map_eq_cons_iff.1 hts
  obtain rfl := List.map_eq_nil_iff.1 hts
  exact .literal ht hl

theorem member {word : String} {m : Member} (hw : Operator.ofKeyword? word = none)
    (hm : r.members.resolve (pathSegments word) = .ok m) :
    (level 8).OfKinds r [.name word] (.member m) := by
  intro ts rest hts hrest
  obtain ⟨t, ts, rfl, ht, hts⟩ := List.map_eq_cons_iff.1 hts
  obtain rfl := List.map_eq_nil_iff.1 hts
  exact .member ht hw hrest hm

theorem parens (h : (level 1).OfKinds r kinds e) :
    (level 8).OfKinds r (.mark .parenOpen :: (kinds ++ [.mark .parenClose])) e := by
  intro ts rest hts _
  obtain ⟨t, ts, rfl, ht, hts⟩ := List.map_eq_cons_iff.1 hts
  obtain ⟨u, vs, hu, hvs, hinner⟩ := h.upTo (by decide) hts rest
  obtain rfl := List.map_eq_nil_iff.1 hvs
  exact .parens ht hinner hu

theorem binary {n : Nat} {word : String} {op : Operator} (hop : (word, op) ∈ binaryWords n)
    (hl : (level n).OfKinds r kinds left) (hr : (level (n + 1)).OfKinds r kinds' right) :
    (level n).OfKinds r (kinds ++ .name word :: kinds') (.binary left op right) := by
  intro ts rest hts hrest
  obtain ⟨u, vs, hu, hvs, hleft⟩ := hl.upTo (by rintro ⟨⟩) hts rest
  exact hleft.binary hu hop (hr vs rest hvs hrest)

theorem membership {word : String} {op : Operator} (hop : (word, op) ∈ membershipWords)
    (hl : (level 4).OfKinds r kinds left) (hr : values.OfKinds r kinds' right) :
    (level 4).OfKinds r (kinds ++ .name word :: kinds') (.binary left op right) := by
  intro ts rest hts hrest
  obtain ⟨u, vs, hu, hvs, hleft⟩ := hl.upTo (by rintro ⟨⟩) hts rest
  exact hleft.membership hu hop (hr vs rest hvs hrest)

theorem not (h : (level 7).OfKinds r kinds e) :
    (level 7).OfKinds r (.name "not" :: kinds) (.unary .not e) := by
  intro ts rest hts hrest
  obtain ⟨t, ts, rfl, ht, hts⟩ := List.map_eq_cons_iff.1 hts
  exact .not ht (h ts rest hts hrest)

theorem neg (h : (level 7).OfKinds r kinds e) :
    (level 7).OfKinds r (.mark .minus :: kinds) (.unary .neg e) := by
  intro ts rest hts hrest
  obtain ⟨t, ts, rfl, ht, hts⟩ := List.map_eq_cons_iff.1 hts
  exact .neg ht (h ts rest hts hrest)

theorem call {word : String} {args : List Expr} {c : Call} (hw : word ≠ "not")
    (hc : r.methods.resolve word args = .ok c) (h : values.OfKinds r kinds (.collection args)) :
    (level 8).OfKinds r (.name word :: kinds) c.toExpr := by
  intro ts rest hts hrest
  obtain ⟨t, ts, rfl, ht, hts⟩ := List.map_eq_cons_iff.1 hts
  exact .call ht hw (h ts rest hts hrest) hc

theorem noValues :
    values.OfKinds r [.mark .parenOpen, .mark .parenClose] (.collection []) := by
  intro ts rest hts _
  obtain ⟨t, ts, rfl, ht, hts⟩ := List.map_eq_cons_iff.1 hts
  obtain ⟨u, ts, rfl, hu, hts⟩ := List.map_eq_cons_iff.1 hts
  obtain rfl := List.map_eq_nil_iff.1 hts
  exact .noValues ht hu

theorem someValues {es : List Expr} (h : items.OfKinds r kinds (.collection es)) :
    values.OfKinds r (.mark .parenOpen :: kinds) (.collection es) := by
  intro ts rest hts hrest
  obtain ⟨t, ts, rfl, ht, hts⟩ := List.map_eq_cons_iff.1 hts
  exact .values ht (h ts rest hts hrest)

theorem lastItem (h : (level 1).OfKinds r kinds e) :
    items.OfKinds r (kinds ++ [.mark .parenClose]) (.collection [e]) := by
  intro ts rest hts _
  obtain ⟨u, vs, hu, hvs, hitem⟩ := h.upTo (by decide) hts rest
  obtain rfl := List.map_eq_nil_iff.1 hvs
  exact .lastItem hitem hu

theorem nextItem {es : List Expr} (h : (level 1).OfKinds r kinds e)
    (more : items.OfKinds r kinds' (.collection es)) :
    items.OfKinds r (kinds ++ .mark .comma :: kinds') (.collection (e :: es)) := by
  intro ts rest hts hrest
  obtain ⟨u, vs, hu, hvs, hitem⟩ := h.upTo (by decide) hts rest
  exact .nextItem hitem hu (more vs rest hvs hrest)

end Phrase.OfKinds

end Reading

/-! ## Rendered expressions -/

theorem Operator.binary?_keyword {op : Operator} (h : op.isUnary = false) :
    binary? op.keyword = some op := by
  revert h
  cases op <;> decide

theorem Operator.isUnary_of_takesValues {op : Operator} (h : op.takesValues = true) :
    op.isUnary = false := by
  revert h
  cases op <;> decide

theorem Operator.precedence_bounds (op : Operator) : 1 ≤ op.precedence ∧ op.precedence ≤ 7 := by
  cases op <;> decide

theorem Expr.one_le_precedence (e : Expr) : 1 ≤ e.precedence := by
  cases e with
  | binary _ op _ | unary op _ => exact op.precedence_bounds.1
  | _ => exact Nat.le_add_left 1 7

open Lexer (Lexed LexedBy tokenByToken_lexes)
open Reading (Phrase)

/-- The text is read as the expression wherever a phrase of the level can stand. -/
def Rendered (r : Resolvers) (text : String) (level : Nat) (e : Expr) : Prop :=
  ∃ kinds, Lexed text.toList kinds ∧ (Phrase.level level).OfKinds r kinds e

namespace Rendered

variable {r : Resolvers} {text : String} {level : Nat} {e : Expr}

theorem weaken {m n : Nat} (hmn : m ≤ n) (h : Rendered r text n e) : Rendered r text m e := by
  obtain ⟨kinds, hlexed, hphrase⟩ := h
  exact ⟨kinds, hlexed, hphrase.weaken hmn⟩

theorem literal {l : Literal} (h : Token.LiteralLexeme text.toList l) :
    Rendered r text 8 (.literal l) := by
  obtain ⟨raw, hvalue, hlexeme⟩ := h
  exact ⟨_, LexedBy.lexeme tokenByToken_lexes hlexeme, .literal hvalue⟩

theorem parens (h : Rendered r text 1 e) : Rendered r ("(" ++ text ++ ")") 8 e := by
  obtain ⟨kinds, hlexed, hphrase⟩ := h
  exact ⟨_, LexedBy.parens tokenByToken_lexes hlexed, hphrase.parens⟩

/-- An operand is of the level that its operator asks for: in parentheses it is of each level. -/
theorem operand {wraps : Bool} {m n : Nat} (h : Rendered r text n e) (hn : 1 ≤ n) (hm : m ≤ 8)
    (hw : wraps = false → m ≤ n) : Rendered r (Expr.operand wraps text) m e := by
  cases wraps with
  | false => exact h.weaken (hw rfl)
  | true => exact (h.weaken hn).parens.weaken hm

section

variable {a : Expr} (h : Rendered r a.text a.precedence e)

include h

theorem leftOperand (op : Operator) :
    Rendered r (Expr.operand (a.wrapsLeft op) a.text) op.precedence e := by
  obtain ⟨-, hop⟩ := op.precedence_bounds
  apply h.operand a.one_le_precedence (Nat.le_succ_of_le hop)
  intro hw
  simpa [Expr.wrapsLeft] using hw

theorem rightOperand (op : Operator) :
    Rendered r (Expr.operand (a.wrapsRight op) a.text) (op.precedence + 1) e := by
  obtain ⟨-, hop⟩ := op.precedence_bounds
  apply h.operand a.one_le_precedence (Nat.succ_le_succ hop)
  intro hw
  simpa [Expr.wrapsRight, Nat.succ_le_iff] using hw

/-- Behind unary minus, an operand without parentheses is a member or a call. -/
theorem operandBehind {op : Operator} (hop : op.isUnary = true) :
    Rendered r (Expr.operand (a.wrapsBehind op) a.text) 7 e := by
  apply h.operand a.one_le_precedence (by decide)
  intro hw
  cases op with
  | not => exact Nat.le_of_not_lt (of_decide_eq_false hw)
  | neg =>
    cases a with
    | member _ | call _ _ => exact Nat.le_succ 7
    | _ => cases hw
  | _ => cases hop

end

theorem binary {left right : Expr} {text' : String} {op : Operator} (hop : op.isUnary = false)
    (hv : op.takesValues = false) (hl : Rendered r text op.precedence left)
    (hr : Rendered r text' (op.precedence + 1) right) :
    Rendered r (text ++ " " ++ op.keyword ++ " " ++ text') op.precedence
      (.binary left op right) := by
  obtain ⟨_, hlexed, hphrase⟩ := hl
  obtain ⟨_, hlexed', hphrase'⟩ := hr
  have hwords := Reading.mem_binaryWords (Operator.binary?_keyword hop) hv
  exact ⟨_, LexedBy.operator tokenByToken_lexes hop hlexed hlexed', hphrase.binary hwords hphrase'⟩

theorem not (h : Rendered r text 7 e) : Rendered r ("not " ++ text) 7 (.unary .not e) := by
  obtain ⟨_, hlexed, hphrase⟩ := h
  exact ⟨_, LexedBy.not tokenByToken_lexes hlexed, hphrase.not⟩

theorem neg (hsign : Token.Unsigned text.toList) (h : Rendered r text 7 e) :
    Rendered r ("-" ++ text) 7 (.unary .neg e) := by
  obtain ⟨_, hlexed, hphrase⟩ := h
  exact ⟨_, LexedBy.minus tokenByToken_lexes hsign hlexed, hphrase.neg⟩

end Rendered

/-! ## Rendered lists -/

/-- The text is read as the expressions wherever a value list can stand in parentheses. -/
def RenderedValues (r : Resolvers) (text : String) (es : List Expr) : Prop :=
  ∃ kinds, Lexed text.toList kinds ∧
    Phrase.values.OfKinds r (.mark .parenOpen :: (kinds ++ [.mark .parenClose])) (.collection es)

namespace RenderedValues

variable {r : Resolvers} {text : String} {es : List Expr}

/-- Expressions with commas between them are read as the items of a value list. -/
theorem items {f : Expr → Expr} {e : Expr} {es : List Expr}
    (h : ∀ a ∈ e :: es, Rendered r a.text 1 (f a)) :
    ∃ kinds, Lexed (Expr.text.commaSeparated (e :: es)).toList kinds ∧
      Phrase.items.OfKinds r (kinds ++ [.mark .parenClose]) (.collection ((e :: es).map f)) := by
  induction es generalizing e with
  | nil =>
    obtain ⟨kinds, hlexed, hphrase⟩ := h e List.mem_cons_self
    exact ⟨kinds, hlexed, hphrase.lastItem⟩
  | cons e' es ih =>
    obtain ⟨kinds, hlexed, hphrase⟩ := h e List.mem_cons_self
    obtain ⟨kinds', hlexed', hphrase'⟩ := ih fun a ha => h a (List.mem_cons_of_mem _ ha)
    refine ⟨kinds ++ .mark .comma :: kinds', LexedBy.comma tokenByToken_lexes hlexed hlexed', ?_⟩
    simpa using hphrase.nextItem hphrase'

theorem of_forall {f : Expr → Expr} (h : ∀ a ∈ es, Rendered r a.text 1 (f a)) :
    RenderedValues r (Expr.text.commaSeparated es) (es.map f) := by
  cases es with
  | nil => exact ⟨[], LexedBy.nil, .noValues⟩
  | cons e es =>
    obtain ⟨kinds, hlexed, hphrase⟩ := items h
    exact ⟨kinds, hlexed, hphrase.someValues⟩

end RenderedValues

namespace Rendered

variable {r : Resolvers} {text values : String} {es : List Expr}

theorem membership {left : Expr} {op : Operator} (hv : op.takesValues = true)
    (hl : Rendered r text op.precedence left) (hr : RenderedValues r values es) :
    Rendered r (text ++ " " ++ op.keyword ++ " " ++ ("(" ++ values ++ ")")) op.precedence
      (.binary left op (.collection es)) := by
  obtain ⟨_, hlexed, hphrase⟩ := hl
  obtain ⟨_, hlexed', hphrase'⟩ := hr
  have hop := Operator.isUnary_of_takesValues hv
  have hwords := Reading.mem_membershipWords (Operator.binary?_keyword hop) hv
  obtain ⟨-, -, hfour⟩ := Reading.binary?_of_mem_membershipWords hwords
  rw [hfour] at hphrase ⊢
  refine ⟨_, ?_, hphrase.membership hwords hphrase'⟩
  exact LexedBy.operator tokenByToken_lexes hop hlexed (LexedBy.parens tokenByToken_lexes hlexed')

theorem call {name : String} {c : Call} (hname : Token.NameText name)
    (hconstant : Token.constant? name = none) (hnot : name ≠ "not")
    (hc : r.methods.resolve name es = .ok c) (h : RenderedValues r values es) :
    Rendered r (name ++ "(" ++ values ++ ")") 8 c.toExpr := by
  obtain ⟨_, hlexed, hphrase⟩ := h
  have hword := Token.lexeme_name hname hconstant false
  exact ⟨_, LexedBy.call tokenByToken_lexes hword hlexed, hphrase.call hnot hc⟩

end Rendered

/-! ## Reading what is written -/

namespace Member.WellFormed

variable {m : Member} {word : String}

theorem rendered (h : m.WellFormed word) :
    Rendered Parser.standard.resolvers m.text 8 (.member m) := by
  obtain ⟨hname, hconstant⟩ := h.nameText
  rw [h.text_eq, h.eq_ofText]
  have hword := Token.lexeme_name hname hconstant false
  exact ⟨_, LexedBy.lexeme tokenByToken_lexes hword, .member h.noOperator rfl⟩

end Member.WellFormed

namespace Expr

/-- The parenthesis behind the name of a call sets it off, whatever the arguments are. -/
theorem unsigned_call {name : String} (hname : name ∈ MethodTable.canonicalNames)
    (args : String) : Token.Unsigned (name ++ "(" ++ args ++ ")").toList := by
  obtain ⟨htext, hconstant, -, hinfinity⟩ := MethodTable.nameText_canonical hname
  have hsign := htext.unsigned hconstant fun c _ hc =>
    hinfinity ((List.prefix_append _ [c]).trans hc)
  have hargs : Token.Delimited ('(' :: (args.toList ++ [')'])) := Token.delimited_cons.2 rfl
  have htext : (name ++ "(" ++ args ++ ")").toList =
      name.toList ++ '(' :: (args.toList ++ [')']) := by simp
  rw [htext]
  exact hsign.append hargs nofun

/-- Unary minus stands in front of parentheses, a member or a call. -/
theorem WellFormed.unsigned_operand {e : Expr} (h : e.WellFormed) :
    Token.Unsigned (operand (e.wrapsBehind .neg) e.text).toList := by
  cases h with
  | member h => exact h.unsigned
  | call hname _ _ _ => exact unsigned_call hname _
  | literal _ | unary _ _ | binary _ _ _ _ | membership _ _ _ => exact Token.unsigned_parens _

/-- What is written for a well-formed expression is read as the expression. -/
theorem WellFormed.rendered {e : Expr} (h : e.WellFormed) :
    Rendered Parser.standard.resolvers e.text e.precedence e.settled := by
  induction h with
  | member h => exact h.rendered
  | literal h => exact .literal (Token.lexeme_literal h)
  | @call name args spec hname hspec hcount _ ih =>
    obtain ⟨htext, hconstant, hnot, -⟩ := MethodTable.nameText_canonical hname
    have hresolve : Parser.standard.resolvers.methods.resolve name (args.map settled) =
        .ok ⟨name, args.map settled⟩ := by
      rw [Parser.standard_methods, Registry.resolver_resolve]
      exact Registry.resolve_canonical hname hspec (by rwa [List.length_map])
    have hvalues : RenderedValues _ _ (args.map settled) :=
      .of_forall fun a ha => (ih a ha).weaken a.one_le_precedence
    rw [settled, settledAll_eq_map]
    exact .call htext hconstant hnot hresolve hvalues
  | @unary op e hop he ih =>
    have hoperand := ih.operandBehind hop
    cases op with
    | not => exact hoperand.not
    | neg => exact hoperand.neg he.unsigned_operand
    | _ => cases hop
  | @binary left op right hop hv _ _ ihl ihr =>
    exact (ihl.leftOperand op).binary hop hv (ihr.rightOperand op)
  | @membership left op items hv _ _ ihl ih =>
    have hvalues : RenderedValues _ _ (items.map settled) :=
      .of_forall fun a ha => (ih a ha).weaken a.one_le_precedence
    -- a value list has its own parentheses and gets no more
    have hright : (collection items).wrapsRight op = false := by
      cases op <;> rfl
    rw [settled, settled, settledAll_eq_map, text, hright]
    exact (ihl.leftOperand op).membership hv hvalues

end Expr

namespace Parser

/-- A well-formed expression is read back from what is written for it, if the limits cover the text.
    It is the same expression: only trailing zeros in the seconds of durations are lost. -/
theorem parse_text {e : Expr} (h : e.WellFormed) (limits : Limits)
    (hdepth : e.text.toList.length < limits.maxDepth)
    (hlength : e.text.toList.length ≤ limits.maxLength) :
    ((⟨standard.resolvers, limits⟩ : Parser).parse e.text).outcome = .ok (some e.settled) ∧
      e.settled.same e = true := by
  refine ⟨?_, Expr.settled_same h⟩
  obtain ⟨kinds, hlexed, hphrase⟩ := h.rendered.weaken e.one_le_precedence
  obtain ⟨ts, hts, hkinds⟩ := Lexer.tokenize_of_lexes hlexed.lexes
  have hderives := hphrase ts [] hkinds rfl
  rw [List.append_nil] at hderives
  have hbudget : ts.length ≤ limits.maxDepth := Nat.le_trans (Lexer.length_upTo_le hts) hdepth
  have hread := Reading.filter_of_derives hderives hbudget
  have htokens : (⟨standard.resolvers, limits⟩ : Parser).tokens e.text = .ok ts := by
    rw [tokens, if_neg (Nat.not_lt.2 hlength), hts]
  rw [parse, report, htokens]
  exact Reading.Run.mapError_eq_ok.2 hread

/-- Unary minus and a value list around a sum with a call in it. -/
theorem parse_text_membership :
    let sum : Expr := .binary (.member ⟨["a"]⟩) .add (.call "length" [.member ⟨["b", "c"]⟩])
    let e : Expr := .binary (.unary .neg sum) .isIn
      (.collection [.literal (.int 5), .literal .null])
    e.WellFormed ∧ e.text = "-(a add length(b/c)) in (5,null)" ∧
      (standard.parse e.text).outcome = .ok (some e) := by
  intro sum e
  have hlength : (Expr.call "length" [.member ⟨["b", "c"]⟩]).WellFormed := by
    have hspec : MethodTable.standardSpec? "length" = some (.exact "length" 1) := by
      decide +kernel
    have hpath : Member.WellFormed ⟨["b", "c"]⟩ "b/c" := ⟨⟨_, rfl⟩, rfl, rfl, by decide⟩
    refine .call (by decide +kernel) hspec rfl ?_
    rintro _ (_ | ⟨_, ⟨⟩⟩)
    exact .member hpath
  have ha : Member.WellFormed ⟨["a"]⟩ "a" := ⟨⟨_, rfl⟩, rfl, rfl, by decide⟩
  have hsum : sum.WellFormed := .binary rfl rfl (.member ha) hlength
  have he : e.WellFormed := by
    refine .membership rfl (.unary rfl hsum) ?_
    rintro _ (_ | ⟨_, _ | ⟨_, ⟨⟩⟩⟩) <;> exact .literal trivial
  exact ⟨he, by decide +kernel,
    (parse_text he .standard (by decide +kernel) (by decide +kernel)).1⟩

/-- A path with a slash in one of its segments is written like the path of two segments, and read as
    that one, though the text is a single name. -/
theorem parse_slash_in_segment :
    Member.text ⟨["a/b"]⟩ = "a/b" ∧
      (∃ span, Lexer.tokenize "a/b" = .ok [⟨.name "a/b", span⟩]) ∧
      Operator.ofKeyword? "a/b" = none ∧ ¬['I', 'N', 'F', '/'] <+: "a/b".toList ∧
      ¬['I', 'N', 'F', '.'] <+: "a/b".toList ∧
      ∀ limits : Limits, 1 ≤ limits.maxDepth → 3 ≤ limits.maxLength →
        ((⟨standard.resolvers, limits⟩ : Parser).parse (Expr.member ⟨["a/b"]⟩).text).outcome =
            .ok (some (.member ⟨["a", "b"]⟩)) ∧
          (Expr.member ⟨["a", "b"]⟩).same (.member ⟨["a/b"]⟩) = false := by
  refine ⟨rfl, ⟨_, rfl⟩, rfl, by decide, by decide, ?_⟩
  rintro ⟨depth, length⟩ hdepth hlength
  refine ⟨?_, by decide⟩
  have htext : (Expr.member ⟨["a/b"]⟩).text = "a/b" := rfl
  have htokens : (⟨standard.resolvers, ⟨depth, length⟩⟩ : Parser).tokens "a/b" =
      Lexer.tokenize "a/b" := if_neg (Nat.not_lt.2 hlength)
  rw [htext, parse, report, htokens]
  cases depth with
  | zero => cases hdepth
  | succ depth => rfl

end Parser

end QueryExpr
