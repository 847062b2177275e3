import QueryExpr.Parser
import QueryExpr.Proofs.Lockstep

/-!
# Tokens of the same kinds

The place of a token in the text is told only where a literal has no value. Apart from that, texts
with tokens of the same kinds are read alike.

* `Reading.Run.Same`: two runs take the same steps to the same end.
* `Reading.Run.Same.lockstep`: readings of tokens of the same kinds do so.
* `Parser.Agree`: two texts are the same filter, ordering and selection.
* `Parser.agree_of_kinds`: texts with tokens of the same kinds are.
-/

namespace QueryExpr

namespace Reading

variable {α β γ δ : Type}

/-- The same kind, and a value if it is that of a literal. -/
structure SameKind (t t' : Token) : Prop where
  kind_eq : t.kind = t'.kind
  value : ∀ raw, t.kind = .literal raw → ∃ l, raw.value = .ok l

/-- Two runs take the same steps, and end with related values or with the same fault, which is
    not that a literal has no value. -/
structure Run.Same (R : α → β → Prop) (run : Run α) (run' : Run β) : Prop where
  log : run.log = run'.log
  ends : Ends R run.outcome run'.outcome
  valued : ∀ raw reason span, run.outcome ≠ .error (.literal raw reason span)

namespace Run.Same

theorem pure {R : α → β → Prop} {a : α} {b : β} (h : R a b) : Same R (pure a) (pure b) :=
  ⟨rfl, .ok h, by rintro _ _ _ ⟨⟩⟩

theorem bind {R : α → β → Prop} {S : γ → δ → Prop} {run : Run α} {run' : Run β} {f : α → Run γ}
    {g : β → Run δ} (h : Same R run run') (hf : ∀ a b, R a b → Same S (f a) (g b)) :
    Same S (run >>= f) (run' >>= g) := by
  rcases h.ends.values_or_fault with ⟨a, b, hrun, hrun', hab⟩ | ⟨fault, hrun, hrun'⟩
  · have hfg := hf a b hab
    refine ⟨?_, ?_, ?_⟩
    · rw [log_bind_ok hrun, log_bind_ok hrun', h.log, hfg.log]
    · rw [outcome_bind_ok hrun, outcome_bind_ok hrun']
      exact hfg.ends
    · rw [outcome_bind_ok hrun]
      exact hfg.valued
  · have hvalued := h.valued
    rw [hrun] at hvalued
    rw [bind_error hrun, bind_error hrun']
    refine ⟨h.log, .error fault, ?_⟩
    intro raw reason span hfault
    exact hvalued raw reason span (congrArg Except.error (Except.error.inj hfault))

theorem grammar {R : α → β → Prop} (problem : Problem) (left : Nat) :
    Same R (fail (.grammar problem left)) (fail (.grammar problem left)) :=
  ⟨rfl, .error _, by rintro _ _ _ ⟨⟩⟩

theorem enter (p : Phase) : Same (fun _ _ => True) (Run.enter p) (Run.enter p) :=
  ⟨rfl, .ok trivial, by rintro _ _ _ ⟨⟩⟩

/-- What a resolver refuses is no literal. -/
theorem ask {ε : Type} (q : Request) (notes : List Note) (answer : Except ε α) {g : ε → Fault}
    (hg : ∀ e raw reason span, g e ≠ .literal raw reason span) :
    Same (fun a b => a = b) (Run.ask q notes (answer.mapError g))
      (Run.ask q notes (answer.mapError g)) := by
  cases answer with
  | ok a => exact ⟨rfl, .ok rfl, by rintro _ _ _ ⟨⟩⟩
  | error e =>
    refine ⟨rfl, .error (g e), ?_⟩
    intro raw reason span h
    exact hg e raw reason span (Except.error.inj h)

theorem literalValue {raw : Literal.Raw} {l : Literal} (h : raw.value = .ok l) (span span' : Span) :
    Same (fun a b => a = b) (literalValue raw span) (literalValue raw span') := by
  rw [Reading.literalValue, Reading.literalValue, h]
  exact pure rfl

theorem member (r : Resolvers) (word : String) :
    Same (fun a b => a = b) (member r word) (member r word) := by
  refine bind (enter .member) fun _ _ _ => bind (ask _ _ _ (by rintro _ _ _ _ ⟨⟩)) ?_
  rintro m _ rfl
  exact bind (enter .expression) fun _ _ _ => pure rfl

theorem call (r : Resolvers) (word : String) (args : List Expr) :
    Same (fun a b => a = b) (call r word args) (call r word args) := by
  refine bind (ask _ _ _ (by rintro _ _ _ _ ⟨⟩)) ?_
  rintro c _ rfl
  exact bind (enter .expression) fun _ _ _ => pure rfl

/-- Tokens of the same kinds are read in the same steps. -/
def lockstep (r : Resolvers) : Lockstep r r where
  Values e e' := e = e'
  Tokens := SameKind
  Runs R run run' := Same R run run'
  kind_eq h := h.kind_eq
  unary op := unary_congr op
  binary op := binary_congr op
  collection := collection_congr
  pure := pure
  grammar := grammar
  bind := bind
  enter := enter
  literal := by
    intro t t' raw h hraw
    obtain ⟨l, hl⟩ := h.value raw hraw
    exact literalValue hl _ _
  member _ _ := member r _
  call word args₀ args hargs := by
    obtain rfl := eq_of_forall₂ (fun _ _ => id) hargs
    exact call r word args₀

end Run.Same

/-- A fault that is not of a literal is the same error in any text. -/
theorem Fault.toError_eq {f : Fault} (h : ∀ raw reason span, f ≠ .literal raw reason span)
    (text text' : String) (count limit : Nat) :
    f.toError text count limit = f.toError text' count limit := by
  cases f with
  | literal raw reason span => exact absurd rfl (h raw reason span)
  | _ => rfl

end Reading

/-! ## Texts -/

/-- The result and the requests of two readings are the same. -/
def Report.Agree {α : Type} (a b : Report α) : Prop :=
  a.outcome = b.outcome ∧ a.requests = b.requests

namespace Parser

open Reading (SameKind Run Lockstep)

/-- The parser makes the same of two texts, whatever it reads them as. -/
structure Agree (p : Parser) (text text' : String) : Prop where
  filter : (p.parse text).Agree (p.parse text')
  ordering : (p.parseOrderBy text).Agree (p.parseOrderBy text')
  selection : (p.parseSelect text).Agree (p.parseSelect text')

section

variable {p : Parser} {text text' : String} {ts ts' : List Token} (h : p.tokens text = .ok ts)
  (h' : p.tokens text' = .ok ts') (hkinds : List.Forall₂ SameKind ts ts')

include h h' hkinds

theorem report_agree {α : Type} (mode : Reading.Mode)
    (read : Resolvers → Nat → List Token → Run α) {R : α → α → Prop}
    (hR : ∀ a b, R a b → a = b)
    (hread : Run.Same R (read p.resolvers p.limits.maxDepth ts)
      (read p.resolvers p.limits.maxDepth ts')) :
    (p.report mode read text).Agree (p.report mode read text') := by
  have hlength := hkinds.length_eq
  rw [report, report, h, h']
  refine ⟨?_, congrArg (List.filterMap Reading.Step.request?) hread.log⟩
  dsimp only [outcomeOf]
  rcases hread.ends.values_or_fault with ⟨a, b, hrun, hrun', hab⟩ | ⟨f, hrun, hrun'⟩
  · rw [hrun, hrun', hR a b hab]
    rfl
  · have hvalued := hread.valued
    rw [hrun] at hvalued
    have herror := Reading.Fault.toError_eq (fun raw reason span hf =>
      hvalued raw reason span (congrArg Except.error hf)) text text' ts.length p.limits.maxDepth
    rw [hrun, hrun', Except.mapError, Except.mapError, ← hlength, herror]

/-- Texts with tokens of the same kinds are read alike. -/
theorem agree_of_kinds : p.Agree text text' where
  filter :=
    report_agree h h' hkinds .filter Reading.filter
      (fun _ _ => Lockstep.eq_of_rel (c := Run.Same.lockstep p.resolvers) id)
      (Lockstep.filter ((Run.Same.lockstep p.resolvers).expression _ 0) hkinds)
  ordering :=
    report_agree h h' hkinds .ordering Reading.ordering
      (fun _ _ => Lockstep.eq_of_orderItems (c := Run.Same.lockstep p.resolvers) id)
      (Lockstep.wholeList
        (Lockstep.orderItem ((Run.Same.lockstep p.resolvers).expression _ 0)) hkinds)
  selection :=
    report_agree h h' hkinds .selection Reading.selection
      (fun _ _ => Lockstep.eq_of_selectItems (c := Run.Same.lockstep p.resolvers) id)
      (Lockstep.wholeList
        (Lockstep.selectItem ((Run.Same.lockstep p.resolvers).expression _ 0)) hkinds)

end

end Parser

end QueryExpr
