import QueryExpr.Proofs.Answers
import QueryExpr.Proofs.Lockstep

/-!
# Budgets of nested expressions

A budget of nested expressions cuts a reading and changes nothing else. Within a smaller budget a
reading goes as within a larger one, up to the place where expressions are nested too deeply, if
it comes to one; there it ends.

* `Run.Cut`: a run goes as another one or is cut.
* `Run.Cut.lockstep`: within two budgets, tokens are read in step.
* `expression_cut`: an expression is read in step if the first budget is at most the second one.
* `Parser.cut_of_le`: so are filters, orderings and selections.
-/

namespace QueryExpr

namespace Reading

variable {α β γ δ : Type}

/-- The run `run` goes like the run `full`, or it is cut: it has gone like it up to a place where
    expressions are nested too deeply. -/
inductive Run.Cut (R : α → β → Prop) (run : Run α) (full : Run β) : Prop where
  | whole (log : run.log = full.log) (ends : Ends R run.outcome full.outcome)
  | cut (left : Nat) (outcome : run.outcome = .error (.grammar .tooDeep left))
      (log : run.log <+: full.log)

namespace Run.Cut

variable {R : α → β → Prop} {S : γ → δ → Prop}

theorem pure {a : α} {b : β} (h : R a b) : Cut R (pure a) (pure b) := .whole rfl (.ok h)

theorem fail (f : Fault) : Cut R (fail f) (fail f) := .whole rfl (.error f)

/-- A run goes like itself. -/
theorem self (run : Run α) : Cut (fun a b => a = b) run run := by
  cases h : run.outcome with
  | ok a => exact .whole rfl (by rw [h]; exact .ok rfl)
  | error f => exact .whole rfl (by rw [h]; exact .error f)

/-- A run that is cut before its first step has gone like any other. -/
theorem tooDeep (ts : List Token) (full : Run β) : Cut R (failAt .tooDeep ts) full :=
  .cut ts.length rfl List.nil_prefix

/-- Whether or not a run is cut, it takes the first steps of the other one. -/
theorem prefix_log {run : Run α} {full : Run β} (h : Cut R run full) : run.log <+: full.log := by
  cases h with
  | whole hlog _ => exact hlog ▸ List.prefix_rfl
  | cut _ _ hlog => exact hlog

theorem log_prefix_bind (run : Run α) (f : α → Run γ) : run.log <+: (run >>= f).log := by
  cases h : run.outcome with
  | ok a =>
    rw [log_bind_ok h]
    exact List.prefix_append _ _
  | error e => simp [bind_error h]

theorem bind {run : Run α} {full : Run β} {f : α → Run γ} {g : β → Run δ}
    (h : Cut R run full) (hf : ∀ a b, R a b → Cut S (f a) (g b)) :
    Cut S (run >>= f) (full >>= g) := by
  cases h with
  | whole hlog hends =>
    rcases hends.values_or_fault with ⟨a, b, hrun, hfull, hab⟩ | ⟨fault, hrun, hfull⟩
    · cases hf a b hab with
      | whole hlog' hends' =>
        refine .whole ?_ ?_
        · rw [log_bind_ok hrun, log_bind_ok hfull, hlog, hlog']
        · rw [outcome_bind_ok hrun, outcome_bind_ok hfull]
          exact hends'
      | cut left houtcome hlog' =>
        refine .cut left ?_ ?_
        · rw [outcome_bind_ok hrun, houtcome]
        · rw [log_bind_ok hrun, log_bind_ok hfull, hlog]
          exact (List.prefix_append_right_inj _).2 hlog'
    · rw [bind_error hrun, bind_error hfull]
      exact .whole hlog (.error fault)
  | cut left houtcome hlog =>
    -- the other run may go on, which takes nothing back
    rw [bind_error houtcome]
    exact .cut left rfl (hlog.trans (log_prefix_bind full g))

/-- Tokens are read in step, whatever budgets there are for the expressions among them. -/
def lockstep (r : Resolvers) : Lockstep r r where
  Values e e' := e = e'
  Tokens t t' := t = t'
  Runs R run full := Cut R run full
  kind_eq h := congrArg Token.kind h
  unary op := unary_congr op
  binary op := binary_congr op
  collection := collection_congr
  pure := pure
  grammar problem left := fail _
  bind := bind
  enter p := .whole rfl (.ok trivial)
  literal := by
    rintro t _ raw rfl -
    exact self _
  member _ _ := self _
  call word args₀ args hargs := by
    obtain rfl := eq_of_forall₂ (fun _ _ => id) hargs
    exact self _

end Run.Cut

open Run (Cut)

section

variable (r : Resolvers)

/-- Within a smaller budget, an expression is read as within a larger one or the reading is cut. -/
theorem expression_cut {budget budget' : Nat} (h : budget ≤ budget') (minPower : Nat) :
    (Cut.lockstep r).Readers (fun e e' => e = e') (expression r budget minPower)
      (expression r budget' minPower) := by
  -- the larger budget is spent along with the smaller one
  induction budget generalizing budget' minPower with
  | zero => exact fun ts ts' _ => .tooDeep ts _
  | succ budget ih =>
    obtain ⟨budget', rfl⟩ : ∃ n, budget' = n + 1 := ⟨budget' - 1, by omega⟩
    have hsub : ∀ minPower, (Cut.lockstep r).Readers (Cut.lockstep r).Values
        (expression r budget minPower) (expression r budget' minPower) :=
      fun minPower => ih (Nat.le_of_succ_le_succ h) minPower
    intro ts ts' hts
    refine Lockstep.enter_bind ?_
    apply (Cut.lockstep r).bind (Lockstep.operand hsub ts ts' hts)
    rintro ⟨left, rest⟩ ⟨left', rest'⟩ ⟨hleft, hrest⟩
    exact Lockstep.chain hsub minPower hrest hleft rest rest' hrest

theorem forall₂_tokens_self (ts : List Token) : List.Forall₂ (Cut.lockstep r).Tokens ts ts :=
  List.forall₂_same.2 fun _ _ => rfl

end

end Reading

/-! ## Texts -/

/-- The report is that expressions are nested too deeply for the limit. -/
def Report.TooDeep {α : Type} (limit : Nat) (rep : Report α) : Prop :=
  ∃ i, rep.outcome = .error (.grammar ⟨.tooDeep limit, i⟩)

/-- The report `rep` is the report `full`, unless expressions are nested too deeply for the limit;
    then its requests are the first ones of the other one. -/
structure Report.CutAt {α : Type} (limit : Nat) (full rep : Report α) : Prop where
  whole : ¬ rep.TooDeep limit → rep = full
  cut : rep.TooDeep limit → rep.requests <+: full.requests

namespace Parser

open Reading (Run Fault Lockstep)

section

variable {r : Resolvers} {maxLength limit limit' : Nat} {α : Type} {R : α → α → Prop}

/-- A fault is the same error under any limit, unless it is about the limit. -/
theorem toError_eq_of_limit {f : Fault} (h : ∀ left, f ≠ .grammar .tooDeep left) (text : String)
    (count : Nat) : f.toError text count limit = f.toError text count limit' := by
  cases f with
  | grammar problem left =>
    cases problem with
    | tooDeep => exact absurd rfl (h left)
    | _ => rfl
  | _ => rfl

/-- Two runs of which one goes like the other or is cut are reported so. -/
theorem report_cutAt (mode : Reading.Mode) (read : Resolvers → Nat → List Token → Run α)
    (hR : ∀ a b, R a b → a = b) (hread : ∀ ts, Run.Cut R (read r limit ts) (read r limit' ts))
    (text : String) :
    (report ⟨r, ⟨limit', maxLength⟩⟩ mode read text).CutAt limit
      (report ⟨r, ⟨limit, maxLength⟩⟩ mode read text) := by
  have htokens : tokens ⟨r, ⟨limit, maxLength⟩⟩ text = tokens ⟨r, ⟨limit', maxLength⟩⟩ text := rfl
  rw [report, report, htokens]
  split
  next e _ => exact ⟨fun _ => rfl, fun _ => List.prefix_rfl⟩
  next ts _ =>
    dsimp only [outcomeOf, Run.requests]
    refine ⟨fun hdeep => ?_, fun _ => (hread ts).prefix_log.filterMap _⟩
    cases hread ts with
    | whole hlog hends =>
      rcases hends.values_or_fault with ⟨a, b, hrun, hfull, hab⟩ | ⟨f, hrun, hfull⟩
      · rw [hrun, hfull, hlog, hR a b hab]
        rfl
      · rw [hrun] at hdeep
        have hf : ∀ left, f ≠ .grammar .tooDeep left := by
          rintro left rfl
          exact hdeep ⟨_, rfl⟩
        rw [hrun, hfull, hlog, Except.mapError, Except.mapError, toError_eq_of_limit hf]
    | cut left houtcome hlog =>
      rw [houtcome] at hdeep
      exact absurd ⟨_, rfl⟩ hdeep

end

/-- A limit on nested expressions only cuts: what is read under it is read in the same way under
    any larger one, and what is cut has asked the first of the requests that are made then. -/
theorem cut_of_le (r : Resolvers) (maxLength : Nat) {limit limit' : Nat} (h : limit ≤ limit')
    (text : String) :
    let p : Parser := ⟨r, ⟨limit, maxLength⟩⟩
    let full : Parser := ⟨r, ⟨limit', maxLength⟩⟩
    (full.parse text).CutAt limit (p.parse text) ∧
      (full.parseOrderBy text).CutAt limit (p.parseOrderBy text) ∧
      (full.parseSelect text).CutAt limit (p.parseSelect text) := by
  have hcut := Reading.expression_cut r h 0
  have hself := Reading.forall₂_tokens_self r
  refine ⟨?_, ?_, ?_⟩
  · exact report_cutAt .filter Reading.filter
      (fun _ _ => Lockstep.eq_of_rel (c := Run.Cut.lockstep r) id)
      (fun ts => Lockstep.filter hcut (hself ts)) text
  · exact report_cutAt .ordering Reading.ordering
      (fun _ _ => Lockstep.eq_of_orderItems (c := Run.Cut.lockstep r) id)
      (fun ts => Lockstep.wholeList (Lockstep.orderItem hcut) (hself ts)) text
  · exact report_cutAt .selection Reading.selection
      (fun _ _ => Lockstep.eq_of_selectItems (c := Run.Cut.lockstep r) id)
      (fun ts => Lockstep.wholeList (Lockstep.selectItem hcut) (hself ts)) text

/-- Under a limit of two, a sum in parentheses behind an operator is cut behind its first operand;
    under a limit of three, it is read. -/
theorem cut_of_le_parens :
    let p : Parser := ⟨.transparent, ⟨2, 100⟩⟩
    let full : Parser := ⟨.transparent, ⟨3, 100⟩⟩
    2 ≤ 3 ∧ (p.parse "a eq (b)").TooDeep 2 ∧
      (p.parse "a eq (b)").questions = [.member ["a"]] ∧
      (full.parse "a eq (b)").questions = [.member ["a"], .member ["b"]] ∧
      (full.parse "a eq (b)").CutAt 2 (p.parse "a eq (b)") :=
  ⟨by decide, ⟨3, rfl⟩, rfl, rfl, (cut_of_le .transparent 100 (by decide) _).1⟩

end Parser

end QueryExpr
