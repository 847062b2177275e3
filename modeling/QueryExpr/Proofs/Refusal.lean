import QueryExpr.Proofs.Answers
import QueryExpr.Proofs.Lockstep

/-!
# Refused requests

What resolvers answer does not change what is asked of them. A reading goes as it goes with
resolvers that refuse nothing, up to the first request that is refused; there it ends.

* `Run.Follows`: a run goes like another one up to its first refused request.
* `Run.Follows.bind`: the rule for one run after the other.
* `Run.Follows.lockstep`: with any resolvers, tokens are read in step with resolvers that refuse
  nothing.
* `Parser.follows_accepting`: so are filters, orderings and selections.
-/

namespace QueryExpr

namespace Reading

variable {α β γ δ : Type}

/-- What remains of related outcomes without their values is the same. -/
theorem Ends.map_mapError {ε : Type} {R : α → β → Prop} {x : Except Fault α} {y : Except Fault β}
    (h : Ends R x y) (g : Fault → ε) :
    (x.mapError g).map (fun _ => ()) = (y.mapError g).map (fun _ => ()) := by
  cases h <;> rfl

namespace Run

/-- What is told of the requests, in order. -/
def questions (run : Run α) : List Question := run.requests.map Request.question

/-- With the resolvers `r`, the run `run` goes like the run `full`: to the same end, or to the
    first request that is refused. -/
inductive Follows (r : Resolvers) (R : α → β → Prop) (full : Run α) (run : Run β) : Prop where
  | granted (granted : ∀ q ∈ run.requests, r.fault? q = none)
      (asked : full.questions = run.questions) (ends : Ends R full.outcome run.outcome)
  | refused {q f} (before later) (requests : run.requests = before ++ [q])
      (granted : ∀ q ∈ before, r.fault? q = none) (refused : r.fault? q = some f)
      (asked : full.questions = run.questions ++ later) (outcome : run.outcome = .error f)

theorem questions_bind_ok {run : Run α} {a : α} (h : run.outcome = .ok a) (f : α → Run γ) :
    (run >>= f).questions = run.questions ++ (f a).questions := by
  rw [questions, requests_bind_ok h, List.map_append]
  rfl

theorem questions_bind (run : Run α) (f : α → Run γ) :
    ∃ later, (run >>= f).questions = run.questions ++ later := by
  cases h : run.outcome with
  | ok a => exact ⟨_, questions_bind_ok h f⟩
  | error e =>
    rw [bind_error h]
    exact ⟨[], (List.append_nil _).symm⟩

namespace Follows

variable {r : Resolvers} {R : α → β → Prop} {S : γ → δ → Prop}

theorem pure {a : α} {b : β} (h : R a b) : Follows r R (pure a) (pure b) :=
  .granted (by rintro _ ⟨⟩) rfl (.ok h)

theorem fail {f : Fault} : Follows r R (.fail f) (.fail f) :=
  .granted (by rintro _ ⟨⟩) rfl (.error f)

/-- A request is answered on both sides, or refused. -/
theorem ask {q q' : Request} (hq : q.question = q'.question) {notes notes' : List Note}
    {answer : Except Fault α} {answer' : Except Fault β} {a : α} (ha : answer = .ok a)
    (hok : ∀ b, answer' = .ok b → r.fault? q' = none ∧ R a b)
    (herror : ∀ f, answer' = .error f → r.fault? q' = some f) :
    Follows r R (Run.ask q notes answer) (Run.ask q' notes' answer') := by
  have hquestions : (Run.ask q notes answer).questions = (Run.ask q' notes' answer').questions := by
    simp only [questions, requests_ask, List.map_cons, List.map_nil, hq]
  cases hanswer : answer' with
  | ok b =>
    rw [hanswer] at hquestions
    obtain ⟨hgranted, hrel⟩ := hok b hanswer
    refine .granted ?_ hquestions ?_
    · intro p hp
      rw [requests_ask, List.mem_singleton] at hp
      rw [hp]
      exact hgranted
    · rw [outcome_ask, ha]
      exact .ok hrel
  | error f =>
    rw [hanswer] at hquestions
    refine .refused [] [] ?_ (by rintro _ ⟨⟩) (herror f hanswer) ?_ rfl
    · exact requests_ask _ _ _
    · rw [List.append_nil]
      exact hquestions

/-- Where all requests have been granted, what is done next decides. -/
theorem granted_bind {full : Run α} {run : Run β} {f : α → Run γ} {g : β → Run δ} {a : α} {b : β}
    (hfull : full.outcome = .ok a) (hrun : run.outcome = .ok b)
    (hgranted : ∀ q ∈ run.requests, r.fault? q = none) (hasked : full.questions = run.questions)
    (h : Follows r S (f a) (g b)) : Follows r S (full >>= f) (run >>= g) := by
  have hrequests := requests_bind_ok hrun g
  cases h with
  | granted hgranted' hasked' hends' =>
    refine .granted ?_ ?_ ?_
    · intro q hq
      rw [hrequests, List.mem_append] at hq
      exact hq.elim (hgranted q) (hgranted' q)
    · rw [questions_bind_ok hfull, questions_bind_ok hrun, hasked, hasked']
    · rw [outcome_bind_ok hfull, outcome_bind_ok hrun]
      exact hends'
  | @refused q fault before later hrequests' hgranted' hrefused hasked' houtcome =>
    refine .refused (run.requests ++ before) later ?_ ?_ hrefused ?_ ?_
    · rw [hrequests, hrequests', List.append_assoc]
    · intro q hq
      rw [List.mem_append] at hq
      exact hq.elim (hgranted q) (hgranted' q)
    · rw [questions_bind_ok hfull, questions_bind_ok hrun, hasked, hasked', List.append_assoc]
    · rw [outcome_bind_ok hrun, houtcome]

theorem bind {full : Run α} {run : Run β} {f : α → Run γ} {g : β → Run δ}
    (h : Follows r R full run) (hf : ∀ a b, R a b → Follows r S (f a) (g b)) :
    Follows r S (full >>= f) (run >>= g) := by
  cases h with
  | granted hgranted hasked hends =>
    rcases hends.values_or_fault with ⟨a, b, hfull, hrun, hab⟩ | ⟨fault, hfull, hrun⟩
    · exact granted_bind hfull hrun hgranted hasked (hf a b hab)
    · rw [bind_error hfull, bind_error hrun]
      exact .granted hgranted hasked (.error fault)
  | @refused q fault before later hrequests hgranted hrefused hasked houtcome =>
    -- the other run goes on, so it asks more
    obtain ⟨more, hmore⟩ := questions_bind full f
    rw [bind_error houtcome]
    refine .refused before (later ++ more) hrequests hgranted hrefused ?_ rfl
    rw [hmore, hasked, List.append_assoc]
    rfl

theorem enter (p : Phase) : Follows r (fun _ _ => True) (Run.enter p) (Run.enter p) :=
  .granted (by rintro _ ⟨⟩) rfl (.ok trivial)

/-- The rule for a phase that is entered first. -/
theorem enter_bind {p : Phase} {f : Unit → Run γ} {g : Unit → Run δ}
    (h : Follows r S (f ()) (g ())) : Follows r S (Run.enter p >>= f) (Run.enter p >>= g) :=
  bind (enter p) fun _ _ _ => h

theorem literalValue {raw : Literal.Raw} {span : Span} :
    Follows r (fun _ _ => True) (literalValue raw span) (literalValue raw span) := by
  unfold Reading.literalValue
  split
  · exact pure trivial
  · exact fail

variable {r₀ : Resolvers} (h₀ : r₀.Accepting)

include h₀

theorem member (word : String) :
    Follows r (fun _ _ => True) (member r₀ word) (member r word) := by
  obtain ⟨m, hm⟩ := h₀.member_ok (pathSegments word)
  refine enter_bind ?_
  refine bind (R := fun _ _ => True) ?_ fun _ _ _ => enter_bind (pure trivial)
  refine ask rfl (mapError_eq_ok.2 hm) ?_ ?_
  · intro m' hm'
    rw [mapError_eq_ok] at hm'
    simp [Resolvers.fault?, hm']
  · intro f hf
    obtain ⟨e, he, rfl⟩ := mapError_eq_error.1 hf
    simp [Resolvers.fault?, he]

/-- The arguments of a call are as many on both sides. -/
theorem call (word : String) {args₀ args : List Expr} (hargs : args₀.length = args.length) :
    Follows r (fun _ _ => True) (call r₀ word args₀) (call r word args) := by
  obtain ⟨c, hc⟩ := h₀.method_ok word args₀
  refine bind (R := fun _ _ => True) ?_ fun _ _ _ => enter_bind (pure trivial)
  refine ask (by simp [Request.question, hargs]) (mapError_eq_ok.2 hc) ?_ ?_
  · intro c' hc'
    rw [mapError_eq_ok] at hc'
    simp [Resolvers.fault?, hc']
  · intro f hf
    obtain ⟨e, he, rfl⟩ := mapError_eq_error.1 hf
    simp [Resolvers.fault?, he]

omit h₀ in
/-- With the resolvers `r`, tokens are read in step with resolvers that refuse nothing. The values
    may be any. -/
def lockstep (h₀ : r₀.Accepting) (r : Resolvers) : Lockstep r₀ r where
  Values _ _ := True
  Tokens t t' := t = t'
  Runs R full run := Follows r R full run
  kind_eq h := congrArg Token.kind h
  unary _ := fun _ => trivial
  binary _ := fun _ _ => trivial
  collection _ := trivial
  pure := pure
  grammar _ _ := fail
  bind := bind
  enter := enter
  literal := by
    rintro t _ raw rfl -
    exact literalValue
  member _ _ := member h₀ _
  call word _ _ hargs := call h₀ word hargs.length_eq

end Follows

end Run

open Run (Follows)

section

variable {r₀ : Resolvers} (h₀ : r₀.Accepting) (r : Resolvers)

theorem tokens_self (ts : List Token) :
    List.Forall₂ (Follows.lockstep h₀ r).Tokens ts ts :=
  List.forall₂_same.2 fun _ _ => rfl

include h₀ in
theorem filter_follows (budget : Nat) (ts : List Token) :
    Follows r (Option.Rel fun _ _ => True) (filter r₀ budget ts) (filter r budget ts) :=
  Lockstep.filter ((Follows.lockstep h₀ r).expression budget 0) (tokens_self h₀ r ts)

theorem orderItem_follows (budget : Nat) :
    (Follows.lockstep h₀ r).Readers (Follows.lockstep h₀ r).OrderItems (orderItem r₀ budget)
      (orderItem r budget) :=
  Lockstep.orderItem ((Follows.lockstep h₀ r).expression budget 0)

theorem selectItem_follows (budget : Nat) :
    (Follows.lockstep h₀ r).Readers (Follows.lockstep h₀ r).SelectItems (selectItem r₀ budget)
      (selectItem r budget) :=
  Lockstep.selectItem ((Follows.lockstep h₀ r).expression budget 0)

variable {h₀ r}

theorem wholeList_follows {R : α → β → Prop} {item₀ : Reader α} {item : Reader β}
    (hitem : (Follows.lockstep h₀ r).Readers R item₀ item) (ts : List Token) :
    Follows r (List.Forall₂ R) (wholeList item₀ ts) (wholeList item ts) :=
  Lockstep.wholeList hitem (tokens_self h₀ r ts)

end

end Reading

/-! ## Texts -/

/-- With the resolvers `r`, the report `rep` is as the report `full`: it has asked the same and has
    the same error or none, or it ends with the first request that is refused. -/
inductive Report.Follows {α β : Type} (r : Resolvers) (full : Report α) (rep : Report β) :
    Prop where
  | granted (granted : ∀ q ∈ rep.requests, r.refusal? q = none)
      (asked : full.questions = rep.questions)
      (ends : full.outcome.map (fun _ => ()) = rep.outcome.map (fun _ => ()))
  | refused {before q e later} (requests : rep.requests = before ++ [q])
      (granted : ∀ q ∈ before, r.refusal? q = none) (refused : r.refusal? q = some e)
      (asked : full.questions = rep.questions ++ later) (outcome : rep.outcome = .error e)

namespace Parser

open Reading (Run)

/-- Two runs in step over the tokens are reported in step. -/
theorem report_follows {α : Type} {p : Parser} {r₀ : Resolvers} (mode : Reading.Mode)
    (read : Resolvers → Nat → List Token → Run α) {R : α → α → Prop}
    (hread : ∀ ts, Run.Follows p.resolvers R (read r₀ p.limits.maxDepth ts)
      (read p.resolvers p.limits.maxDepth ts)) (text : String) :
    Report.Follows p.resolvers (report ⟨r₀, p.limits⟩ mode read text)
      (p.report mode read text) := by
  have htokens : tokens ⟨r₀, p.limits⟩ text = p.tokens text := rfl
  rw [report, report, htokens]
  split
  next e _ => exact .granted (by rintro _ ⟨⟩) rfl rfl
  next ts _ =>
    have herror : ∀ q, p.resolvers.refusal? q =
        (p.resolvers.fault? q).map (Reading.Fault.toError text ts.length p.limits.maxDepth) :=
      fun q => p.resolvers.refusal?_eq_map q text ts.length p.limits.maxDepth
    have hnone : ∀ q, p.resolvers.fault? q = none → p.resolvers.refusal? q = none := by
      intro q hq
      rw [herror, hq]
      rfl
    cases hread ts with
    | granted granted asked ends =>
      exact .granted (fun q hq => hnone q (granted q hq)) asked (ends.map_mapError _)
    | @refused q f before later requests granted refused asked outcome =>
      refine .refused (e := f.toError text ts.length p.limits.maxDepth) requests
        (fun q hq => hnone q (granted q hq)) ?_ asked ?_
      · rw [herror, refused]
        rfl
      · dsimp only [outcomeOf]
        rw [outcome]
        rfl

/-- With whatever resolvers, a text is read as with resolvers that refuse nothing, up to the first
    request that is refused. -/
theorem follows_accepting (p : Parser) {r₀ : Resolvers} (h₀ : r₀.Accepting) (text : String) :
    let full : Parser := ⟨r₀, p.limits⟩
    Report.Follows p.resolvers (full.parse text) (p.parse text) ∧
    Report.Follows p.resolvers (full.parseOrderBy text) (p.parseOrderBy text) ∧
    Report.Follows p.resolvers (full.parseSelect text) (p.parseSelect text) := by
  refine ⟨?_, ?_, ?_⟩
  · exact report_follows _ _ (Reading.filter_follows h₀ _ _) text
  · exact report_follows _ _ (Reading.wholeList_follows (Reading.orderItem_follows h₀ _ _)) text
  · exact report_follows _ _ (Reading.wholeList_follows (Reading.selectItem_follows h₀ _ _)) text

/-- The standard resolvers know no method `f`, so what stands behind its call is not asked. -/
theorem follows_accepting_unknown_method :
    let full : Parser := ⟨.transparent, .standard⟩
    full.resolvers.Accepting ∧
      (full.parse "f(a) eq b").questions = [.member ["a"], .method "f" 1, .member ["b"]] ∧
      (standard.parse "f(a) eq b").questions = [.member ["a"], .method "f" 1] ∧
      Report.Follows standard.resolvers (full.parse "f(a) eq b") (standard.parse "f(a) eq b") :=
  ⟨Resolvers.transparent_transparent.accepting, rfl, rfl,
    (follows_accepting standard Resolvers.transparent_transparent.accepting _).1⟩

end Parser

end QueryExpr
