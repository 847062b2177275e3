import Mathlib.Data.List.Chain
import QueryExpr.Proofs.Answers
import QueryExpr.Proofs.Run

/-!
# The phases of a reading

A reading moves between its phases along a few edges. It puts paths to the member resolver in one
phase and calls to the method resolver in another one, wherever in a query they stand.

* `Phase.successors`: the edges.
* `Course`: entries of a trace that follow the edges, with each question in its phase.
* `Run.Walks`: a run whose steps do so, from one phase to another.
* `expression_walks`: how expressions do so; likewise filters and lists of items.
* `Report.FollowsPhases`: what a whole trace says of the phases.
* `Parser.followsPhases_of_tokens`: the trace of every reading says so.
-/

namespace QueryExpr

namespace Reading

/-! ## Edges -/

/-- The phases to which a reading can move from a phase. Where it has ended, it moves no more. -/
def Phase.successors : Phase → List Phase
  | atStart => [scanning]
  | scanning => [expression, atEnd, failed]
  | expression => [arguments, member, atEnd, failed]
  | arguments => [expression, failed]
  | member => [expression, failed]
  | atEnd | failed => []

/-- The phase in which a question is put. -/
def Question.phase : Question → Phase
  | member _ => .member
  | method _ _ => .arguments

/-- The phases that an entry is about, if it is about a move. -/
def Event.move? : Event → Option (Phase × Phase)
  | moved source target => some (source, target)
  | _ => none

/-- The question that an entry is about. -/
def Event.question? : Event → Option Question
  | asked q => some q
  | _ => none

/-- The moves that a trace tells of. -/
def moves (events : List Event) : List (Phase × Phase) := events.filterMap Event.move?

/-- The phase that the last move enters; the first phase if there is no move. -/
def phaseBehind (events : List Event) : Phase :=
  ((moves events).getLast?.map Prod.snd).getD .atStart

/-- The entries lead from one phase to another along the edges, and each question is put in its
    phase. -/
inductive Course : Phase → List Event → Phase → Prop where
  | nil {p} : Course p [] p
  | move {p q events last} (edge : q ∈ p.successors) (more : Course q events last) :
      Course p (.moved p q :: events) last
  | ask {p q events last} (hq : q.phase = p) (more : Course p events last) :
      Course p (.asked q :: events) last
  | other {p e events last} (hmove : e.move? = none) (hquestion : e.question? = none)
      (more : Course p events last) : Course p (e :: events) last

theorem Phase.ne_of_mem_successors {p q : Phase} (h : q ∈ p.successors) : p ≠ q := by
  rintro rfl
  cases p <;> simp [successors] at h

theorem Phase.source_of_mem_successors {p q : Phase} (h : q ∈ p.successors) :
    p ≠ .atEnd ∧ p ≠ .failed := by
  constructor <;> rintro rfl <;> simp [successors] at h

namespace Course

variable {p q last : Phase} {events events' : List Event}

theorem append (h : Course p events q) (h' : Course q events' last) :
    Course p (events ++ events') last := by
  induction h with
  | nil => exact h'
  | move edge _ ih => exact .move edge (ih h')
  | ask hq _ ih => exact .ask hq (ih h')
  | other hmove hquestion _ ih => exact .other hmove hquestion (ih h')

/-- Entering a phase tells of a move unless the reading is in the phase already. -/
theorem enter (h : p = q ∨ q ∈ p.successors) : Course p (enterEvents p q) q := by
  rw [enterEvents]
  split
  next hpq =>
    rw [hpq]
    exact .nil
  next hpq => exact .move (h.resolve_left hpq) .nil

/-- Each move goes on from where the one before has come. -/
theorem chain (h : Course p events last) (source : Phase) :
    ((source, p) :: moves events).IsChain fun m n => m.2 = n.1 := by
  induction h generalizing source with
  | nil => exact .singleton _
  | @move p q events last _ _ ih =>
    have hmoves : moves (.moved p q :: events) = (p, q) :: moves events := rfl
    rw [hmoves]
    exact .cons_cons rfl (ih p)
  | ask _ _ ih => exact ih source
  | other hmove _ _ ih =>
    rw [moves, List.filterMap_cons_none hmove]
    exact ih source

theorem edge_of_mem (h : Course p events last) :
    ∀ m ∈ moves events, m.2 ∈ m.1.successors := by
  induction h with
  | nil => simp [moves]
  | move edge _ ih => exact List.forall_mem_cons.2 ⟨edge, ih⟩
  | ask _ _ ih => exact ih
  | other hmove _ _ ih =>
    rw [moves, List.filterMap_cons_none hmove]
    exact ih

/-- The last move has come to where the entries lead. -/
theorem getLast?_moves (h : Course p events last) :
    ((moves events).getLast?.map Prod.snd).getD p = last := by
  induction h with
  | nil => rfl
  | @move p q events last _ _ ih =>
    have hmoves : moves (.moved p q :: events) = (p, q) :: moves events := rfl
    rw [hmoves, List.getLast?_cons]
    cases hlast : (moves events).getLast? with
    | none => simpa [hlast] using ih
    | some m => simpa [hlast] using ih
  | ask _ _ ih => exact ih
  | other hmove _ _ ih =>
    rw [moves, List.filterMap_cons_none hmove]
    exact ih

/-- What is in front of an entry leads to its phase. -/
theorem split (h : Course p (events ++ events') last) :
    ∃ q, Course p events q ∧ Course q events' last := by
  induction events generalizing p with
  | nil => exact ⟨p, .nil, h⟩
  | cons e events ih =>
    cases h with
    | move edge more =>
      obtain ⟨q, hfront, hback⟩ := ih more
      exact ⟨q, .move edge hfront, hback⟩
    | ask hq more =>
      obtain ⟨q, hfront, hback⟩ := ih more
      exact ⟨q, .ask hq hfront, hback⟩
    | other hmove hquestion more =>
      obtain ⟨q, hfront, hback⟩ := ih more
      exact ⟨q, .other hmove hquestion hfront, hback⟩

/-- A question is put in its phase. -/
theorem phase_of_asked {question : Question}
    (h : Course .atStart (events ++ .asked question :: events') last) :
    phaseBehind events = question.phase := by
  obtain ⟨q, hfront, hback⟩ := h.split
  have hq : question.phase = q := by
    cases hback with
    | ask hq _ => exact hq
    | other _ hquestion _ => cases hquestion
  rw [hq]
  exact hfront.getLast?_moves

end Course

/-! ## Steps -/

theorem phaseAfter_append (current : Phase) (steps steps' : List Step) :
    phaseAfter current (steps ++ steps') = phaseAfter (phaseAfter current steps) steps' := by
  induction steps generalizing current with
  | nil => rfl
  | cons s steps ih => cases s <;> exact ih _

theorem eventsFrom_append (current : Phase) (steps steps' : List Step) :
    eventsFrom current (steps ++ steps') =
      eventsFrom current steps ++ eventsFrom (phaseAfter current steps) steps' := by
  induction steps generalizing current with
  | nil => rfl
  | cons s steps ih =>
    cases s with
    | enter p =>
      rw [List.cons_append, eventsFrom, eventsFrom, ih, List.append_assoc]
      rfl
    | ask q =>
      rw [List.cons_append, eventsFrom, eventsFrom, ih]
      rfl
    | note n =>
      rw [List.cons_append, eventsFrom, eventsFrom, ih]
      rfl

theorem enterEvents_question? (source target : Phase) :
    (enterEvents source target).filterMap Event.question? = [] := by
  rw [enterEvents]
  split <;> rfl

/-- A trace tells of each request. -/
theorem eventsFrom_question? (current : Phase) (steps : List Step) :
    (eventsFrom current steps).filterMap Event.question? =
      (steps.filterMap Step.request?).map Request.question := by
  induction steps generalizing current with
  | nil => rfl
  | cons s steps ih =>
    cases s with
    | enter p =>
      rw [eventsFrom, List.filterMap_append, enterEvents_question?, ih]
      rfl
    | ask q =>
      rw [eventsFrom, List.filterMap_cons_some (f := Event.question?) rfl, ih]
      rfl
    | note n =>
      rw [eventsFrom, List.filterMap_cons_none rfl, ih]
      rfl

/-! ## Runs -/

variable {α β : Type}

/-- In the phase `source`, the steps of the run follow the edges. With a value they lead to the
    phase `target`, with a fault to one in which a reading can fail. -/
structure Run.Walks (run : Run α) (source target : Phase) : Prop where
  course : Course source (eventsFrom source run.log) (phaseAfter source run.log)
  value : ∀ a, run.outcome = .ok a → phaseAfter source run.log = target
  fault : ∀ f, run.outcome = .error f → .failed ∈ (phaseAfter source run.log).successors

namespace Run.Walks

variable {p q s : Phase} {run : Run α}

theorem pure {a : α} : (pure a : Run α).Walks p p :=
  ⟨.nil, fun _ _ => rfl, by rintro _ ⟨⟩⟩

theorem fail {f : Fault} (h : .failed ∈ p.successors) : (Run.fail f : Run α).Walks p q :=
  ⟨.nil, by rintro _ ⟨⟩, fun _ _ => h⟩

theorem enter (h : p = q ∨ q ∈ p.successors) : (Run.enter q).Walks p q := by
  refine ⟨?_, fun _ _ => rfl, by rintro _ ⟨⟩⟩
  have := Course.enter h
  rw [← List.append_nil (enterEvents p q)] at this
  exact this

/-- The remarks on a request are no moves. -/
theorem course_notes (p : Phase) (notes : List Note) :
    Course p (eventsFrom p (notes.map Step.note)) p ∧ phaseAfter p (notes.map Step.note) = p := by
  induction notes with
  | nil => exact ⟨.nil, rfl⟩
  | cons n notes ih => exact ⟨.other rfl rfl ih.1, ih.2⟩

theorem ask {q : Request} {notes : List Note} {answer : Except Fault α}
    (hq : q.question.phase = p) (h : .failed ∈ p.successors) :
    (Run.ask q notes answer).Walks p p := by
  obtain ⟨hcourse, hafter⟩ := course_notes p notes
  have hlog : phaseAfter p (Run.ask q notes answer).log = p := hafter
  refine ⟨?_, fun _ _ => hlog, fun _ _ => by rwa [hlog]⟩
  rw [hlog]
  exact .ask hq hcourse

theorem bind {f : α → Run β} (hr : run.Walks p q) (hf : ∀ a, (f a).Walks q s) :
    (run >>= f).Walks p s := by
  cases h : run.outcome with
  | ok a =>
    have hq := hr.value a h
    have hlog : phaseAfter p (run >>= f).log = phaseAfter q (f a).log := by
      rw [log_bind_ok h, phaseAfter_append, hq]
    refine ⟨?_, ?_, ?_⟩
    · rw [hlog, log_bind_ok h, eventsFrom_append, hq]
      have := hr.course
      rw [hq] at this
      exact this.append (hf a).course
    · rw [hlog, outcome_bind_ok h]
      exact (hf a).value
    · rw [hlog, outcome_bind_ok h]
      exact (hf a).fault
  | error e =>
    rw [bind_error h]
    exact ⟨hr.course, by rintro _ ⟨⟩, fun _ _ => hr.fault e h⟩

theorem missing {wanted : Wanted} {ts : List Token} (h : .failed ∈ p.successors) :
    (missing wanted ts : Run α).Walks p q := by
  cases ts with
  | nil => exact fail h
  | cons t ts => exact fail h

theorem mark {m : Mark} {wanted : Wanted} {ts : List Token} (h : .failed ∈ p.successors) :
    (mark m wanted ts).Walks p p := by
  cases ts with
  | nil => exact fail h
  | cons t ts =>
    rw [Reading.mark]
    split
    · exact pure
    · exact missing h

end Run.Walks

/-! ## Expressions -/

/-- An expression can be read in the phase. -/
def Phase.Admits (p : Phase) : Prop := p = .expression ∨ .expression ∈ p.successors

theorem Phase.Admits.failed {p : Phase} (h : p.Admits) : .failed ∈ p.successors := by
  rcases h with rfl | h
  · decide
  · cases p <;> simp_all [successors]

section

variable {r : Resolvers} {sub : Nat → Reader Expr}
  (hsub : ∀ p : Phase, p.Admits → ∀ minPower ts, (sub minPower ts).Walks p .expression)

include hsub

/-- Behind each item, a list is in the phase of its arguments again. -/
theorem laterItems_walks (bound ts : List Token) :
    (laterItems sub bound ts).Walks .expression .arguments := by
  induction bound generalizing ts with
  | nil => exact .bind (.enter (.inr (by decide))) fun _ => .missing (by decide)
  | cons b bound ih =>
    apply Run.Walks.bind (.enter (.inr (by decide)))
    intro _
    dsimp only
    split
    · apply (hsub .arguments (.inr (by decide)) 0 ts.tail).bind
      rintro ⟨e, rest⟩
      exact .bind (ih rest) fun _ => .pure
    · exact .bind (.mark (by decide)) fun _ => .pure

theorem list_walks (ts : List Token) : (list sub ts).Walks .expression .arguments := by
  apply Run.Walks.bind (.enter (.inr (by decide)))
  intro _
  split
  · exact .pure
  · apply (hsub .arguments (.inr (by decide)) 0 ts).bind
    rintro ⟨e, rest⟩
    exact .bind (laterItems_walks hsub rest rest) fun _ => .pure

theorem valueList_walks (ts : List Token) : (valueList sub ts).Walks .expression .expression := by
  apply Run.Walks.bind (.mark (by decide))
  rintro ⟨⟨⟩, rest⟩
  apply (list_walks hsub rest).bind
  rintro ⟨es, rest'⟩
  exact .bind (.enter (.inr (by decide))) fun _ => .pure

omit hsub in
theorem member_walks (word : String) : (member r word).Walks .expression .expression := by
  apply Run.Walks.bind (.enter (.inr (by decide)))
  intro _
  apply Run.Walks.bind (q := .member) (.ask rfl (by decide))
  intro m
  exact .bind (.enter (.inr (by decide))) fun _ => .pure

omit hsub in
theorem call_walks (word : String) (args : List Expr) :
    (call r word args).Walks .arguments .expression := by
  apply Run.Walks.bind (q := .arguments) (.ask rfl (by decide))
  intro c
  exact .bind (.enter (.inr (by decide))) fun _ => .pure

omit hsub in
theorem literalValue_walks (raw : Literal.Raw) (span : Span) :
    (literalValue raw span).Walks .expression .expression := by
  unfold literalValue
  split
  · exact .pure
  · exact .fail (by decide)

theorem primary_walks (ts : List Token) : (primary r sub ts).Walks .expression .expression := by
  have hfailed : Phase.failed ∈ Phase.expression.successors := by decide
  cases ts with
  | nil =>
    rw [primary]
    exact .missing hfailed
  | cons t ts =>
    rw [primary]
    split
    · exact .bind (literalValue_walks _ _) fun _ => .pure
    · apply (hsub .expression (.inl rfl) 0 ts).bind
      rintro ⟨e, rest⟩
      dsimp only
      split
      · exact .pure
      · exact .missing hfailed
    · exact .missing hfailed
    next word _ =>
      split
      · apply (list_walks hsub ts.tail).bind
        rintro ⟨args, rest⟩
        exact .bind (call_walks word args) fun _ => .pure
      · split
        · exact .missing hfailed
        · exact .bind (member_walks word) fun _ => .pure

theorem operand_walks (ts : List Token) : (operand r sub ts).Walks .expression .expression := by
  cases ts with
  | nil =>
    rw [operand]
    exact .missing (by decide)
  | cons t ts =>
    rw [operand]
    split
    next op _ => exact .bind (hsub .expression (.inl rfl) op.operandPower ts) fun _ => .pure
    next => exact primary_walks hsub (t :: ts)

theorem chain_walks (minPower : Nat) (bound : List Token) (left : Expr) (ts : List Token) :
    (chain sub minPower bound left ts).Walks .expression .expression := by
  induction bound generalizing left ts with
  | nil => exact .pure
  | cons b bound ih =>
    cases hop : nextOperator? minPower ts with
    | none =>
      rw [chain_of_none hop]
      exact .pure
    | some op =>
      rw [chain_of_some hop]
      split
      · exact .bind (valueList_walks hsub ts.tail) fun _ => ih _ _
      · exact .bind (hsub .expression (.inl rfl) op.rightPower ts.tail) fun _ => ih _ _

end

/-- An expression leaves the reading in the phase of expressions, wherever it begins. -/
theorem expression_walks (r : Resolvers) (budget : Nat) {p : Phase} (hp : p.Admits)
    (minPower : Nat) (ts : List Token) :
    (expression r budget minPower ts).Walks p .expression := by
  induction budget generalizing p minPower ts with
  | zero => exact .fail hp.failed
  | succ budget ih =>
    have hsub : ∀ p : Phase, p.Admits → ∀ minPower ts,
        (expression r budget minPower ts).Walks p .expression := fun _ => ih
    have henter : p = .expression ∨ .expression ∈ p.successors := hp
    apply Run.Walks.bind (.enter henter)
    intro _
    apply (operand_walks hsub ts).bind
    rintro ⟨left, rest⟩
    exact chain_walks hsub minPower rest left rest

/-! ## Filters, orderings and selections -/

theorem inputEnd_walks (ts : List Token) : (inputEnd ts).Walks .expression .expression := by
  cases ts with
  | nil => exact .pure
  | cons t ts =>
    rw [inputEnd]
    split
    · exact .fail (by decide)
    · exact .missing (by decide)

/-- From the look at the tokens, the run leads to a phase in which a reading can end. -/
def Run.Completes (run : Run α) : Prop :=
  ∃ target : Phase, .atEnd ∈ target.successors ∧ run.Walks .scanning target

theorem filter_completes (r : Resolvers) (budget : Nat) (ts : List Token) :
    (filter r budget ts).Completes := by
  rw [filter]
  split
  · exact ⟨.scanning, by decide, .pure⟩
  · refine ⟨.expression, by decide, ?_⟩
    apply (expression_walks r budget (.inr (by decide)) 0 ts).bind
    rintro ⟨e, rest⟩
    exact .bind (inputEnd_walks rest) fun _ => .pure

theorem orderItem_walks (r : Resolvers) (budget : Nat) (p : Phase) (hp : p.Admits)
    (ts : List Token) : (orderItem r budget ts).Walks p .expression := by
  apply (expression_walks r budget hp 0 ts).bind
  rintro ⟨e, rest⟩
  dsimp only
  split <;> exact .pure

theorem itemName_walks (ts : List Token) : (itemName ts).Walks .expression .expression := by
  unfold itemName
  split
  · split
    · exact .pure
    · exact .missing (by decide)
  · exact .missing (by decide)

theorem selectItem_walks (r : Resolvers) (budget : Nat) (p : Phase) (hp : p.Admits)
    (ts : List Token) : (selectItem r budget ts).Walks p .expression := by
  apply (expression_walks r budget hp 0 ts).bind
  rintro ⟨e, rest⟩
  dsimp only
  split
  · exact .bind (itemName_walks rest.tail) fun _ => .pure
  · exact .pure

section

variable {item : Reader α}
  (hitem : ∀ p : Phase, p.Admits → ∀ ts, (item ts).Walks p .expression)

include hitem

theorem separated_walks (limit : Nat) {p : Phase} (hp : p.Admits) (ts : List Token) :
    (separated item (limit + 1) ts).Walks p .expression := by
  induction limit generalizing p ts with
  | zero =>
    apply (hitem p hp ts).bind
    rintro ⟨a, rest⟩
    dsimp only
    split <;> exact .pure
  | succ limit ih =>
    apply (hitem p hp ts).bind
    rintro ⟨a, rest⟩
    dsimp only
    split
    · exact .bind (ih (.inl rfl) rest.tail) fun _ => .pure
    · exact .pure

theorem wholeList_completes (ts : List Token) : (wholeList item ts).Completes := by
  rw [wholeList]
  split
  · exact ⟨.scanning, by decide, .pure⟩
  · refine ⟨.expression, by decide, ?_⟩
    apply (separated_walks hitem ts.length (.inr (by decide)) ts).bind
    rintro ⟨as, rest⟩
    exact .bind (inputEnd_walks rest) fun _ => .pure

end

end Reading

/-! ## Traces -/

open Reading (moves phaseBehind Course Event)

/-- The trace tells of a walk along the edges: it begins with the look at the tokens, each move goes
    on from where the one before has come, and the last one comes to where a reading with such an
    outcome ends. What the trace tells of questions are the questions put, each in its phase. -/
structure Report.FollowsPhases {α : Type} (r : Report α) : Prop where
  starts : (moves r.trace).head? = some (.atStart, .scanning)
  chained : (moves r.trace).IsChain fun m n => m.2 = n.1
  edges : ∀ m ∈ moves r.trace, m.2 ∈ m.1.successors
  changes : ∀ m ∈ moves r.trace, m.1 ≠ m.2
  final : ∀ m ∈ moves r.trace, m.1 ≠ .atEnd ∧ m.1 ≠ .failed
  succeeds : phaseBehind r.trace = .atEnd ↔ ∃ a, r.outcome = .ok a
  fails : phaseBehind r.trace = .failed ↔ ∃ e, r.outcome = .error e
  asked : ∀ before q after, r.trace = before ++ .asked q :: after → phaseBehind before = q.phase
  questions : r.trace.filterMap Event.question? = r.questions

namespace Parser

variable {α : Type} {p : Parser} {text : String} {ts : List Token}

/-- The entries for the end of a reading lead to the phase of its outcome. -/
theorem course_endEvents {q : Reading.Phase} {outcome : Except ParseError α}
    (hok : ∀ a, outcome = .ok a → .atEnd ∈ q.successors)
    (herror : ∀ e, outcome = .error e → .failed ∈ q.successors) :
    Course q (Reading.endEvents q (errorOf? outcome))
      (if (errorOf? outcome).isNone then .atEnd else .failed) := by
  cases outcome with
  | ok a => exact .enter (.inr (hok a rfl))
  | error e => exact .other rfl rfl (.enter (.inr (herror e rfl)))

theorem endEvents_question? (q : Reading.Phase) (error? : Option ParseError) :
    (Reading.endEvents q error?).filterMap Event.question? = [] := by
  cases error? with
  | none => exact Reading.enterEvents_question? _ _
  | some e =>
    rw [Reading.endEvents, List.filterMap_cons_none rfl]
    exact Reading.enterEvents_question? _ _

/-- A run that completes is reported with a trace that follows the phases. -/
theorem report_followsPhases (h : p.tokens text = .ok ts) (mode : Reading.Mode)
    (read : Resolvers → Nat → List Token → Reading.Run α)
    (hread : (read p.resolvers p.limits.maxDepth ts).Completes) :
    (p.report mode read text).FollowsPhases := by
  obtain ⟨target, htarget, hwalks⟩ := hread
  rw [report, h]
  dsimp only
  generalize hrun : read p.resolvers p.limits.maxDepth ts = run at hwalks
  generalize houtcome : p.outcomeOf text ts run = outcome
  have hok : ∀ a, outcome = .ok a →
      .atEnd ∈ (Reading.phaseAfter .scanning run.log).successors := by
    rintro a rfl
    rw [hwalks.value a (Reading.Run.mapError_eq_ok.1 houtcome)]
    exact htarget
  have herror : ∀ e, outcome = .error e →
      .failed ∈ (Reading.phaseAfter .scanning run.log).successors := by
    rintro e rfl
    obtain ⟨f, hf, -⟩ := Reading.Run.mapError_eq_error.1 houtcome
    exact hwalks.fault f hf
  generalize htrace : Reading.traceOf mode (Text.Utf8.size text.toList) ts.length run.log
    (errorOf? outcome) = trace
  have hsplit : trace = .started mode (Text.Utf8.size text.toList) ts.length ::
      .moved .atStart .scanning :: (Reading.eventsFrom .scanning run.log ++
        Reading.endEvents (Reading.phaseAfter .scanning run.log) (errorOf? outcome) ++
          [.finished mode (if (errorOf? outcome).isNone then .atEnd else .failed)
            (errorOf? outcome).isNone]) := htrace.symm
  have hcourse : Course .atStart trace (if (errorOf? outcome).isNone then .atEnd else .failed) := by
    rw [hsplit]
    refine .other rfl rfl (.move (by decide) ?_)
    exact (hwalks.course.append (course_endEvents hok herror)).append (.other rfl rfl .nil)
  have hlast : phaseBehind trace = if (errorOf? outcome).isNone then .atEnd else .failed :=
    hcourse.getLast?_moves
  refine ⟨?_, ?_, hcourse.edge_of_mem, ?_, ?_, ?_, ?_, ?_, ?_⟩
  · rw [hsplit]
    rfl
  · exact (hcourse.chain .atStart).tail
  · exact fun m hm => Reading.Phase.ne_of_mem_successors (hcourse.edge_of_mem m hm)
  · exact fun m hm => Reading.Phase.source_of_mem_successors (hcourse.edge_of_mem m hm)
  · rw [hlast]
    cases outcome <;> simp [errorOf?]
  · rw [hlast]
    cases outcome <;> simp [errorOf?]
  · rintro before q after rfl
    exact hcourse.phase_of_asked
  · rw [hsplit, List.filterMap_cons_none rfl, List.filterMap_cons_none rfl,
      List.filterMap_append, List.filterMap_append, Reading.eventsFrom_question?,
      endEvents_question?, List.append_nil]
    exact List.append_nil _

/-- Whatever a text is read as, and with whatever resolvers, the trace of the reading follows the
    phases. -/
theorem followsPhases_of_tokens (p : Parser) {text : String} {ts : List Token}
    (h : p.tokens text = .ok ts) :
    (p.parse text).FollowsPhases ∧ (p.parseOrderBy text).FollowsPhases ∧
      (p.parseSelect text).FollowsPhases := by
  refine ⟨?_, ?_, ?_⟩
  · exact report_followsPhases h .filter Reading.filter (Reading.filter_completes _ _ ts)
  · exact report_followsPhases h .ordering Reading.ordering
      (Reading.wholeList_completes (Reading.orderItem_walks _ _) ts)
  · exact report_followsPhases h .selection Reading.selection
      (Reading.wholeList_completes (Reading.selectItem_walks _ _) ts)

/-- A value list is read in the phase of arguments, and a query can fail in it. -/
theorem followsPhases_of_tokens_membership :
    let p : Parser := ⟨.transparent, .standard⟩
    let text := "f(a) in (1"
    let tokens : List Token := [⟨.name "f", ⟨0, 1⟩⟩, ⟨.mark .parenOpen, ⟨1, 2⟩⟩,
      ⟨.name "a", ⟨2, 3⟩⟩, ⟨.mark .parenClose, ⟨3, 4⟩⟩, ⟨.name "in", ⟨5, 7⟩⟩,
      ⟨.mark .parenOpen, ⟨8, 9⟩⟩, ⟨.literal ⟨"1", .int⟩, ⟨9, 10⟩⟩]
    p.tokens text = .ok tokens ∧ (p.parse text).FollowsPhases ∧
      moves (p.parse text).trace =
        [(.atStart, .scanning), (.scanning, .expression), (.expression, .arguments),
          (.arguments, .expression), (.expression, .member), (.member, .expression),
          (.expression, .arguments), (.arguments, .expression), (.expression, .arguments),
          (.arguments, .expression), (.expression, .arguments), (.arguments, .failed)] :=
  have h : tokens ⟨.transparent, .standard⟩ "f(a) in (1" = .ok _ := rfl
  ⟨h, (followsPhases_of_tokens ⟨.transparent, .standard⟩ h).1, rfl⟩

end Parser

end QueryExpr
