import QueryExpr.Reading.Fault
import QueryExpr.Reading.Step

/-!
# The trace of a reading

What a `ParseSession` and a parser log (specification, 10.1).

* `Event`: an entry of a trace.
* `Event.line`: the entry in words.
* `eventsOf`: the entries for the steps of a reading. Entering the phase that a
  reading is in already is no entry.
-/

namespace QueryExpr.Reading

/-- What a text is read as. -/
inductive Mode where
  | filter
  | ordering
  | selection
  deriving DecidableEq, Repr, Inhabited

/-- What a trace calls the text. -/
def Mode.name : Mode → String
  | filter => "filter"
  | ordering => "order by"
  | selection => "select"

/-- An entry of a trace. -/
inductive Event where
  /-- A text of so many bytes and tokens is going to be read. -/
  | started (mode : Mode) (bytes tokens : Nat)
  | moved (source target : Phase)
  | asked (q : Question)
  | noted (n : Note)
  | failed (message : String)
  /-- The reading is over, in the given phase. -/
  | finished (mode : Mode) (phase : Phase) (ok : Bool)
  deriving DecidableEq, Repr

/-- A question in words. -/
def Question.line : Question → String
  | member path =>
    let name := Text.Segments.join '/' path
    s!"TRACE Resolving member member={name}"
  | method name count => s!"TRACE Resolving method method={name} args={count}"

/-- A remark in words. -/
def noteLine : Note → String
  | .passedThrough member => s!"WARN Unknown field passed through member={member}"
  | .strategyChosen method strategy =>
    s!"TRACE Resolving method method={method} strategy={strategy}"

/-- The entry in words, with its level in front and its data behind. -/
def Event.line : Event → String
  | started mode bytes tokens => s!"DEBUG Parsing {mode.name} length={bytes} tokens={tokens}"
  | moved source target => s!"TRACE Parser state from={source.name} to={target.name}"
  | asked q => q.line
  | noted n => noteLine n
  | failed message => s!"TRACE Parse failed error={message}"
  | finished mode phase ok => s!"DEBUG Parsed {mode.name} state={phase.name} ok={ok}"

/-- The entry for entering a phase from another one (`transition`). -/
def enterEvents (source target : Phase) : List Event :=
  if source = target then [] else [.moved source target]

/-- The entries for steps that begin in a phase. -/
def eventsFrom (current : Phase) : List Step → List Event
  | [] => []
  | .enter p :: steps => enterEvents current p ++ eventsFrom p steps
  | .ask q :: steps => .asked q.question :: eventsFrom current steps
  | .note n :: steps => .noted n :: eventsFrom current steps

/-- The phase in which steps end that begin in a phase. -/
def phaseAfter (current : Phase) : List Step → Phase
  | [] => current
  | .enter p :: steps => phaseAfter p steps
  | _ :: steps => phaseAfter current steps

/-- The entries for the end of a reading that is in a phase (`finish`). -/
def endEvents (current : Phase) (error? : Option ParseError) : List Event :=
  match error? with
  | none => enterEvents current .atEnd
  | some e => .failed e.message :: enterEvents current .failed

/-- The entries for a reading from its first look at the tokens to its end. -/
def eventsOf (steps : List Step) (error? : Option ParseError) : List Event :=
  let steps := .enter .scanning :: steps
  eventsFrom .atStart steps ++ endEvents (phaseAfter .atStart steps) error?

/-- All entries for a reading. -/
def traceOf (mode : Mode) (bytes tokens : Nat) (steps : List Step) (error? : Option ParseError) :
    List Event :=
  let last := if error?.isNone then Phase.atEnd else Phase.failed
  .started mode bytes tokens ::
    (eventsOf steps error? ++ [.finished mode last error?.isNone])

end QueryExpr.Reading
