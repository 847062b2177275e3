import QueryExpr.Reading.Fault
import QueryExpr.Reading.Step

/-!
# Runs

A run is a value or a fault, together with the steps that led there. The steps of
what was done before a fault stay. No question is put before the one before it has
been answered (specification, 5).

* `Run.bind`: one run after the other.
* `Reader`: a run that starts with some tokens and leaves the others.
-/

namespace QueryExpr.Reading

/-- Steps, and what they lead to. -/
structure Run (α : Type) where
  log : List Step
  outcome : Except Fault α

namespace Run

variable {α β : Type}

/-- A value without steps. -/
protected def pure (a : α) : Run α := ⟨[], .ok a⟩

/-- A fault without steps. -/
def fail (f : Fault) : Run α := ⟨[], .error f⟩

/-- A single step. -/
def tell (s : Step) : Run Unit := ⟨[s], .ok ()⟩

/-- The steps `earlier`, then the steps `later`. Where no step follows, nothing is copied. -/
def joinSteps (earlier : List Step) : List Step → List Step
  | [] => earlier
  | later => earlier ++ later

/-- Goes on with the value of a run, unless it has a fault. -/
protected def bind (r : Run α) (f : α → Run β) : Run β :=
  match r.outcome with
  | .ok a =>
    let next := f a
    ⟨joinSteps r.log next.log, next.outcome⟩
  | .error e => ⟨r.log, .error e⟩

instance : Monad Run where
  pure := Run.pure
  bind := Run.bind

/-- Enters a phase (`transition`). -/
def enter (p : Phase) : Run Unit := tell (.enter p)

/-- Makes a request, with the remarks on it and its answer (`resolve_member` or `resolve_method`,
    awaited). -/
def ask (q : Request) (notes : List Note) (answer : Except Fault α) : Run α :=
  ⟨.ask q :: notes.map .note, answer⟩

/-- The requests made, in order. -/
def requests (r : Run α) : List Request := r.log.filterMap Step.request?

/-! ## Laws -/

@[simp] theorem joinSteps_eq (earlier later : List Step) :
    joinSteps earlier later = earlier ++ later := by
  cases later <;> simp [joinSteps]

theorem log_bind_ok {r : Run α} {a : α} (h : r.outcome = .ok a) (f : α → Run β) :
    (r >>= f).log = r.log ++ (f a).log := by
  show (Run.bind r f).log = _
  simp [Run.bind, h]

theorem outcome_bind_ok {r : Run α} {a : α} (h : r.outcome = .ok a) (f : α → Run β) :
    (r >>= f).outcome = (f a).outcome := by
  show (Run.bind r f).outcome = _
  simp [Run.bind, h]

theorem bind_error {r : Run α} {e : Fault} (h : r.outcome = .error e) (f : α → Run β) :
    r >>= f = ⟨r.log, .error e⟩ := by
  show Run.bind r f = _
  simp [Run.bind, h]

end Run

/-- Reads something off the front of a list of tokens and leaves the others. -/
abbrev Reader (α : Type) := List Token → Run (α × List Token)

end QueryExpr.Reading
