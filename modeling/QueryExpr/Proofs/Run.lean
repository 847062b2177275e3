import QueryExpr.Reading.Query

/-!
# Reasoning about runs

Statements about a reader are put together from statements about its parts, one rule for each
way in which runs are made.

* `Run.Gives`: what holds of the value of a run and of the requests made before it.
* `Run.Gives.bind`: the rule for one run after the other; the requests are joined.
* `mark_eq_ok`: what a mark that has to be there leaves.
-/

namespace QueryExpr.Reading

namespace Run

variable {α β : Type}

/-! ## Outcomes and requests -/

@[simp] theorem outcome_pure (a : α) : (pure a : Run α).outcome = .ok a := rfl

@[simp] theorem outcome_enter (p : Phase) : (enter p).outcome = .ok () := rfl

@[simp] theorem outcome_ask (q : Request) (notes : List Note) (answer : Except Fault α) :
    (ask q notes answer).outcome = answer := rfl

@[simp] theorem requests_ask (q : Request) (notes : List Note) (answer : Except Fault α) :
    (ask q notes answer).requests = [q] := by
  simp only [requests, ask, List.filterMap_cons, Step.request?]
  rw [List.filterMap_eq_nil_iff.2]
  intro s hs
  obtain ⟨n, -, rfl⟩ := List.mem_map.1 hs
  rfl

theorem mapError_eq_ok {ε ε' : Type} {g : ε → ε'} {x : Except ε α} {a : α} :
    x.mapError g = .ok a ↔ x = .ok a := by
  cases x with
  | ok b =>
    constructor <;>
    · rintro ⟨⟩
      rfl
  | error e =>
    constructor
    · rintro ⟨⟩
    · rintro ⟨⟩

theorem mapError_eq_error {ε ε' : Type} {g : ε → ε'} {x : Except ε α} {e' : ε'} :
    x.mapError g = .error e' ↔ ∃ e, x = .error e ∧ g e = e' := by
  cases x with
  | ok b =>
    constructor
    · rintro ⟨⟩
    · rintro ⟨e, ⟨⟩, -⟩
  | error e =>
    constructor
    · rintro ⟨⟩
      exact ⟨e, rfl, rfl⟩
    · rintro ⟨_, ⟨⟩, rfl⟩
      rfl

theorem requests_bind_ok {r : Run α} {a : α} (h : r.outcome = .ok a) (f : α → Run β) :
    (r >>= f).requests = r.requests ++ (f a).requests := by
  simp only [requests, log_bind_ok h, List.filterMap_append]

theorem pure_bind (a : α) (f : α → Run β) : (pure a : Run α) >>= f = f a := by
  show Run.bind (Run.pure a) f = f a
  simp [Run.bind, Run.pure]

theorem outcome_bind_eq_ok {r : Run α} {f : α → Run β} {b : β} :
    (r >>= f).outcome = .ok b ↔ ∃ a, r.outcome = .ok a ∧ (f a).outcome = .ok b := by
  cases h : r.outcome with
  | ok a => simp [outcome_bind_ok h]
  | error e => simp [bind_error h]

/-! ## What a run gives -/

/-- If the run has a value, `post` holds of the requests made before and of the value. -/
def Gives (r : Run α) (post : List Request → α → Prop) : Prop :=
  ∀ a, r.outcome = .ok a → post r.requests a

namespace Gives

variable {r : Run α} {p post : List Request → α → Prop}

theorem pure {a : α} (h : post [] a) : (pure a : Run α).Gives post := by
  rintro _ ⟨⟩
  exact h

theorem fail {f : Fault} : (Run.fail f : Run α).Gives post := by
  rintro _ ⟨⟩

theorem enter {phase : Phase} {post : List Request → Unit → Prop} (h : post [] ()) :
    (Run.enter phase).Gives post := by
  rintro _ -
  exact h

theorem ask {q : Request} {notes : List Note} {answer : Except Fault α}
    (h : ∀ a, answer = .ok a → post [q] a) : (Run.ask q notes answer).Gives post := by
  intro a ha
  rw [requests_ask]
  exact h a ha

theorem bind {f : α → Run β} {post : List Request → β → Prop} (hr : r.Gives p)
    (hf : ∀ qs a, p qs a → (f a).Gives fun qs' b => post (qs ++ qs') b) :
    (r >>= f).Gives post := by
  intro b hb
  obtain ⟨a, ha, hb⟩ := outcome_bind_eq_ok.1 hb
  rw [requests_bind_ok ha]
  exact hf _ a (hr a ha) b hb

/-- The rule for a request that is made first. -/
theorem ask_bind {q : Request} {notes : List Note} {answer : Except Fault α} {f : α → Run β}
    {post : List Request → β → Prop}
    (hf : ∀ a, answer = .ok a → (f a).Gives fun qs b => post (q :: qs) b) :
    (Run.ask q notes answer >>= f).Gives post := by
  refine bind (p := fun qs a => qs = [q] ∧ answer = .ok a) (ask fun a ha => ⟨rfl, ha⟩) ?_
  rintro _ a ⟨rfl, ha⟩
  exact hf a ha

/-- The rule for a phase that is entered first. -/
theorem enter_bind {phase : Phase} {f : Unit → Run β} {post : List Request → β → Prop}
    (hf : (f ()).Gives post) : (Run.enter phase >>= f).Gives post :=
  bind (p := fun qs _ => qs = []) (enter rfl) (by rintro _ _ rfl; exact hf)

theorem mono (h : r.Gives p) (himp : ∀ qs a, p qs a → post qs a) : r.Gives post :=
  fun a ha => himp _ a (h a ha)

end Gives

end Run

/-! ## Marks and chains -/

section

variable {α : Type} {m : Mark} {wanted : Wanted} {ts rest : List Token}

@[simp] theorem missing_ne_ok {a : α} : (missing wanted ts : Run α).outcome ≠ .ok a := by
  cases ts <;> rintro ⟨⟩

theorem Run.Gives.missing {post : List Request → α → Prop} :
    (missing wanted ts : Run α).Gives post :=
  fun _ ha => absurd ha missing_ne_ok

theorem startsWith_eq_true :
    startsWith m ts = true ↔ ∃ t ts', ts = t :: ts' ∧ t.kind = .mark m := by
  cases ts <;> simp [startsWith]

theorem startsWith_cons {t : Token} (h : t.kind = .mark m) : startsWith m (t :: ts) = true := by
  simp [startsWith, h]

theorem mark_of_kind {t : Token} (h : t.kind = .mark m) :
    mark m wanted (t :: rest) = pure ((), rest) := by
  simp [mark, h]

theorem mark_eq_ok :
    (mark m wanted ts).outcome = .ok ((), rest) ↔ ∃ t, ts = t :: rest ∧ t.kind = .mark m := by
  cases ts with
  | nil => simp [mark]
  | cons t ts =>
    by_cases h : t.kind = .mark m
    · constructor
      · intro hr
        rw [mark_of_kind h] at hr
        cases hr
        exact ⟨t, rfl, h⟩
      · rintro ⟨_, ⟨⟩, -⟩
        rw [mark_of_kind h]
        rfl
    · simp only [mark, if_neg h, missing_ne_ok, false_iff]
      rintro ⟨_, ⟨⟩, h'⟩
      exact h h'

/-- The rule for a mark that is read first. -/
theorem Run.Gives.mark_bind {f : Unit × List Token → Run α} {post : List Request → α → Prop}
    (hf : ∀ t rest, ts = t :: rest → t.kind = .mark m → (f ((), rest)).Gives post) :
    (mark m wanted ts >>= f).Gives post := by
  intro a ha
  obtain ⟨⟨⟨⟩, rest⟩, hr, -⟩ := outcome_bind_eq_ok.1 ha
  obtain ⟨t, rfl, ht⟩ := mark_eq_ok.1 hr
  rw [mark_of_kind ht, pure_bind] at ha ⊢
  exact hf t rest rfl ht a ha

end

section

variable {sub : Nat → Reader Expr}

theorem chain_of_none {minPower : Nat} {ts : List Token} (h : nextOperator? minPower ts = none)
    (bound : List Token) (left : Expr) : chain sub minPower bound left ts = pure (left, ts) := by
  cases bound <;> simp [chain, h]

theorem chain_of_some {minPower : Nat} {ts : List Token} {op : Operator}
    (h : nextOperator? minPower ts = some op) (b : Token) (bound : List Token) (left : Expr) :
    chain sub minPower (b :: bound) left ts =
      (if op.takesValues then valueList sub ts.tail else sub op.rightPower ts.tail) >>=
        fun x => chain sub minPower bound (.binary left op x.1) x.2 := by
  rw [chain.eq_1 _ _ _ _ _ _ _ h]
  cases op.takesValues <;> rfl

end

end QueryExpr.Reading
