import QueryExpr.Proofs.Completion

/-!
# More tokens and more nesting

A reading that comes to its end goes the same way if more expressions may be nested, and if closed
tokens stand behind its own; these are left.

* `Run.LeadsTo`, `Run.Returns`: the end of a run and the requests made before it.
* `Run.Repeats`: what one run returns, another one returns after the same requests.
* `Extends`: what a reader gives of some tokens, another one gives with more behind them.
* `expression_extends`: an expression is read within any larger budget, in front of closed tokens.
-/

namespace QueryExpr.Reading

variable {α β γ δ : Type}

namespace Run

/-! ## Runs that return -/

/-- The run makes the requests and has the outcome. -/
structure LeadsTo (run : Run α) (qs : List Request) (x : Except Fault α) : Prop where
  outcome : run.outcome = x
  requests : run.requests = qs

/-- The run makes the requests and gives the value. -/
abbrev Returns (run : Run α) (qs : List Request) (a : α) : Prop := run.LeadsTo qs (.ok a)

section

variable {run : Run α} {qs qs' : List Request} {a : α} {b : β}

theorem LeadsTo.pure (a : α) : (pure a : Run α).Returns [] a := ⟨rfl, rfl⟩

theorem LeadsTo.ask (q : Request) (notes : List Note) (answer : Except Fault α) :
    (Run.ask q notes answer).LeadsTo [q] answer := ⟨rfl, requests_ask _ _ _⟩

theorem LeadsTo.bind_error {e : Fault} (h : run.LeadsTo qs (.error e)) (f : α → Run β) :
    (run >>= f).LeadsTo qs (.error e) := by
  rw [Run.bind_error h.outcome]
  exact ⟨rfl, h.requests⟩

theorem Returns.bind {f : α → Run β} {x : Except Fault β} (h : run.Returns qs a)
    (hf : (f a).LeadsTo qs' x) : (run >>= f).LeadsTo (qs ++ qs') x := by
  constructor
  · rw [outcome_bind_ok h.outcome, hf.outcome]
  · rw [requests_bind_ok h.outcome, h.requests, hf.requests]

/-- The rule for a run behind which no request is made. -/
theorem Returns.bind_silent {f : α → Run β} {x : Except Fault β} (h : run.Returns qs a)
    (hf : (f a).LeadsTo [] x) : (run >>= f).LeadsTo qs x := by
  have := h.bind hf
  rwa [List.append_nil] at this

/-- The rule for a phase that is entered first. -/
theorem LeadsTo.enter_bind {p : Phase} {f : Unit → Run β} {x : Except Fault β}
    (h : (f ()).LeadsTo qs x) : (Run.enter p >>= f).LeadsTo qs x := by
  have henter : (Run.enter p).Returns [] () := ⟨rfl, rfl⟩
  exact henter.bind h

theorem Returns.of_bind {f : α → Run β} (h : (run >>= f).Returns qs b) :
    ∃ qs₁ a qs₂, run.Returns qs₁ a ∧ (f a).Returns qs₂ b ∧ qs = qs₁ ++ qs₂ := by
  obtain ⟨a, ha, hb⟩ := outcome_bind_eq_ok.1 h.outcome
  refine ⟨run.requests, a, (f a).requests, ⟨ha, rfl⟩, ⟨hb, rfl⟩, ?_⟩
  rw [← h.requests, requests_bind_ok ha]

end

/-! ## Runs that return the same -/

/-- If the first run returns, the second one returns a related value after the same requests. -/
def Repeats (R : α → β → Prop) (run : Run α) (run' : Run β) : Prop :=
  ∀ qs a, run.Returns qs a → ∃ b, run'.Returns qs b ∧ R a b

namespace Repeats

variable {R : α → β → Prop} {S : γ → δ → Prop} {run : Run α} {run' : Run β}

theorem refl (run : Run α) : Repeats (fun a b => a = b) run run :=
  fun _ a h => ⟨a, h, rfl⟩

theorem pure {a : α} {b : β} (h : R a b) : Repeats R (pure a) (pure b) := by
  rintro qs _ ⟨⟨⟩, rfl⟩
  exact ⟨b, .pure b, h⟩

theorem fail {f : Fault} : Repeats R (fail f) run' := by
  rintro qs a ⟨⟨⟩, -⟩

theorem missing {wanted : Wanted} {ts : List Token} : Repeats R (missing wanted ts) run' :=
  fun _ _ h => absurd h.outcome missing_ne_ok

theorem bind {f : α → Run γ} {g : β → Run δ} (h : Repeats R run run')
    (hf : ∀ a b, run.outcome = .ok a → R a b → Repeats S (f a) (g b)) :
    Repeats S (run >>= f) (run' >>= g) := by
  intro qs c hc
  obtain ⟨qs₁, a, qs₂, ha, hfa, rfl⟩ := hc.of_bind
  obtain ⟨b, hb, hab⟩ := h qs₁ a ha
  obtain ⟨d, hd, hcd⟩ := hf a b ha.outcome hab qs₂ c hfa
  exact ⟨d, hb.bind hd, hcd⟩

/-- The rule for a phase that is entered first. -/
theorem enter_bind {p : Phase} {f : Unit → Run γ} {g : Unit → Run δ}
    (h : Repeats S (f ()) (g ())) : Repeats S (Run.enter p >>= f) (Run.enter p >>= g) :=
  bind (refl _) fun _ _ _ _ => h

end Repeats

end Run

open Run (Repeats)

/-- Where the tokens have to end, they do. -/
theorem returns_of_inputEnd {rest : List Token} {a b : α} {qs : List Request}
    (h : (inputEnd rest >>= fun _ => pure a).Returns qs b) : qs = [] ∧ rest = [] ∧ b = a := by
  have hgives : (inputEnd rest >>= fun _ => pure a).Gives fun qs b =>
      qs = [] ∧ rest = [] ∧ b = a := by
    refine (inputEnd_gives rest).bind ?_
    rintro _ _ ⟨rfl, hrest⟩
    exact .pure ⟨rfl, hrest, rfl⟩
  rw [← h.requests]
  exact hgives b h.outcome

/-! ## Readers with more behind their tokens -/

/-- Values that are the same, and tokens left of which the second ones have `behind` behind them. -/
def Ahead (behind : List Token) (x y : α × List Token) : Prop := y = (x.1, x.2 ++ behind)

/-- What the first reader gives of some tokens, the second one gives of them with the tokens
    `behind` behind them, which it leaves. -/
def Extends (behind : List Token) (reader reader' : Reader α) : Prop :=
  ∀ ts, Repeats (Ahead behind) (reader ts) (reader' (ts ++ behind))

section

variable {behind : List Token}

theorem Extends.pure (a : α) (rest : List Token) :
    Repeats (Ahead behind) (pure (a, rest)) (pure (a, rest ++ behind)) :=
  .pure rfl

/-- The rule for a mark that is read first. -/
theorem Extends.mark_bind {m : Mark} {wanted : Wanted} {ts : List Token} {S : γ → δ → Prop}
    {f : Unit × List Token → Run γ} {g : Unit × List Token → Run δ}
    (hf : ∀ rest, Repeats S (f ((), rest)) (g ((), rest ++ behind))) :
    Repeats S (mark m wanted ts >>= f) (mark m wanted (ts ++ behind) >>= g) := by
  intro qs c hc
  obtain ⟨⟨⟨⟩, rest⟩, hmark, -⟩ := Run.outcome_bind_eq_ok.1 hc.outcome
  obtain ⟨t, rfl, ht⟩ := mark_eq_ok.1 hmark
  rw [mark_of_kind ht, Run.pure_bind] at hc
  rw [List.cons_append, mark_of_kind ht, Run.pure_bind]
  exact hf rest qs c hc

/-- Whether a list of tokens begins with a mark is the same with more behind them, unless there are
    none. -/
theorem startsWith_append {m : Mark} {ts : List Token} (hts : ts ≠ []) :
    startsWith m (ts ++ behind) = startsWith m ts := by
  cases ts with
  | nil => exact absurd rfl hts
  | cons t ts => rfl

theorem tail_append {ts : List Token} (hts : ts ≠ []) : (ts ++ behind).tail = ts.tail ++ behind :=
  List.tail_append_of_ne_nil hts

theorem ne_nil_of_startsWith {m : Mark} {ts : List Token} (h : startsWith m ts = true) :
    ts ≠ [] := by
  rintro rfl
  cases h

/-- Closed tokens may stand behind any others. -/
theorem Closed.mayReplace_append (hbehind : Closed behind) (ts : List Token) :
    MayReplace (ts ++ behind) ts := by
  cases ts with
  | nil => exact .inl hbehind
  | cons t ts => exact .inr ⟨t, ts, ts ++ behind, rfl, rfl⟩

variable {r : Resolvers} {budget budget' : Nat}
  (hsub : ∀ minPower, Extends behind (expression r budget minPower) (expression r budget' minPower))

theorem expression_length_lt {minPower : Nat} {ts rest : List Token} {e : Expr}
    (h : (expression r budget minPower ts).outcome = .ok (e, rest)) : rest.length < ts.length :=
  (expression_gives r budget minPower ts _ h).length_lt (by rintro _ _ ⟨⟩)

include hsub

theorem laterItems_extends {bound bound' : List Token} (hbound : bound.length ≤ bound'.length) :
    Extends behind (laterItems (expression r budget) bound)
      (laterItems (expression r budget') bound') := by
  induction bound generalizing bound' with
  | nil =>
    intro ts qs es h
    obtain ⟨_, _, _, -, hmissing, -⟩ := Run.Returns.of_bind h
    exact absurd hmissing.outcome missing_ne_ok
  | cons b bound ih =>
    intro ts
    cases bound' with
    | nil => simp at hbound
    | cons b' bound' =>
      refine .enter_bind ?_
      dsimp only
      by_cases hcomma : startsWith .comma ts = true
      · have hts := ne_nil_of_startsWith hcomma
        rw [startsWith_append hts, tail_append hts, if_pos hcomma, if_pos hcomma]
        refine (hsub 0 _).bind ?_
        rintro ⟨e, ts₁⟩ _ - rfl
        refine (ih (Nat.le_of_succ_le_succ hbound) _).bind ?_
        rintro ⟨es, ts₂⟩ _ - rfl
        exact Extends.pure _ _
      · rw [if_neg hcomma]
        by_cases hts : ts = []
        · subst hts
          intro qs es h
          obtain ⟨_, _, _, hmark, -, -⟩ := h.of_bind
          exact absurd hmark.outcome missing_ne_ok
        · rw [startsWith_append hts, if_neg hcomma]
          exact Extends.mark_bind fun rest => Extends.pure _ _

theorem list_extends :
    Extends behind (list (expression r budget)) (list (expression r budget')) := by
  intro ts
  refine .enter_bind ?_
  by_cases hts : ts = []
  · subst hts
    intro qs es h
    obtain ⟨_, _, _, he, -, -⟩ := Run.Returns.of_bind h
    cases expression_length_lt he.outcome
  · rw [startsWith_append hts]
    split
    · rw [tail_append hts]
      exact Extends.pure _ _
    · refine (hsub 0 ts).bind ?_
      rintro ⟨e, ts₁⟩ _ - rfl
      have hlength : ts₁.length ≤ (ts₁ ++ behind).length := by
        rw [List.length_append]
        omega
      refine (laterItems_extends hsub hlength ts₁).bind ?_
      rintro ⟨es, ts₂⟩ _ - rfl
      exact Extends.pure _ _

theorem valueList_extends :
    Extends behind (valueList (expression r budget)) (valueList (expression r budget')) := by
  intro ts
  refine Extends.mark_bind fun rest => ?_
  refine (list_extends hsub rest).bind ?_
  rintro ⟨es, ts₁⟩ _ - rfl
  exact .enter_bind (Extends.pure _ _)

variable (hbehind : Closed behind)

include hbehind

theorem primary_extends :
    Extends behind (primary r (expression r budget)) (primary r (expression r budget')) := by
  intro ts
  cases ts with
  | nil =>
    rw [primary]
    exact .missing
  | cons t ts =>
    rw [List.cons_append, primary, primary]
    split
    · refine (Repeats.refl _).bind ?_
      rintro e _ - rfl
      exact Extends.pure _ _
    · refine (hsub 0 ts).bind ?_
      rintro ⟨e, ts₁⟩ _ - rfl
      dsimp only
      by_cases hclose : startsWith .parenClose ts₁ = true
      · have hts₁ := ne_nil_of_startsWith hclose
        rw [startsWith_append hts₁, tail_append hts₁, if_pos hclose, if_pos hclose]
        exact Extends.pure _ _
      · rw [if_neg hclose]
        exact .missing
    · exact .missing
    · by_cases hopen : startsWith .parenOpen ts = true
      · have hts := ne_nil_of_startsWith hopen
        rw [startsWith_append hts, tail_append hts, if_pos hopen, if_pos hopen]
        refine (list_extends hsub _).bind ?_
        rintro ⟨args, ts₁⟩ _ - rfl
        refine (Repeats.refl _).bind ?_
        rintro e _ - rfl
        exact Extends.pure _ _
      · have hopen' : ¬startsWith .parenOpen (ts ++ behind) = true := by
          rw [(hbehind.mayReplace_append ts).startsWith_open (by simpa using hopen)]
          decide
        rw [if_neg hopen, if_neg hopen']
        split
        · exact .missing
        · refine (Repeats.refl _).bind ?_
          rintro e _ - rfl
          exact Extends.pure _ _

theorem operand_extends :
    Extends behind (operand r (expression r budget)) (operand r (expression r budget')) := by
  intro ts
  cases ts with
  | nil =>
    rw [operand]
    exact .missing
  | cons t ts =>
    rw [List.cons_append, operand, operand]
    split
    · refine (hsub _ ts).bind ?_
      rintro ⟨e, ts₁⟩ _ - rfl
      exact Extends.pure _ _
    · exact primary_extends hsub hbehind (t :: ts)

/-- A chain whose bounds cover the tokens goes on for as long as it can. -/
theorem chain_extends (minPower : Nat) (left : Expr) {bound bound' ts : List Token}
    (hbound : ts.length ≤ bound.length) (hbound' : (ts ++ behind).length ≤ bound'.length) :
    Repeats (Ahead behind) (chain (expression r budget) minPower bound left ts)
      (chain (expression r budget') minPower bound' left (ts ++ behind)) := by
  induction bound generalizing ts bound' left with
  | nil =>
    obtain rfl : ts = [] := List.eq_nil_of_length_eq_zero (Nat.le_zero.1 hbound)
    rw [chain_of_none rfl, List.nil_append, chain_of_none (hbehind.nextOperator? minPower)]
    exact Extends.pure _ _
  | cons b bound ih =>
    cases hop : nextOperator? minPower ts with
    | none =>
      rw [chain_of_none hop, chain_of_none ((hbehind.mayReplace_append ts).nextOperator? hop)]
      exact Extends.pure _ _
    | some op =>
      obtain ⟨t, ts, rfl⟩ := eq_cons_of_nextOperator? hop
      cases bound' with
      | nil => simp at hbound'
      | cons b' bound' =>
        have hop' : nextOperator? minPower (t :: (ts ++ behind)) = some op := hop
        rw [List.cons_append, chain_of_some hop, chain_of_some hop']
        -- the right operand takes a token, so the bounds cover what is left
        have hmore : ∀ (right : Expr) ts₁, ts₁.length < ts.length →
            Repeats (Ahead behind)
              (chain (expression r budget) minPower bound (.binary left op right) ts₁)
              (chain (expression r budget') minPower bound' (.binary left op right)
                (ts₁ ++ behind)) := by
          intro right ts₁ hlt
          simp only [List.length_cons, List.length_append] at hbound hbound'
          apply ih
          · omega
          · rw [List.length_append]
            omega
        cases op.takesValues with
        | true =>
          refine (valueList_extends hsub ts).bind ?_
          rintro ⟨right, ts₁⟩ _ hright rfl
          have hread := (Reads.layer r).valueList_gives (expression_gives r budget) ts _ hright
          exact hmore right ts₁ (hread.length_lt (by rintro _ _ ⟨⟩))
        | false =>
          refine (hsub op.rightPower ts).bind ?_
          rintro ⟨right, ts₁⟩ _ hright rfl
          exact hmore right ts₁ (expression_length_lt hright)

omit hsub in
/-- What is read as an expression is read as the same one if more expressions may be nested and
    closed tokens are behind it. -/
theorem expression_extends (hbudget : budget ≤ budget') (minPower : Nat) :
    Extends behind (expression r budget minPower) (expression r budget' minPower) := by
  induction budget generalizing budget' minPower with
  | zero => exact fun ts => .fail
  | succ budget ih =>
    intro ts
    cases budget' with
    | zero => cases hbudget
    | succ budget' =>
      have hsub := ih (Nat.le_of_succ_le_succ hbudget)
      refine .enter_bind ((operand_extends hsub hbehind ts).bind ?_)
      rintro ⟨left, ts₁⟩ _ - rfl
      exact chain_extends hsub hbehind minPower left (Nat.le_refl _) (Nat.le_refl _)

end

end QueryExpr.Reading
