import QueryExpr.Proofs.Pieces
import QueryExpr.Proofs.Precedence

/-!
# Tokens that fit into a budget

What is written for a tree may not be read back, or as another tree. But how deep expressions are
nested in it can be told from the kinds of its tokens: a reading ends behind them, or in front of a
slash among them, or with a fault, and if the budget is large enough, the fault is another one than
that expressions are nested too deeply.

* `Run.Stays`: a run that stays within its budget, and what holds of its value.
* `OperandFits`, `LevelFits`, `ValuesFit`: for tokens of the given kinds, a budget is large
  enough. There is one rule for each way to write an operand, an expression or a list.
-/

namespace QueryExpr.Reading

open Run (outcome_bind_ok bind_error)

/-! ## Runs within a budget -/

section

variable {α β : Type}

/-- Expressions are not nested too deeply, and `post` holds of the value, if there is one. -/
structure Run.Stays (run : Run α) (post : α → Prop) : Prop where
  within : ∀ left, run.outcome ≠ .error (.grammar .tooDeep left)
  value : ∀ a, run.outcome = .ok a → post a

namespace Run.Stays

variable {run : Run α} {p post : α → Prop}

theorem pure {a : α} (h : post a) : (pure a : Run α).Stays post :=
  ⟨nofun, by rintro _ ⟨⟩; exact h⟩

theorem fail {f : Fault} (h : ∀ left, f ≠ .grammar .tooDeep left) :
    (fail f : Run α).Stays post := by
  refine ⟨?_, nofun⟩
  rintro left ⟨⟩
  exact h left rfl

theorem missing {wanted : Wanted} {ts : List Token} : (missing wanted ts : Run α).Stays post := by
  cases ts <;> exact fail nofun

theorem bind {f : α → Run β} {post : β → Prop} (h : run.Stays p)
    (hf : ∀ a, p a → (f a).Stays post) : (run >>= f).Stays post := by
  cases hrun : run.outcome with
  | ok a =>
    have hnext := hf a (h.value a hrun)
    constructor <;> rw [outcome_bind_ok hrun]
    · exact hnext.within
    · exact hnext.value
  | error e =>
    rw [bind_error hrun]
    refine ⟨?_, nofun⟩
    rintro left ⟨⟩
    exact h.within left hrun

theorem enter_bind {phase : Phase} {f : Unit → Run β} {post : β → Prop} (h : (f ()).Stays post) :
    (Run.enter phase >>= f).Stays post :=
  bind (p := fun _ => True) ⟨nofun, fun _ _ => trivial⟩ fun _ _ => h

/-- A request is no fault of the grammar, whatever the answer is. -/
theorem ask {q : Request} {notes : List Note} {ε : Type} {answer : Except ε α} {fault : ε → Fault}
    (h : ∀ e left, fault e ≠ .grammar .tooDeep left) :
    (Run.ask q notes (answer.mapError fault)).Stays fun _ => True := by
  refine ⟨fun left houtcome => ?_, fun _ _ => trivial⟩
  obtain ⟨e, -, he⟩ := Run.mapError_eq_error.1 houtcome
  exact h e left he

end Run.Stays

end

section

variable {r : Resolvers}

theorem literalValue_stays (raw : Literal.Raw) (span : Span) :
    (literalValue raw span).Stays fun _ => True := by
  unfold literalValue
  split
  · exact .pure trivial
  · exact .fail nofun

theorem member_stays (word : String) : (member r word).Stays fun _ => True :=
  .enter_bind (.bind (.ask nofun) fun _ _ => .enter_bind (.pure trivial))

theorem call_stays (word : String) (args : List Expr) : (call r word args).Stays fun _ => True :=
  .bind (.ask nofun) fun _ _ => .enter_bind (.pure trivial)

end

/-! ## Where a reading ends -/

/-- The tokens left are the given ones, or they begin with a slash, which nothing goes on with. -/
def EndsAt {α : Type} (rest : List Token) (x : α × List Token) : Prop :=
  x.2 = rest ∨ startsWith .slash x.2 = true

section

variable {ts rest : List Token} {m : Mark}

theorem startsWith_of_slash (h : startsWith .slash ts = true) (hm : m ≠ .slash) :
    startsWith m ts = false := by
  obtain ⟨t, ts, rfl, ht⟩ := startsWith_eq_true.1 h
  simpa [startsWith, ht] using hm.symm

theorem chain_of_slash {sub : Nat → Reader Expr} (h : startsWith .slash ts = true) (minPower : Nat)
    (bound : List Token) (left : Expr) : chain sub minPower bound left ts = pure (left, ts) := by
  obtain ⟨t, ts, rfl, ht⟩ := startsWith_eq_true.1 h
  exact chain_of_none (nextOperator?_eq_none.2 (frontWithin_of_mark ht ts)) bound left

end

/-! ## Tokens that fit -/

/-- A part begins with the kind of a token that closes no list. -/
def Opens (kinds : List Token.Kind) : Prop := ∃ k ks, kinds = k :: ks ∧ k ≠ .mark .parenClose

theorem Opens.append {kinds : List Token.Kind} (h : Opens kinds) (more : List Token.Kind) :
    Opens (kinds ++ more) := by
  obtain ⟨k, ks, rfl, hk⟩ := h
  exact ⟨k, ks ++ more, rfl, hk⟩

/-- Tokens of the kinds are an operand that nests expressions at most `depth` deep, wherever no
    parenthesis is opened behind them. -/
structure OperandFits (r : Resolvers) (depth : Nat) (kinds : List Token.Kind) : Prop where
  opens : Opens kinds
  stays : ∀ {budget ts rest}, depth ≤ budget → ts.map Token.kind = kinds →
    startsWith .parenOpen rest = false →
      (operand r (expression r budget) (ts ++ rest)).Stays (EndsAt rest)

/-- Tokens of the kinds are an expression of the level that nests expressions at most `depth` deep.
    Behind them no operator may be tighter than the level; then what holds of whatever a chain makes
    of the tokens behind them holds of what is read of all the tokens. -/
structure LevelFits (r : Resolvers) (n depth : Nat) (kinds : List Token.Kind) : Prop where
  opens : Opens kinds
  stays : ∀ {budget minPower ts rest} {post : Expr × List Token → Prop}, depth ≤ budget →
    minPower / 2 + 1 ≤ n → ts.map Token.kind = kinds → FrontWithin n rest →
    startsWith .parenOpen rest = false →
    (∀ e left, startsWith .slash left = true → post (e, left)) →
    (∀ e bound, rest.length ≤ bound.length →
      (chain (expression r (budget - 1)) minPower bound e rest).Stays post) →
      (expression r budget minPower (ts ++ rest)).Stays post

/-- Tokens of the kinds are a list behind its opening parenthesis that nests expressions at most
    `depth` deep. -/
def ValuesFit (r : Resolvers) (depth : Nat) (kinds : List Token.Kind) : Prop :=
  ∀ {budget ts} (rest : List Token), depth ≤ budget → ts.map Token.kind = kinds →
    (list (expression r budget) (ts ++ rest)).Stays (EndsAt rest)

variable {r : Resolvers} {m n depth depth' : Nat} {kinds kinds' : List Token.Kind}

namespace LevelFits

theorem weaken (hmn : m ≤ n) (h : LevelFits r n depth kinds) : LevelFits r m depth kinds where
  opens := h.opens
  stays hbudget hm hts hfront hopen hslash hmore :=
    h.stays hbudget (Nat.le_trans hm hmn) hts (hfront.mono hmn) hopen hslash hmore

theorem mono (hdepth : depth ≤ depth') (h : LevelFits r n depth kinds) :
    LevelFits r n depth' kinds where
  opens := h.opens
  stays hbudget := h.stays (Nat.le_trans hdepth hbudget)

/-- An operand is an expression of each level. -/
theorem operand (h : OperandFits r depth kinds) (n : Nat) : LevelFits r n (depth + 1) kinds where
  opens := h.opens
  stays := by
    intro budget minPower ts rest post hbudget _ hts _ hopen hslash hmore
    obtain ⟨budget, rfl⟩ : ∃ b, budget = b + 1 := ⟨budget - 1, by omega⟩
    refine .enter_bind ((h.stays (Nat.le_of_succ_le_succ hbudget) hts hopen).bind ?_)
    rintro ⟨left, ts'⟩ (rfl | hleft)
    · exact hmore left ts' (Nat.le_refl _)
    · dsimp only
      rw [chain_of_slash hleft]
      exact .pure (hslash left ts' hleft)

/-- An expression ends where every operator behind it is below the level of the minimum. -/
theorem ends (h : LevelFits r n depth kinds) (minPower : Nat) {budget : Nat} {ts rest : List Token}
    (hbudget : depth ≤ budget) (hm : minPower / 2 + 1 ≤ n) (hts : ts.map Token.kind = kinds)
    (hrest : FrontWithin (minPower / 2) rest) (hopen : startsWith .parenOpen rest = false) :
    (expression r budget minPower (ts ++ rest)).Stays (EndsAt rest) := by
  refine h.stays hbudget hm hts (hrest.mono (by omega)) hopen (fun _ _ => .inr) ?_
  intro e bound _
  rw [chain_of_none (nextOperator?_eq_none.2 hrest)]
  exact .pure (.inl rfl)

/-- In parentheses, or behind a comma, an expression ends in front of a mark. -/
theorem endsAtMark (h : LevelFits r 1 depth kinds) {budget : Nat} {ts : List Token} {u : Token}
    {mark : Mark} (hbudget : depth ≤ budget) (hts : ts.map Token.kind = kinds)
    (hu : u.kind = .mark mark) (hmark : mark ≠ .parenOpen) (rest : List Token) :
    (expression r budget 0 (ts ++ u :: rest)).Stays (EndsAt (u :: rest)) :=
  h.ends 0 hbudget (Nat.le_refl 1) hts (frontWithin_of_mark hu rest)
    (by simpa [startsWith, hu] using hmark)

/-- An operator behind an expression of its level, and what is read behind the operator. -/
theorem operator {word : String} {op : Operator} (hop : Operator.binary? word = some op)
    (hn : op.precedence = n) (hl : LevelFits r n depth kinds)
    (hr : ∀ budget {ts rest}, depth' ≤ budget → ts.map Token.kind = kinds' → FrontWithin n rest →
      startsWith .parenOpen rest = false →
        (if op.takesValues then valueList (expression r budget) (ts ++ rest)
          else expression r budget op.rightPower (ts ++ rest)).Stays (EndsAt rest)) :
    LevelFits r n (max depth (depth' + 1)) (kinds ++ .name word :: kinds') where
  opens := hl.opens.append _
  stays := by
    intro budget minPower ts rest post hbudget hm hts hfront hopen hslash hmore
    obtain ⟨us, ws, rfl, hus, hws⟩ := List.map_eq_append_iff.1 hts
    obtain ⟨t, vs, rfl, ht, hvs⟩ := List.map_eq_cons_iff.1 hws
    rw [List.append_assoc, List.cons_append]
    refine hl.stays (by omega) hm hus (frontWithin_of_name ht hop (Nat.le_of_eq hn) _)
      (by simp [startsWith, ht]) hslash ?_
    intro left bound hbound
    cases bound with
    | nil => cases hbound
    | cons b bound =>
      have hright := hr (budget - 1) (by omega) hvs hfront hopen
      rw [chain_of_some (nextOperator?_of_name ht hop (by omega) _)]
      refine hright.bind ?_
      rintro ⟨right, ts'⟩ (rfl | hstuck)
      · refine hmore _ bound ?_
        simp only [List.length_cons, List.length_append] at hbound ⊢
        omega
      · rw [chain_of_slash hstuck]
        exact .pure (hslash _ ts' hstuck)

theorem binary {word : String} {op : Operator} (hop : (word, op) ∈ binaryWords n)
    (hl : LevelFits r n depth kinds) (hr : LevelFits r (n + 1) depth' kinds') :
    LevelFits r n (max depth (depth' + 1)) (kinds ++ .name word :: kinds') := by
  obtain ⟨hbinary, hv, hn⟩ := binary?_of_mem_binaryWords hop
  have hhalf : op.rightPower / 2 = n := by unfold Operator.rightPower; omega
  refine hl.operator hbinary hn ?_
  intro budget ts rest hbudget hts hfront hopen
  rw [if_neg (by simp [hv])]
  exact hr.ends _ hbudget (by omega) hts (by rwa [hhalf]) hopen

theorem membership {word : String} {op : Operator} (hop : (word, op) ∈ membershipWords)
    (hl : LevelFits r 4 depth kinds) (hr : ValuesFit r depth' kinds') :
    LevelFits r 4 (max depth (depth' + 1)) (kinds ++ .name word :: .mark .parenOpen :: kinds') := by
  obtain ⟨hbinary, hv, hn⟩ := binary?_of_mem_membershipWords hop
  refine hl.operator hbinary hn ?_
  intro budget ts rest hbudget hts _ _
  obtain ⟨t, ts, rfl, ht, hts⟩ := List.map_eq_cons_iff.1 hts
  rw [if_pos hv, valueList, List.cons_append, mark_of_kind ht, Run.pure_bind]
  exact (hr rest hbudget hts).bind fun x hx => .enter_bind (.pure hx)

end LevelFits

namespace OperandFits

theorem literal (raw : Literal.Raw) : OperandFits r 0 [.literal raw] where
  opens := ⟨_, _, rfl, by rintro ⟨⟩⟩
  stays := by
    intro budget ts rest _ hts _
    obtain ⟨t, ts, rfl, ht, hts⟩ := List.map_eq_cons_iff.1 hts
    obtain rfl := List.map_eq_nil_iff.1 hts
    simp only [List.cons_append, List.nil_append, operand, primary, Token.Kind.unary?, ht]
    exact (literalValue_stays raw t.span).bind fun _ _ => .pure (.inl rfl)

/-- Whatever is behind the slash, it is not reached. -/
theorem literalSlash (raw : Literal.Raw) (kinds : List Token.Kind) :
    OperandFits r 0 (.literal raw :: .mark .slash :: kinds) where
  opens := ⟨_, _, rfl, by rintro ⟨⟩⟩
  stays := by
    intro budget ts rest _ hts _
    obtain ⟨t, ts, rfl, ht, hts⟩ := List.map_eq_cons_iff.1 hts
    obtain ⟨u, ts, rfl, hu, -⟩ := List.map_eq_cons_iff.1 hts
    simp only [List.cons_append, operand, primary, Token.Kind.unary?, ht]
    exact (literalValue_stays raw t.span).bind fun _ _ => .pure (.inr (startsWith_cons hu))

theorem name {word : String} (hw : word ≠ "not") : OperandFits r 0 [.name word] where
  opens := ⟨_, _, rfl, by rintro ⟨⟩⟩
  stays := by
    intro budget ts rest _ hts hopen
    obtain ⟨t, ts, rfl, ht, hts⟩ := List.map_eq_cons_iff.1 hts
    obtain rfl := List.map_eq_nil_iff.1 hts
    simp only [List.cons_append, List.nil_append, operand, primary, ht, unary?_name hw]
    rw [if_neg (by simp [hopen])]
    split
    · exact .missing
    · exact (member_stays word).bind fun _ _ => .pure (.inl rfl)

theorem parens (h : LevelFits r 1 depth kinds) :
    OperandFits r depth (.mark .parenOpen :: (kinds ++ [.mark .parenClose])) where
  opens := ⟨_, _, rfl, by rintro ⟨⟩⟩
  stays := by
    intro budget ts rest hbudget hts _
    obtain ⟨t, ws, rfl, ht, hws⟩ := List.map_eq_cons_iff.1 hts
    obtain ⟨us, ws, rfl, hus, hws⟩ := List.map_eq_append_iff.1 hws
    obtain ⟨u, ws, rfl, hu, hws⟩ := List.map_eq_cons_iff.1 hws
    obtain rfl := List.map_eq_nil_iff.1 hws
    simp only [List.cons_append, List.append_assoc, List.nil_append, operand, primary,
      Token.Kind.unary?, ht]
    refine (h.endsAtMark hbudget hus hu (by decide) rest).bind ?_
    rintro ⟨e, ts'⟩ (rfl | hslash)
    · dsimp only
      rw [if_pos (startsWith_cons hu)]
      exact .pure (.inl rfl)
    · dsimp only
      rw [if_neg (by simp [startsWith_of_slash hslash])]
      exact .missing

theorem unary {k : Token.Kind} {op : Operator} (hk : k.unary? = some op)
    (h : LevelFits r 7 depth kinds) : OperandFits r depth (k :: kinds) where
  opens := ⟨k, kinds, rfl, by rintro rfl; cases hk⟩
  stays := by
    intro budget ts rest hbudget hts hopen
    obtain ⟨t, us, rfl, rfl, hus⟩ := List.map_eq_cons_iff.1 hts
    have hpower : op.operandPower = 13 := by
      rcases unary?_eq_some hk with ⟨-, rfl⟩ | ⟨-, rfl⟩ <;> rfl
    simp only [List.cons_append, operand, hk]
    rw [hpower]
    exact (h.ends 13 hbudget (Nat.le_refl 7) hus (frontWithin_six rest) hopen).bind
      fun _ hx => .pure hx

theorem call {word : String} (hw : word ≠ "not") (h : ValuesFit r depth kinds) :
    OperandFits r depth (.name word :: .mark .parenOpen :: kinds) where
  opens := ⟨_, _, rfl, by rintro ⟨⟩⟩
  stays := by
    intro budget ts rest hbudget hts _
    obtain ⟨t, ts, rfl, ht, hts⟩ := List.map_eq_cons_iff.1 hts
    obtain ⟨u, ts, rfl, hu, hts⟩ := List.map_eq_cons_iff.1 hts
    simp only [List.cons_append, operand, primary, ht, unary?_name hw, startsWith_cons hu, if_pos,
      List.tail_cons]
    exact (h rest hbudget hts).bind fun x hx => (call_stays word x.1).bind fun _ _ => .pure hx

end OperandFits

/-! ## Lists -/

theorem startsWith_close_of_opens (h : Opens kinds) {ts : List Token}
    (hts : ts.map Token.kind = kinds) (rest : List Token) :
    startsWith .parenClose (ts ++ rest) = false := by
  obtain ⟨k, ks, rfl, hk⟩ := h
  obtain ⟨t, ts, rfl, ht, -⟩ := List.map_eq_cons_iff.1 hts
  simpa [startsWith, ht] using hk

/-- An item ends in front of the comma or the parenthesis behind it. -/
theorem item_stays (h : LevelFits r 1 depth kinds) {budget : Nat} (hbudget : depth ≤ budget)
    {u : Token} (hu : u.kind = .mark .parenClose) (rest : List Token)
    {kss : List (List Token.Kind)} {us vs : List Token} (hus : us.map Token.kind = kinds)
    (hvs : vs.map Token.kind = kss.flatMap (.mark .comma :: ·)) :
    (expression r budget 0 (us ++ (vs ++ u :: rest))).Stays (EndsAt (vs ++ u :: rest)) := by
  cases kss with
  | nil =>
    obtain rfl := List.map_eq_nil_iff.1 hvs
    exact h.endsAtMark hbudget hus hu (by decide) rest
  | cons ks kss =>
    obtain ⟨t, vs, rfl, ht, -⟩ := List.map_eq_cons_iff.1 hvs
    exact h.endsAtMark hbudget hus ht (by decide) _

/-- No list goes on with a slash. -/
theorem laterItems_stays_of_slash {sub : Nat → Reader Expr} {ts : List Token}
    (h : startsWith .slash ts = true) (bound : List Token) {post : List Expr × List Token → Prop} :
    (laterItems sub bound ts).Stays post := by
  cases bound with
  | nil => exact .enter_bind .missing
  | cons b bound =>
    obtain ⟨t, ts, rfl, ht⟩ := startsWith_eq_true.1 h
    have hmark : mark .parenClose .separator (t :: ts) = missing .separator (t :: ts) := by
      rw [mark, if_neg (by simp [ht])]
    refine .enter_bind ?_
    simp only [startsWith_of_slash h (m := .comma) (by decide), hmark]
    exact Run.Stays.bind (p := fun _ => False) .missing fun _ hx => hx.elim

section

variable {budget : Nat} {kss : List (List Token.Kind)} {u : Token}
  (hfits : ∀ ks ∈ kss, LevelFits r 1 depth ks) (hbudget : depth ≤ budget)
  (hu : u.kind = .mark .parenClose) (rest : List Token)

include hfits hbudget hu

theorem laterItems_stays {ts bound : List Token}
    (hts : ts.map Token.kind = kss.flatMap (.mark .comma :: ·)) :
    (laterItems (expression r budget) bound (ts ++ u :: rest)).Stays (EndsAt rest) := by
  induction kss generalizing ts bound with
  | nil =>
    obtain rfl := List.map_eq_nil_iff.1 hts
    cases bound with
    | nil => exact .enter_bind .missing
    | cons b bound =>
      refine .enter_bind ?_
      simp only [List.nil_append, startsWith, hu, mark_of_kind hu, Run.pure_bind]
      exact .pure (.inl rfl)
  | cons ks kss ih =>
    obtain ⟨hks, hkss⟩ := List.forall_mem_cons.1 hfits
    obtain ⟨t, ws, rfl, ht, hws⟩ := List.map_eq_cons_iff.1 hts
    obtain ⟨us, vs, rfl, hus, hvs⟩ := List.map_eq_append_iff.1 hws
    cases bound with
    | nil => exact .enter_bind .missing
    | cons b bound =>
      refine .enter_bind ?_
      simp only [List.cons_append, List.append_assoc, startsWith_cons ht, if_pos, List.tail_cons]
      refine (item_stays hks hbudget hu rest hus hvs).bind ?_
      rintro ⟨e, ts'⟩ (rfl | hslash)
      · exact (ih hkss hvs).bind fun _ hx => .pure hx
      · exact (laterItems_stays_of_slash hslash bound).bind fun _ hx => .pure hx

/-- Expressions with commas between them, behind the first parenthesis of a list. -/
theorem list_stays {ts : List Token} (hts : ts.map Token.kind = Lexer.joinKinds kss) :
    (list (expression r budget) (ts ++ u :: rest)).Stays (EndsAt rest) := by
  cases kss with
  | nil =>
    obtain rfl := List.map_eq_nil_iff.1 hts
    refine .enter_bind ?_
    rw [List.nil_append, if_pos (startsWith_cons hu)]
    exact .pure (.inl rfl)
  | cons ks kss =>
    obtain ⟨hks, hkss⟩ := List.forall_mem_cons.1 hfits
    obtain ⟨us, vs, rfl, hus, hvs⟩ := List.map_eq_append_iff.1 hts
    rw [List.append_assoc]
    refine .enter_bind ?_
    rw [if_neg (by simp [startsWith_close_of_opens hks.opens hus])]
    refine (item_stays hks hbudget hu rest hus hvs).bind ?_
    rintro ⟨e, ts'⟩ (rfl | hslash)
    · exact (laterItems_stays hkss hbudget hu rest hvs).bind fun _ hx => .pure hx
    · exact (laterItems_stays_of_slash hslash ts').bind fun _ hx => .pure hx

end

theorem ValuesFit.of_forall {kss : List (List Token.Kind)}
    (h : ∀ ks ∈ kss, LevelFits r 1 depth ks) :
    ValuesFit r depth (Lexer.joinKinds kss ++ [.mark .parenClose]) := by
  intro budget ts rest hbudget hts
  obtain ⟨us, ws, rfl, hus, hws⟩ := List.map_eq_append_iff.1 hts
  obtain ⟨u, ws, rfl, hu, hws⟩ := List.map_eq_cons_iff.1 hws
  obtain rfl := List.map_eq_nil_iff.1 hws
  rw [List.append_assoc]
  exact list_stays h hbudget hu rest hus

/-- Tokens that are an expression and no more are read as a filter within the budget. -/
theorem filter_stays (h : LevelFits r 1 depth kinds) {budget : Nat} (hbudget : depth ≤ budget)
    {ts : List Token} (hts : ts.map Token.kind = kinds) :
    (filter r budget ts).Stays fun _ => True := by
  have hread : (expression r budget 0 (ts ++ [])).Stays (EndsAt []) :=
    h.ends 0 hbudget (Nat.le_refl 1) hts (by rintro op ⟨⟩) rfl
  rw [List.append_nil] at hread
  unfold filter
  split
  · exact .pure trivial
  · refine hread.bind fun x _ => Run.Stays.bind (p := fun _ => True) ?_ fun _ _ => .pure trivial
    unfold inputEnd
    split
    · exact .pure trivial
    · split
      · exact .fail nofun
      · exact .missing

end QueryExpr.Reading
