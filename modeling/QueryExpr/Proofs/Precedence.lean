import QueryExpr.Proofs.Answers
import QueryExpr.Proofs.Grammar
import QueryExpr.Proofs.Items

/-!
# The reader of expressions and the grammar

An expression with the minimum `m` is a phrase of the level `m / 2 + 1`. While a chain is read, its
left operand is a phrase of some level, and no operator behind it is tighter.

* `Reads.behindGroup_eq`: parentheses match in what is read.
* `Reads.derives`: what is read is derived, but where a value list is an operand of arithmetic.
* `Derives.reads`: what is derived is read, whatever follows it.
* `filter_iff_derives`: filters are what the grammar derives, with one tree each.
-/

namespace QueryExpr.Reading

variable {r : Resolvers} {ts rest : List Token} {qs : List Request} {e : Expr}

/-! ## Operators at the front -/

/-- The binary operator at the front of the tokens. -/
def frontOperator? : List Token → Option Operator
  | t :: _ => t.kind.binary?
  | [] => none

/-- No binary operator at the front of the tokens is of a level above `n`. -/
def FrontWithin (n : Nat) (ts : List Token) : Prop :=
  ∀ op, frontOperator? ts = some op → op.precedence ≤ n

theorem FrontWithin.mono {m n : Nat} (h : FrontWithin m ts) (hmn : m ≤ n) : FrontWithin n ts :=
  fun op hop => Nat.le_trans (h op hop) hmn

theorem binary?_eq_some {t : Token} {op : Operator} (h : t.kind.binary? = some op) :
    ∃ word, t.kind = .name word ∧ Operator.binary? word = some op := by
  obtain ⟨word, hword, hop⟩ := Option.bind_eq_some_iff.1 h
  refine ⟨word, ?_, hop⟩
  cases hk : t.kind with
  | name w =>
    rw [hk] at hword
    cases hword
    rfl
  | literal raw => rw [hk] at hword; cases hword
  | mark m => rw [hk] at hword; cases hword

theorem unary?_eq_some {t : Token} {op : Operator} (h : t.kind.unary? = some op) :
    t.kind = .name "not" ∧ op = .not ∨ t.kind = .mark .minus ∧ op = .neg := by
  unfold Token.Kind.unary? at h
  split at h
  next hk =>
    cases h
    exact .inr ⟨hk, rfl⟩
  next hk =>
    cases h
    exact .inl ⟨hk, rfl⟩
  next => cases h

theorem frontWithin_six (ts : List Token) : FrontWithin 6 ts := by
  intro op hop
  cases ts with
  | nil => cases hop
  | cons t ts =>
    obtain ⟨word, -, hword⟩ := binary?_eq_some hop
    exact (precedence_of_binary? hword).2

theorem nextOperator?_eq_some {minPower : Nat} {op : Operator} :
    nextOperator? minPower ts = some op ↔
      frontOperator? ts = some op ∧ minPower ≤ op.leftPower := by
  cases ts with
  | nil => simp [nextOperator?, frontOperator?]
  | cons t ts => simp [nextOperator?, frontOperator?, Option.filter_eq_some_iff]

/-- An operator that reaches a minimum is at least of the level of the minimum. -/
theorem le_leftPower_iff {op : Operator} {minPower : Nat} (h : 1 ≤ op.precedence) :
    minPower ≤ op.leftPower ↔ minPower / 2 + 1 ≤ op.precedence := by
  unfold Operator.leftPower
  omega

theorem frontOperator?_precedence {op : Operator} (h : frontOperator? ts = some op) :
    1 ≤ op.precedence := by
  cases ts with
  | nil => cases h
  | cons t ts =>
    obtain ⟨word, -, hword⟩ := binary?_eq_some h
    exact (precedence_of_binary? hword).1

/-- A chain stops where every operator at the front is below the level of its minimum. -/
theorem nextOperator?_eq_none {minPower : Nat} :
    nextOperator? minPower ts = none ↔ FrontWithin (minPower / 2) ts := by
  constructor
  · intro h op hop
    rcases Nat.lt_or_ge (minPower / 2) op.precedence with hlt | hle
    · have hle := (le_leftPower_iff (frontOperator?_precedence hop)).2 hlt
      have := nextOperator?_eq_some.2 ⟨hop, hle⟩
      rw [h] at this
      cases this
    · exact hle
  · intro h
    cases hn : nextOperator? minPower ts with
    | none => rfl
    | some op =>
      obtain ⟨hop, hle⟩ := nextOperator?_eq_some.1 hn
      have := (le_leftPower_iff (frontOperator?_precedence hop)).1 hle
      have := h op hop
      omega

/-! ## Matching parentheses -/

/-- What is behind a group stays the same when the part has been read in it. The items of a list
    end with the parenthesis that closes them. -/
def Part.Matches (ts rest : List Token) : Part → Prop
  | .items => ∀ depth (u : Token), u.kind = .mark .parenClose →
      behindGroup depth ts = behindGroup depth (u :: rest)
  | .expression _ | .operand | .chain _ _ | .values => ∀ depth,
      behindGroup depth ts = behindGroup depth rest

theorem unary?_ne_paren {t : Token} {op : Operator} (h : t.kind.unary? = some op) :
    t.kind ≠ .mark .parenOpen ∧ t.kind ≠ .mark .parenClose := by
  constructor <;> (intro hk; rw [hk] at h; cases h)

theorem nextOperator?_ne_paren {minPower : Nat} {t : Token} {op : Operator}
    (h : nextOperator? minPower (t :: ts) = some op) :
    t.kind ≠ .mark .parenOpen ∧ t.kind ≠ .mark .parenClose := by
  obtain ⟨word, hword, -⟩ := binary?_eq_some (nextOperator?_eq_some.1 h).1
  simp [hword]

/-- Parentheses match in what is read. -/
theorem Reads.behindGroup_eq {part : Part} (h : Reads r part ts qs e rest) :
    part.Matches ts rest := by
  induction h with
  | expression _ _ ihf ihm => exact fun depth => (ihf depth).trans (ihm depth)
  | unary ht _ ih =>
    intro depth
    rw [behindGroup_other _ (unary?_ne_paren ht).1 (unary?_ne_paren ht).2]
    exact ih depth
  | literal ht _ | member ht _ _ _ =>
    intro depth
    exact behindGroup_other _ (by simp [ht]) (by simp [ht]) depth
  | parens ht _ hu ih =>
    intro depth
    rw [behindGroup_open _ ht, ih, behindGroup_close_succ _ hu]
  | call ht _ _ _ ih =>
    intro depth
    rw [behindGroup_other _ (by simp [ht]) (by simp [ht])]
    exact ih depth
  | stop _ => exact fun _ => rfl
  | binary hop _ _ _ iho ihm | membership hop _ _ _ iho ihm =>
    intro depth
    rw [behindGroup_other _ (nextOperator?_ne_paren hop).1 (nextOperator?_ne_paren hop).2]
    exact (iho depth).trans (ihm depth)
  | noValues ht hu =>
    intro depth
    rw [behindGroup_open _ ht, behindGroup_close_succ _ hu]
  | @values t ts qs es rest ht _ ih =>
    intro depth
    have hclose : (Token.mk (.mark .parenClose) t.span).kind = .mark .parenClose := rfl
    rw [behindGroup_open _ ht, ih (depth + 1) _ hclose, behindGroup_close_succ _ hclose]
  | @lastItem ts qs e u rest item hu ih =>
    intro depth v hv
    rw [ih depth]
    cases depth with
    | zero => rw [behindGroup_close_zero _ hu, behindGroup_close_zero _ hv]
    | succ depth => rw [behindGroup_close_succ _ hu, behindGroup_close_succ _ hv]
  | nextItem _ hu _ ihi ihm =>
    intro depth v hv
    rw [ihi depth, behindGroup_other _ (by simp [hu]) (by simp [hu])]
    exact ihm depth v hv

/-- What is left of a value list stands behind its closing parenthesis. -/
theorem Reads.behindGroup_values (h : Reads r .values ts qs e rest) :
    ∃ t ts', ts = t :: ts' ∧ t.kind = .mark .parenOpen ∧ behindGroup 0 ts' = rest := by
  cases h with
  | noValues ht hu => exact ⟨_, _, rfl, ht, behindGroup_close_zero _ hu⟩
  | @values t ts qs es rest ht items =>
    have hclose : (Token.mk (.mark .parenClose) t.span).kind = .mark .parenClose := rfl
    refine ⟨_, _, rfl, ht, ?_⟩
    rw [items.behindGroup_eq 0 _ hclose, behindGroup_close_zero _ hclose]

/-! ## What is read is derived -/

/-- Where no operator of arithmetic is at the front, every operator there is of the fourth level at
    most. -/
theorem frontWithin_four (h : startsWithArithmetic ts = false) : FrontWithin 4 ts := by
  intro op hop
  cases ts with
  | nil => cases hop
  | cons t ts =>
    obtain ⟨word, hword, hbinary⟩ := binary?_eq_some hop
    obtain ⟨rfl, hu⟩ := keyword_of_binary? hbinary
    rw [startsWithArithmetic, hword] at h
    revert hu h
    clear hbinary hword hop
    cases op <;> decide

/-- Behind the value list of a membership there is no operator of arithmetic. -/
theorem GuardedMemberships.frontWithin {minPower : Nat} {t : Token} {op : Operator}
    (hg : GuardedMemberships (t :: ts)) (h : nextOperator? minPower (t :: ts) = some op)
    (hop : op.takesValues = true) (list : Reads r .values ts qs e rest) : FrontWithin 4 rest := by
  obtain ⟨u, after, rfl, hu, hrest⟩ := list.behindGroup_values
  obtain ⟨word, hword, hbinary⟩ := binary?_eq_some (nextOperator?_eq_some.1 h).1
  obtain ⟨rfl, -⟩ := keyword_of_binary? hbinary
  have hin : t.kind = .name "in" ∨ t.kind = .name "nin" := by
    cases op with
    | isIn => exact .inl hword
    | notIn => exact .inr hword
    | _ => cases hop
  rw [← hrest]
  exact frontWithin_four (hg _ List.suffix_rfl hin hu)

/-- What a part of the reader derives. An expression with the minimum `m` is of the level
    `m / 2 + 1`; so is what a chain makes of a left operand that is, if no operator behind the left
    operand is tighter. Either stops only in front of a weaker operator. -/
def Part.Derived (r : Resolvers) (ts : List Token) (e : Expr) (rest : List Token) : Part → Prop
  | .expression minPower => minPower ≤ 13 →
      Derives r (.level (minPower / 2 + 1)) ts e rest ∧ FrontWithin (minPower / 2) rest
  | .operand => Derives r (.level 7) ts e rest
  | .chain minPower left => ∀ ts₀ level, minPower / 2 + 1 ≤ level →
      Derives r (.level level) ts₀ left ts → FrontWithin level ts →
        Derives r (.level (minPower / 2 + 1)) ts₀ e rest ∧ FrontWithin (minPower / 2) rest
  | .values => Derives r .values ts e rest
  | .items => Derives r .items ts e rest

/-- What is read is derived, if no value list is an operand of arithmetic. -/
theorem Reads.derives {part : Part} (h : Reads r part ts qs e rest) (hg : GuardedMemberships ts) :
    part.Derived r ts e rest := by
  induction h with
  | @expression minPower ts qs left ts' qs' e rest first more ihf ihm =>
    intro hm
    exact ihm (hg.of_suffix first.suffix) ts 7 (by omega) (ihf hg)
      ((frontWithin_six ts').mono (by omega))
  | @unary t op ts qs e rest ht inner ih =>
    have hg' := hg.of_suffix (List.suffix_cons _ _)
    rcases unary?_eq_some ht with ⟨hk, rfl⟩ | ⟨hk, rfl⟩
    · exact .not hk (ih hg' (by decide)).1
    · exact .neg hk (ih hg' (by decide)).1
  | literal ht hl => exact (Derives.literal ht hl).tighter
  | @parens t u ts qs e rest ht inner hu ih =>
    exact (Derives.parens ht (ih (hg.of_suffix (List.suffix_cons _ _)) (by omega)).1 hu).tighter
  | call ht hw list hc ih =>
    exact (Derives.call ht hw (ih (hg.of_suffix (List.suffix_cons _ _))) hc).tighter
  | member ht hw hrest hm => exact (Derives.member ht hw hrest hm).tighter
  | stop hop =>
    intro ts₀ level hlevel hleft _
    exact ⟨hleft.weaken hlevel, nextOperator?_eq_none.1 hop⟩
  | @binary minPower left op t ts qs right ts' qs' e rest hop hv operand more iho ihm =>
    intro ts₀ level hlevel hleft hfront
    obtain ⟨hfrontop, hpower⟩ := nextOperator?_eq_some.1 hop
    obtain ⟨word, hword, hbinary⟩ := binary?_eq_some hfrontop
    obtain ⟨hone, hsix⟩ := precedence_of_binary? hbinary
    have hle := hfront op hfrontop
    have hg' := hg.of_suffix (List.suffix_cons _ _)
    obtain ⟨hright, hstop⟩ := iho hg' (by unfold Operator.rightPower; omega)
    have hhalf : op.rightPower / 2 = op.precedence := by unfold Operator.rightPower; omega
    rw [hhalf] at hright hstop
    -- the chain goes on with a left operand of the operator's own level
    exact ihm (hg'.of_suffix operand.suffix) ts₀ op.precedence ((le_leftPower_iff hone).1 hpower)
      ((hleft.weaken hle).binary hword (mem_binaryWords hbinary hv) hright) hstop
  | @membership minPower left op t ts qs right ts' qs' e rest hop hv list more ihl ihm =>
    intro ts₀ level hlevel hleft hfront
    obtain ⟨hfrontop, hpower⟩ := nextOperator?_eq_some.1 hop
    obtain ⟨word, hword, hbinary⟩ := binary?_eq_some hfrontop
    have hmem := mem_membershipWords hbinary hv
    have hfour : op.precedence = 4 := (binary?_of_mem_membershipWords hmem).2.2
    have hle := hfront op hfrontop
    have hg' := hg.of_suffix (List.suffix_cons _ _)
    have hlow := (le_leftPower_iff (by omega)).1 hpower
    rw [hfour] at hle hlow
    -- a value list may be followed by any operator, so only the guard rules out arithmetic
    exact ihm (hg'.of_suffix list.suffix) ts₀ 4 hlow
      ((hleft.weaken hle).membership hword hmem (ihl hg')) (hg.frontWithin hop hv list)
  | noValues ht hu => exact .noValues ht hu
  | values ht _ ih => exact .values ht (ih (hg.of_suffix (List.suffix_cons _ _)))
  | lastItem _ hu ih => exact .lastItem (ih hg (by omega)).1 hu
  | nextItem item hu _ ihi ihm =>
    exact .nextItem (ihi hg (by omega)).1 hu
      (ihm ((hg.of_suffix item.suffix).of_suffix (List.suffix_cons _ _)))

/-! ## What is derived is read -/

/-- How a phrase is read. Behind a phrase of a level no operator may be tighter than the level;
    then whatever a chain makes of the tree and the tokens behind it is read of all the tokens. -/
def Phrase.Read (r : Resolvers) (ts : List Token) (e : Expr) (rest : List Token) : Phrase → Prop
  | .level n => ∀ minPower, minPower / 2 + 1 ≤ n → FrontWithin n rest → ∀ {qs' e' rest'},
      Reads r (.chain minPower e) rest qs' e' rest' →
        ∃ qs, Reads r (.expression minPower) ts qs e' rest'
  | .values => ∃ qs, Reads r .values ts qs e rest
  | .items => ∃ qs, Reads r .items ts qs e rest

theorem frontWithin_of_name {n : Nat} {t : Token} {word : String} {op : Operator}
    (ht : t.kind = .name word) (hop : Operator.binary? word = some op) (hn : op.precedence ≤ n)
    (ts : List Token) : FrontWithin n (t :: ts) := by
  intro op' hop'
  have : t.kind.binary? = some op := by rw [ht]; exact hop
  rw [frontOperator?, this] at hop'
  cases hop'
  exact hn

theorem nextOperator?_of_name {minPower : Nat} {t : Token} {word : String} {op : Operator}
    (ht : t.kind = .name word) (hop : Operator.binary? word = some op)
    (hm : minPower / 2 + 1 ≤ op.precedence) (ts : List Token) :
    nextOperator? minPower (t :: ts) = some op := by
  refine nextOperator?_eq_some.2 ⟨?_, (le_leftPower_iff (by omega)).2 hm⟩
  rw [frontOperator?, ht]
  exact hop

/-- No operator stands in front of a mark. -/
theorem frontWithin_of_mark {n : Nat} {t : Token} {m : Mark} (ht : t.kind = .mark m)
    (ts : List Token) : FrontWithin n (t :: ts) := by
  intro op hop
  rw [frontOperator?, ht] at hop
  cases hop

/-- A phrase is read to its end where every operator behind it is below the level of the
    minimum. -/
theorem Phrase.Read.stop {n : Nat} (h : Phrase.Read r ts e rest (.level n)) (minPower : Nat)
    (hm : minPower / 2 + 1 ≤ n) (hrest : FrontWithin (minPower / 2) rest) :
    ∃ qs, Reads r (.expression minPower) ts qs e rest :=
  h minPower hm (hrest.mono (by omega)) (.stop (nextOperator?_eq_none.2 hrest))

/-- What is derived is read. -/
theorem Derives.read {phrase : Phrase} (h : Derives r phrase ts e rest) :
    phrase.Read r ts e rest := by
  induction h with
  | tighter _ ih =>
    intro minPower hm hrest _ _ _ more
    exact ih minPower (by omega) (hrest.mono (by omega)) more
  | @binary n ts left word op ts' right rest t _ ht hop _ ihl ihr =>
    intro minPower hm hrest _ _ _ more
    obtain ⟨hbinary, hv, hn⟩ := binary?_of_mem_binaryWords hop
    have hhalf : op.rightPower / 2 = n := by unfold Operator.rightPower; omega
    -- the right operand stops in front of operators of its own level, which are of the chain
    obtain ⟨_, hright⟩ := ihr.stop op.rightPower (by omega) (by rwa [hhalf])
    exact ihl minPower hm (frontWithin_of_name ht hbinary (by omega) ts')
      (.binary (nextOperator?_of_name ht hbinary (by omega) ts') hv hright more)
  | @membership ts left word op ts' right rest t _ ht hop _ ihl ihr =>
    intro minPower hm _ _ _ _ more
    obtain ⟨hbinary, hv, hn⟩ := binary?_of_mem_membershipWords hop
    obtain ⟨_, hright⟩ := ihr
    exact ihl minPower hm (frontWithin_of_name ht hbinary (by omega) ts')
      (.membership (nextOperator?_of_name ht hbinary (by omega) ts') hv hright more)
  | @not t ts e rest ht _ ih =>
    intro minPower hm _ _ _ _ more
    obtain ⟨_, hinner⟩ := ih.stop Operator.not.operandPower (by decide)
      (frontWithin_six rest)
    exact ⟨_, .expression (.unary (by rw [ht]; rfl) hinner) more⟩
  | @neg t ts e rest ht _ ih =>
    intro minPower hm _ _ _ _ more
    obtain ⟨_, hinner⟩ := ih.stop Operator.neg.operandPower (by decide)
      (frontWithin_six rest)
    exact ⟨_, .expression (.unary (by rw [ht]; rfl) hinner) more⟩
  | literal ht hl => exact fun _ _ _ _ _ _ more => ⟨_, .expression (.literal ht hl) more⟩
  | @parens t u ts e rest ht _ hu ih =>
    intro minPower _ _ _ _ _ more
    obtain ⟨_, hinner⟩ := ih.stop 0 (by decide) (frontWithin_of_mark hu rest)
    exact ⟨_, .expression (.parens ht hinner hu) more⟩
  | call ht hw _ hc ih =>
    intro minPower _ _ _ _ _ more
    obtain ⟨_, hlist⟩ := ih
    exact ⟨_, .expression (.call ht hw hlist hc) more⟩
  | member ht hw hrest hm =>
    exact fun _ _ _ _ _ _ more => ⟨_, .expression (.member ht hw hrest hm) more⟩
  | noValues ht hu => exact ⟨_, .noValues ht hu⟩
  | values ht _ ih =>
    obtain ⟨_, hitems⟩ := ih
    exact ⟨_, .values ht hitems⟩
  | @lastItem ts e u rest _ hu ih =>
    obtain ⟨_, hitem⟩ := ih.stop 0 (by decide) (frontWithin_of_mark hu rest)
    exact ⟨_, .lastItem hitem hu⟩
  | @nextItem ts e u ts' es rest _ hu _ ihi ihm =>
    obtain ⟨_, hitem⟩ := ihi.stop 0 (by decide) (frontWithin_of_mark hu ts')
    obtain ⟨_, hmore⟩ := ihm
    exact ⟨_, .nextItem hitem hu hmore⟩

/-! ## Filters -/

/-- Tokens that the grammar derives are read as a filter, if the budget covers them. -/
theorem filter_of_derives (h : Derives r (.level 1) ts e []) {budget : Nat}
    (hb : ts.length ≤ budget) : (filter r budget ts).outcome = .ok (some e) := by
  obtain ⟨_, hread⟩ := h.read.stop 0 (by decide) (fun op hop => by cases hop)
  exact filter_of_reads hread hb

/-- Only tokens that are read to their end are read as a filter. -/
theorem expression_of_filter {budget : Nat} (h : (filter r budget ts).outcome = .ok (some e)) :
    (expression r budget 0 ts).outcome = .ok (e, []) := by
  cases ts with
  | nil => cases h
  | cons t ts =>
    obtain ⟨⟨e', rest⟩, hrun, h⟩ := Run.outcome_bind_eq_ok.1 h
    obtain ⟨⟨⟩, hend, h⟩ := Run.outcome_bind_eq_ok.1 h
    cases h
    obtain ⟨-, rfl⟩ := inputEnd_gives rest _ hend
    exact hrun

/-- Tokens in which no value list is an operand of arithmetic are read as a filter exactly if the
    grammar derives them, and with the tree that it gives them. No tokens have two trees. -/
theorem filter_iff_derives (r : Resolvers) :
    (∀ (budget : Nat) (ts : List Token) (e : Expr), ts.length ≤ budget → GuardedMemberships ts →
      ((filter r budget ts).outcome = .ok (some e) ↔ Derives r (.level 1) ts e [])) ∧
    ∀ (ts : List Token) (e e' : Expr), Derives r (.level 1) ts e [] →
      Derives r (.level 1) ts e' [] → e = e' := by
  refine ⟨?_, ?_⟩
  · intro budget ts e hb hg
    refine ⟨fun h => ?_, fun h => filter_of_derives h hb⟩
    have hreads := expression_gives r budget 0 ts _ (expression_of_filter h)
    exact (hreads.derives hg (by decide)).1
  · intro ts e e' h h'
    have hrun := filter_of_derives h (Nat.le_refl ts.length)
    rw [filter_of_derives h' (Nat.le_refl ts.length)] at hrun
    cases hrun
    rfl

/-- Membership binds its value list before a conjunction. -/
theorem filter_iff_derives_membership :
    let tokens : List Token := [.name "a", .name "in", .mark .parenOpen, .name "b",
      .mark .parenClose, .name "and", .name "c"].map (⟨·, default⟩)
    let a : Expr := .member ⟨["a"]⟩
    let b : Expr := .member ⟨["b"]⟩
    let c : Expr := .member ⟨["c"]⟩
    let e : Expr := .and (.binary a .isIn (.collection [b])) c
    tokens.length ≤ 7 ∧ GuardedMemberships tokens ∧
      (filter .transparent 7 tokens).outcome = .ok (some e) ∧
      Derives .transparent (.level 1) tokens e [] :=
  ⟨by decide, by decide, rfl,
    ((filter_iff_derives .transparent).1 7 _ _ (by decide) (by decide)).1 rfl⟩

end QueryExpr.Reading
