import QueryExpr.Token.Lexer

/-!
# The place of each token

The lexer passes the text once, from left to right. What it passes over is blanks and tokens, and
each token has the span of the characters that it was read from.

* `Lexer.Call`: what a call for a token does.
* `Lexer.Cuts`: a text consists of blanks and of the given tokens, spans included.
* `Lexer.cuts_of_tokenize`, `Lexer.tokenize_of_cuts`: the tokens of a text are those that it
  consists of.
* `Lexer.Tiled`: tokens that cover all of a text but blanks, each character once.
* `Lexer.tiled_of_tokenize`: the tokens of a text do so, a call for a token never moves back, and
  the calls come to an end.
-/

namespace QueryExpr

open Text (isBlank)

/-! ## Characters of a token -/

namespace Token

@[simp] theorem Scan.literal_read (read rest : List Char) (raw : Literal.Raw) :
    (Scan.literal read rest raw).read = read := by
  unfold Scan.literal
  split <;> rfl

@[simp] theorem Scan.bounded_read (read rest : List Char) (raw : Literal.Raw) :
    (Scan.bounded read rest raw).read = read := by
  rw [Scan.bounded.eq_def]
  split
  · split
    · rfl
    · exact literal_read _ _ _
  · exact literal_read _ _ _

@[simp] theorem scanPlain_read (sign : List Char) (n : Numeral) :
    (scanPlain sign n).read = sign ++ n.digits := by
  simp only [scanPlain]
  split
  · exact Scan.bounded_read _ _ _
  · split
    · exact Scan.bounded_read _ _ _
    · rfl

theorem scanNumber_read (sign cs : List Char) :
    sign ++ (Numeral.ofChars cs).digits <+: (scanNumber sign cs).read := by
  simp only [scanNumber]
  split
  · split
    · simp
    · simp
  · simp

theorem scanQuoted_read {lead : List Char} {kind : Literal.Kind}
    {finish : List Char → List Char → List Char → Scan}
    (h : ∀ read rest body, (finish read rest body).read = read) (cs : List Char) :
    lead <+: (scanQuoted lead kind finish cs).read := by
  simp only [scanQuoted]
  split
  · rw [h]
    exact List.prefix_append _ _
  · exact List.prefix_append _ _
  · exact List.prefix_append _ _

theorem typedLiteral_read (w : TypeWord) (read rest body : List Char) :
    (typedLiteral w read rest body).read = read := by
  unfold typedLiteral
  split
  · exact Scan.literal_read _ _ _
  · rfl

theorem scanName_read (cs : List Char) : (splitName cs).1 <+: (scanName cs).read := by
  have htyped : ∀ w quoted, (splitName cs).1 <+: (scanTyped w (splitName cs).1 quoted).read := by
    intro w quoted
    exact (List.prefix_append _ _).trans (scanQuoted_read (typedLiteral_read w) quoted)
  simp only [scanName]
  split
  · split
    · exact htyped _ _
    · exact List.prefix_rfl
  · exact List.prefix_rfl

theorem Numeral.digits_ne_nil {cs : List Char} (h : startsDigit cs = true) :
    (Numeral.ofChars cs).digits ≠ [] := by
  cases cs with
  | nil => simp [startsDigit] at h
  | cons c cs =>
    have hc : Text.isDigit c = true := h
    simp [Numeral.ofChars, Number.Digits.run, hc]

theorem BareDate.splitDate?_ne_nil {cs : List Char} {r : List Char × List Char}
    (h : BareDate.splitDate? cs = some r) : r.1 ≠ [] := by
  obtain ⟨⟨read, rest⟩, hday, rfl⟩ := Option.map_eq_some_iff.1 h
  cases cs with
  | nil => simp [follow, dayForm] at hday
  | cons c cs =>
    simp only [follow, dayForm] at hday
    split at hday
    · obtain ⟨_, _, heq⟩ := Option.map_eq_some_iff.1 hday
      simp [← (Prod.mk.inj heq).1]
    · simp at hday

/-- A token has at least one character. -/
theorem scan_read_ne_nil {afterOperand : Bool} {c : Char} {cs : List Char} {kind : Kind}
    (h : (scan afterOperand c cs).outcome = .ok kind) : (scan afterOperand c cs).read ≠ [] := by
  have number : ∀ sign cs, sign ≠ [] ∨ startsDigit cs = true → (scanNumber sign cs).read ≠ [] := by
    intro sign cs hne hnil
    have hread := scanNumber_read sign cs
    rw [hnil, List.prefix_nil, List.append_eq_nil_iff] at hread
    rcases hne with hsign | hdigit
    · exact hsign hread.1
    · exact Numeral.digits_ne_nil hdigit hread.2
  unfold scan at h ⊢
  split
  · have hread : ['\''] <+: (scanString cs).read := scanQuoted_read (fun _ _ _ => rfl) cs
    exact fun hnil => by simp [hnil] at hread
  split
  · unfold scanMinus
    split
    · exact number _ _ (.inl (by simp))
    · split <;> simp [Scan.found]
  split
  · exact number _ _ (.inl (by simp))
  split
  next hdigit =>
    unfold scanUnsigned
    split
    next hdate => simpa using BareDate.splitDate?_ne_nil hdate
    next => exact number _ _ (.inr hdigit)
  split
  next hstart =>
    have hread := scanName_read (c :: cs)
    have hname : (splitName (c :: cs)).1 ≠ [] := by
      simp [splitName, Text.isNameChar_of_isNameStart hstart]
    exact fun hnil => hname (by simpa [hnil] using hread)
  split
  · simp [Scan.found]
  next hmark => simp_all [Scan.failed]

/-- A scan that finds a token is given by what it passes. -/
theorem Scan.eq_found {s : Scan} {kind : Kind} (h : s.outcome = .ok kind) :
    s = .found s.read s.rest kind := by
  cases s
  cases h
  rfl

end Token

namespace Lexer

open Token (scan)
open Text.Utf8 (size)

/-! ## One call -/

/-- All of the characters are blanks. -/
def Blank (cs : List Char) : Prop := ∀ c ∈ cs, isBlank c = true

instance (cs : List Char) : Decidable (Blank cs) :=
  decidable_of_iff (cs.all isBlank = true) List.all_eq_true

theorem blank_nil : Blank [] := fun _ hc => absurd hc List.not_mem_nil

/-- What a call for a token gives, and the lexer behind it, where the characters `before` have been
    passed. The call passes blanks and what is scanned behind them. -/
inductive Call (l : Lexer) (before : List Char) :
    Except LexError (Option Token) → Lexer → Prop where
  | done {gap : List Char} {l'} (hgap : Blank gap) (ahead : l.cursor.ahead = gap)
      (placed : l'.cursor.Placed (before ++ gap)) (rest : l'.cursor.ahead = []) :
      Call l before (.ok none) l'
  | token {gap c cs kind l'} (hgap : Blank gap) (hc : isBlank c = false)
      (ahead : l.cursor.ahead = gap ++ c :: cs)
      (hscan : (scan l.afterOperand c cs).outcome = .ok kind)
      (placed : l'.cursor.Placed (before ++ gap ++ (scan l.afterOperand c cs).read))
      (rest : l'.cursor.ahead = (scan l.afterOperand c cs).rest)
      (hafter : l'.afterOperand = kind.endsOperand) :
      Call l before (.ok (some ⟨kind,
        ⟨size (before ++ gap), size (before ++ gap ++ (scan l.afterOperand c cs).read)⟩⟩)) l'
  | fault {gap c cs flaw l'} (hgap : Blank gap) (hc : isBlank c = false)
      (ahead : l.cursor.ahead = gap ++ c :: cs)
      (hscan : (scan l.afterOperand c cs).outcome = .error flaw)
      (placed : l'.cursor.Placed (before ++ gap ++ (scan l.afterOperand c cs).read))
      (rest : l'.cursor.ahead = (scan l.afterOperand c cs).rest)
      (hafter : l'.afterOperand = l.afterOperand) :
      Call l before (.error ⟨flaw.fault, (before ++ gap).length + flaw.offset⟩) l'

theorem blank_takeWhile (cs : List Char) : Blank (cs.takeWhile isBlank) := by
  intro c hc
  exact List.all_eq_true.1 List.all_takeWhile c hc

theorem not_blank_of_dropWhile {cs ds : List Char} {c : Char}
    (h : cs.dropWhile isBlank = c :: ds) : isBlank c = false := by
  have := List.head?_dropWhile_not isBlank cs
  rw [h] at this
  simpa using this

theorem call (l : Lexer) {before : List Char} (h : l.cursor.Placed before) :
    Call l before l.next.1 l.next.2 := by
  have hsplit := List.takeWhile_append_dropWhile (p := isBlank) (l := l.cursor.ahead)
  have hplaced : l.cursor.skipBlank.Placed (before ++ l.cursor.ahead.takeWhile isBlank) :=
    h.advance hsplit.symm
  have hgap := blank_takeWhile l.cursor.ahead
  have hahead : l.cursor.skipBlank.ahead = l.cursor.ahead.dropWhile isBlank := rfl
  cases hdrop : l.cursor.ahead.dropWhile isBlank with
  | nil =>
    rw [hdrop] at hahead
    simp only [next, hahead]
    rw [hdrop, List.append_nil] at hsplit
    exact .done hgap hsplit.symm hplaced hahead
  | cons c cs =>
    rw [hdrop] at hahead hsplit
    have hstop := hplaced.advance (hahead.trans (Token.scan_covers l.afterOperand c cs).symm)
    have hc := not_blank_of_dropWhile hdrop
    cases hscan : (scan l.afterOperand c cs).outcome with
    | ok kind =>
      simp only [next, hahead, hscan]
      rw [show l.cursor.skipBlank.pos = _ from hplaced.2, show Cursor.pos _ = _ from hstop.2]
      exact .token hgap hc hsplit.symm hscan hstop rfl rfl
    | error flaw =>
      simp only [next, hahead, hscan, hplaced.charPos]
      exact .fault hgap hc hsplit.symm hscan hstop rfl rfl

/-! ## All calls -/

/-- The text consists of blanks and of the tokens, where `before` stands in front of it. -/
inductive Cuts : Bool → List Char → List Char → List Token → Prop where
  | done {afterOperand before cs} (h : Blank cs) : Cuts afterOperand before cs []
  | token {afterOperand before gap c cs read rest kind ts} (hgap : Blank gap)
      (hc : isBlank c = false) (hscan : scan afterOperand c cs = .found read rest kind)
      (more : Cuts kind.endsOperand (before ++ gap ++ read) rest ts) :
      Cuts afterOperand before (gap ++ c :: cs)
        (⟨kind, ⟨size (before ++ gap), size (before ++ gap ++ read)⟩⟩ :: ts)

/-- The characters of a token and those behind them are the characters from its first one on. -/
theorem append_eq_of_found {afterOperand : Bool} {c : Char} {cs read rest : List Char}
    {kind : Token.Kind} (h : scan afterOperand c cs = .found read rest kind) :
    read ++ rest = c :: cs ∧ read ≠ [] := by
  have hcovers := Token.scan_covers afterOperand c cs
  have hok : (scan afterOperand c cs).outcome = .ok kind := by
    rw [h]
    rfl
  have hne := Token.scan_read_ne_nil hok
  rw [h] at hcovers hne
  exact ⟨hcovers, hne⟩

theorem cuts_of_upTo {limit : Nat} {l : Lexer} {before : List Char} {ts : List Token}
    (h : l.cursor.Placed before) (hl : l.cursor.ahead.length < limit)
    (hts : upTo limit l = .ok ts) : Cuts l.afterOperand before l.cursor.ahead ts := by
  induction limit generalizing l before ts with
  | zero => omega
  | succ limit ih =>
    have hcall := l.call h
    rcases hnext : l.next with ⟨result, l'⟩
    simp only [upTo, hnext] at hts hcall
    cases hcall with
    | done hgap ahead placed rest =>
      cases hts
      exact .done (ahead ▸ hgap)
    | @token gap c cs kind _ hgap hc ahead hscan placed rest hafter =>
      have hfound := Token.Scan.eq_found hscan
      obtain ⟨happend, hne⟩ := append_eq_of_found hfound
      have hlength := congrArg List.length happend
      have hpos := List.length_pos_iff.2 hne
      cases htail : upTo limit l' with
      | error e => simp [htail, Except.map] at hts
      | ok ts' =>
        simp only [htail, Except.map, Except.ok.injEq] at hts
        subst hts
        rw [ahead, List.length_append] at hl
        have hmore := ih placed (by rw [rest]; simp at hlength hl; omega) htail
        rw [hafter, rest] at hmore
        rw [ahead]
        exact .token hgap hc hfound hmore
    | fault => simp at hts

/-- The tokens of a text are those that it consists of. -/
theorem cuts_of_tokenize {text : String} {ts : List Token} (h : tokenize text = .ok ts) :
    Cuts false [] text.toList ts :=
  cuts_of_upTo (Cursor.placed_ofText text) (Nat.lt_succ_self _) h

/-- Blanks end where a character is none, so a text has only one front of them. -/
theorem blank_front_unique {gap gap' cs cs' : List Char} {c c' : Char} (hgap : Blank gap)
    (hgap' : Blank gap') (hc : isBlank c = false) (hc' : isBlank c' = false)
    (h : gap ++ c :: cs = gap' ++ c' :: cs') : gap = gap' ∧ c = c' ∧ cs = cs' := by
  have hdrop := congrArg (List.dropWhile isBlank) h
  rw [List.dropWhile_append_of_pos hgap, List.dropWhile_append_of_pos hgap',
    List.dropWhile_cons_of_neg (by simp [hc]), List.dropWhile_cons_of_neg (by simp [hc'])] at hdrop
  obtain ⟨rfl, rfl⟩ := List.cons.inj hdrop
  exact ⟨List.append_cancel_right h, rfl, rfl⟩

/-- A call gives the token that a scan behind blanks finds. -/
theorem next_of_found {l : Lexer} {before gap : List Char} {c : Char} {cs read rest : List Char}
    {kind : Token.Kind} (h : l.cursor.Placed before) (hgap : Blank gap) (hc : isBlank c = false)
    (ahead : l.cursor.ahead = gap ++ c :: cs)
    (hscan : scan l.afterOperand c cs = .found read rest kind) :
    ∃ l', l.next = (.ok (some ⟨kind, ⟨size (before ++ gap), size (before ++ gap ++ read)⟩⟩), l') ∧
      l'.cursor.Placed (before ++ gap ++ read) ∧ l'.cursor.ahead = rest ∧
      l'.afterOperand = kind.endsOperand := by
  have hcall := l.call h
  rcases hnext : l.next with ⟨result, l'⟩
  rw [hnext] at hcall
  cases hcall with
  | done hgap' ahead' =>
    have hblank : isBlank c = true := hgap' c (by simp [← ahead', ahead])
    rw [hc] at hblank
    cases hblank
  | token hgap' hc' ahead' hscan' placed rest' hafter =>
    obtain ⟨rfl, rfl, rfl⟩ := blank_front_unique hgap hgap' hc hc' (ahead.symm.trans ahead')
    rw [hscan] at hscan' placed rest' ⊢
    cases hscan'
    exact ⟨l', rfl, placed, rest', hafter⟩
  | fault hgap' hc' ahead' hscan' =>
    obtain ⟨rfl, rfl, rfl⟩ := blank_front_unique hgap hgap' hc hc' (ahead.symm.trans ahead')
    rw [hscan] at hscan'
    cases hscan'

theorem upTo_of_cuts {afterOperand : Bool} {before cs : List Char} {ts : List Token}
    (hcuts : Cuts afterOperand before cs ts) {limit : Nat} {l : Lexer}
    (hafter : l.afterOperand = afterOperand) (h : l.cursor.Placed before)
    (ahead : l.cursor.ahead = cs) (hl : cs.length < limit) : upTo limit l = .ok ts := by
  induction hcuts generalizing limit l with
  | @done _ before cs hblank =>
    have hahead : l.cursor.skipBlank.ahead = [] := by
      show l.cursor.ahead.dropWhile isBlank = []
      rw [ahead, ← List.append_nil cs, List.dropWhile_append_of_pos hblank, List.dropWhile_nil]
    cases limit with
    | zero => rfl
    | succ limit => simp [upTo, next, hahead]
  | @token _ before gap c cs read rest kind ts hgap hc hscan _ ih =>
    cases limit with
    | zero => omega
    | succ limit =>
      rw [← hafter] at hscan
      obtain ⟨l', hnext, hplaced, hrest, hafter'⟩ := next_of_found h hgap hc ahead hscan
      obtain ⟨happend, hne⟩ := append_eq_of_found hscan
      have hlength := congrArg List.length happend
      have hpos := List.length_pos_iff.2 hne
      simp only [List.length_append, List.length_cons] at hlength hl
      have hmore : upTo limit l' = .ok ts := ih hafter' hplaced hrest (by omega)
      simp only [upTo, hnext, hmore, Except.map]

/-- A text that consists of tokens has these tokens. -/
theorem tokenize_of_cuts {text : String} {ts : List Token} (h : Cuts false [] text.toList ts) :
    tokenize text = .ok ts :=
  upTo_of_cuts h rfl (Cursor.placed_ofText text) rfl (Nat.lt_succ_self _)

/-! ## Spans -/

/-- The byte offset is the boundary of a character of the text. -/
def IsBoundary (text : List Char) (offset : Nat) : Prop :=
  ∃ front back, text = front ++ back ∧ size front = offset

/-- Each token covers some characters of the text, no two cover the same one, those of the later
    token are behind those of the earlier one, and only blanks are not covered. -/
structure Tiled (text : List Char) (ts : List Token) : Prop where
  nonempty : ∀ t ∈ ts, t.span.start < t.span.stop
  boundary : ∀ t ∈ ts, IsBoundary text t.span.start ∧ IsBoundary text t.span.stop
  ordered : ts.Pairwise fun t u => t.span.stop ≤ u.span.start
  blank : ∀ front c back, text = front ++ c :: back →
    (∀ t ∈ ts, size front < t.span.start ∨ t.span.stop ≤ size front) → isBlank c = true

theorem size_pos {cs : List Char} (h : cs ≠ []) : 0 < size cs := by
  cases cs with
  | nil => exact absurd rfl h
  | cons c cs =>
    have := Char.utf8Size_pos c
    rw [Text.Utf8.size_cons]
    omega

namespace Cuts

variable {afterOperand : Bool} {before cs : List Char} {ts : List Token}

theorem size_le_start (h : Cuts afterOperand before cs ts) : ∀ t ∈ ts, size before ≤ t.span.start := by
  induction h with
  | done _ => simp
  | token _ _ _ _ ih =>
    simp only [List.forall_mem_cons, Text.Utf8.size_append] at ih ⊢
    exact ⟨by omega, fun t ht => by have := ih t ht; omega⟩

theorem nonempty (h : Cuts afterOperand before cs ts) : ∀ t ∈ ts, t.span.start < t.span.stop := by
  induction h with
  | done _ => simp
  | token _ _ hscan _ ih =>
    have := size_pos (append_eq_of_found hscan).2
    simp only [List.forall_mem_cons, Text.Utf8.size_append]
    exact ⟨by omega, ih⟩

theorem boundary (h : Cuts afterOperand before cs ts) :
    ∀ t ∈ ts, IsBoundary (before ++ cs) t.span.start ∧ IsBoundary (before ++ cs) t.span.stop := by
  induction h with
  | done _ => simp
  | @token _ before gap c cs read rest _ _ _ _ hscan _ ih =>
    have happend := (append_eq_of_found hscan).1
    have hwhole : before ++ gap ++ read ++ rest = before ++ (gap ++ c :: cs) := by
      rw [← happend]
      simp
    rw [hwhole] at ih
    refine List.forall_mem_cons.2 ⟨⟨⟨before ++ gap, c :: cs, by simp, rfl⟩, ?_⟩, ih⟩
    exact ⟨before ++ gap ++ read, rest, hwhole.symm, rfl⟩

theorem ordered (h : Cuts afterOperand before cs ts) :
    ts.Pairwise fun t u => t.span.stop ≤ u.span.start := by
  induction h with
  | done _ => exact .nil
  | token _ _ _ more ih => exact .cons more.size_le_start ih

/-- A character that no token covers is a blank in front of a token or behind the last one. -/
theorem blank (h : Cuts afterOperand before cs ts) (front : List Char) (c : Char)
    (back : List Char) (hcs : cs = front ++ c :: back)
    (hout : ∀ t ∈ ts, size (before ++ front) < t.span.start ∨ t.span.stop ≤ size (before ++ front)) :
    isBlank c = true := by
  induction h generalizing front with
  | done hblank =>
    subst hcs
    exact hblank c (by simp)
  | @token _ before gap d cs read rest _ _ hgap _ hscan _ ih =>
    have happend := (append_eq_of_found hscan).1
    obtain ⟨hhead, htail⟩ := List.forall_mem_cons.1 hout
    simp only [Text.Utf8.size_append] at hhead
    rw [← happend, ← List.append_assoc] at hcs
    rcases hhead with hhead | hhead
    · -- the character stands in front of the token
      have hmem : c ∈ gap := by
        rw [List.append_assoc] at hcs
        rcases List.append_eq_append_iff.1 hcs with ⟨mid, hfront, -⟩ | ⟨mid, hgap', hback⟩
        · rw [hfront, Text.Utf8.size_append] at hhead
          omega
        · cases mid with
          | nil =>
            rw [hgap', Text.Utf8.size_append] at hhead
            simp at hhead
          | cons e mid =>
            rw [hgap', (List.cons.inj hback).1]
            simp
      exact hgap c hmem
    · -- the character stands behind the token
      rcases List.append_eq_append_iff.1 hcs with ⟨mid, hfront, hrest⟩ | ⟨mid, hread, hback⟩
      · refine ih mid hrest ?_
        simpa [hfront] using htail
      · have hsize := congrArg size hread
        have := Char.utf8Size_pos c
        cases mid with
        | nil =>
          refine ih [] (by simpa using hback.symm) ?_
          rw [List.append_nil] at hread
          simpa [hread] using htail
        | cons e mid =>
          simp only [Text.Utf8.size_append, Text.Utf8.size_cons] at hsize
          have := Char.utf8Size_pos e
          omega

end Cuts

theorem tiled_of_cuts {text : List Char} {ts : List Token} (h : Cuts false [] text ts) :
    Tiled text ts where
  nonempty := h.nonempty
  boundary := h.boundary
  ordered := h.ordered
  blank := h.blank

/-! ## Any number of calls -/

/-- The lexer behind some calls for a token, whatever they have given. -/
def afterCalls : Nat → Lexer → Lexer
  | 0, l => l
  | count + 1, l => afterCalls count l.next.2

theorem next_text (l : Lexer) : l.next.2.cursor.text = l.cursor.text := by
  simp only [next]
  split
  · rfl
  · split <;> rfl

/-- What has been passed by a call had been passed before it, or is passed by it. -/
theorem Call.placed {l l' : Lexer} {before : List Char} {result : Except LexError (Option Token)}
    (h : Call l before result l') : ∃ passed, l'.cursor.Placed (before ++ passed) ∧
      ∀ t, result = .ok (some t) → passed ≠ [] := by
  cases h with
  | done _ _ placed _ => exact ⟨_, placed, by simp⟩
  | token _ _ _ hscan placed _ _ =>
    rw [List.append_assoc] at placed
    have := Token.scan_read_ne_nil hscan
    exact ⟨_, placed, by simp [this]⟩
  | fault _ _ _ _ placed _ _ =>
    rw [List.append_assoc] at placed
    exact ⟨_, placed, by simp⟩

theorem placed_afterCalls (count : Nat) {l : Lexer} {before : List Char}
    (h : l.cursor.Placed before) :
    (∃ passed, (afterCalls count l).cursor.Placed passed) ∧
      (afterCalls count l).cursor.text = l.cursor.text := by
  induction count generalizing l before with
  | zero => exact ⟨⟨before, h⟩, rfl⟩
  | succ count ih =>
    obtain ⟨passed, hplaced, -⟩ := (l.call h).placed
    obtain ⟨hafter, htext⟩ := ih hplaced
    exact ⟨hafter, htext.trans l.next_text⟩

/-- Each call for a token but the last one gives a token, and the last one tells whether these are
    all tokens of the text. -/
theorem upTo_eq_calls {limit : Nat} {l : Lexer} {before : List Char} (h : l.cursor.Placed before)
    (hl : l.cursor.ahead.length < limit) :
    ∃ ts : List Token, ts.length ≤ l.cursor.ahead.length ∧
      steps ts.length l = ts.map (fun t => .ok (some t)) ∧
      ((afterCalls ts.length l).next.1 = .ok none ∧ upTo limit l = .ok ts ∨
        ∃ e, (afterCalls ts.length l).next.1 = .error e ∧ upTo limit l = .error e) := by
  induction limit generalizing l before with
  | zero => omega
  | succ limit ih =>
    have hcall := l.call h
    rcases hnext : l.next with ⟨result, l'⟩
    rw [hnext] at hcall
    cases hcall with
    | done =>
      refine ⟨[], Nat.zero_le _, rfl, .inl ⟨?_, ?_⟩⟩
      · simp [afterCalls, hnext]
      · simp [upTo, hnext]
    | @fault gap _ _ flaw =>
      refine ⟨[], Nat.zero_le _, rfl,
        .inr ⟨⟨flaw.fault, (before ++ gap).length + flaw.offset⟩, ?_, ?_⟩⟩
      · simp [afterCalls, hnext]
      · simp [upTo, hnext]
    | @token gap c cs kind _ hgap hc ahead hscan placed rest hafter =>
      obtain ⟨happend, hne⟩ := append_eq_of_found (Token.Scan.eq_found hscan)
      have hlength := congrArg List.length happend
      have hpos := List.length_pos_iff.2 hne
      rw [List.length_append] at hlength
      rw [ahead, List.length_append, List.length_cons] at hl
      simp only [List.length_cons] at hlength
      obtain ⟨ts, hcount, hsteps, hend⟩ := ih placed (by rw [rest]; omega)
      refine ⟨⟨kind, ⟨size (before ++ gap),
        size (before ++ gap ++ (scan l.afterOperand c cs).read)⟩⟩ :: ts, ?_, ?_, ?_⟩
      · rw [rest] at hcount
        rw [ahead]
        simp only [List.length_cons, List.length_append]
        omega
      · simp only [List.length_cons, steps, hnext, hsteps, List.map_cons]
      · simp only [List.length_cons, afterCalls, upTo, hnext]
        rcases hend with ⟨hnone, hok⟩ | ⟨e, herror, hfail⟩
        · exact .inl ⟨hnone, by rw [hok]; rfl⟩
        · exact .inr ⟨e, herror, by rw [hfail]; rfl⟩

/-- The tokens of a text cover all of it but blanks. Whatever calls have been made before, the cursor
    is at the boundary of a character, a call does not move it back, and one that gives a token moves
    it on. No more calls give a token than there are characters, and the tokens of the text are what
    they give up to the first call that gives none. -/
theorem tiled_of_tokenize (text : String) :
    (∀ ts, tokenize text = .ok ts → Tiled text.toList ts) ∧
    (∀ count, let l := afterCalls count (ofText text)
      IsBoundary text.toList l.cursor.pos ∧ l.cursor.pos ≤ l.next.2.cursor.pos ∧
        ∀ t, l.next.1 = .ok (some t) → l.cursor.pos < l.next.2.cursor.pos) ∧
    ∃ ts : List Token, ts.length ≤ text.toList.length ∧
      steps ts.length (ofText text) = ts.map (fun t => .ok (some t)) ∧
      ((afterCalls ts.length (ofText text)).next.1 = .ok none ∧ tokenize text = .ok ts ∨
        ∃ e, (afterCalls ts.length (ofText text)).next.1 = .error e ∧ tokenize text = .error e) := by
  have hstart : (ofText text).cursor.Placed [] := Cursor.placed_ofText text
  refine ⟨fun ts h => tiled_of_cuts (cuts_of_tokenize h), fun count => ?_, ?_⟩
  · obtain ⟨⟨before, hplaced⟩, htext⟩ := placed_afterCalls count hstart
    obtain ⟨passed, hplaced', hne⟩ := ((afterCalls count (ofText text)).call hplaced).placed
    have hpos := hplaced.2
    have hpos' := hplaced'.2
    rw [Text.Utf8.size_append] at hpos'
    have hcovers := hplaced.1
    rw [htext] at hcovers
    refine ⟨⟨before, _, hcovers, hpos.symm⟩, by omega, fun t ht => ?_⟩
    have := size_pos (hne t ht)
    omega
  · exact upTo_eq_calls hstart (Nat.lt_succ_self _)

/-- Blanks and letters of more than one byte. -/
theorem tiled_of_tokenize_accent :
    let text := "\u2003'é' eq  ä/b "
    let tokens : List Token := [⟨.literal ⟨"é", .string⟩, ⟨3, 7⟩⟩, ⟨.name "eq", ⟨8, 10⟩⟩,
      ⟨.name "ä/b", ⟨12, 16⟩⟩]
    tokenize text = .ok tokens ∧ Tiled text.toList tokens :=
  have h : tokenize "\u2003'é' eq  ä/b " = .ok _ := rfl
  ⟨h, (tiled_of_tokenize _).1 _ h⟩

end Lexer

end QueryExpr
