import QueryExpr.Proofs.Shortening

/-!
# Where faults are

A fault has a position, counted in characters. It is that of the character that is not expected, or
that of the first character of the literal that is not closed or has no value. What stands in front
of that literal is complete: alone, it has the tokens that were found there.

* `Token.Points`: a fault is at its character, or at the start of its token.
* `Token.scan_points`: every fault of a scan is.
* `Lexer.Breaks`: a text consists of blanks, tokens, and a character at which the scan fails.
* `Lexer.breaks_of_upTo`, `Lexer.Breaks.exists_failing`: so does a text without tokens, and what is
  in front of that character consists of the tokens.
* `LexError.Pointed`, `Lexer.pointed_of_tokenize`: so the position of a fault is the right one.
-/

namespace QueryExpr

open Text (isBlank)

/-! ## One token -/

namespace Token

/-- The fault is at its character of the text, or at the start of the text. -/
inductive Points (cs : List Char) : Flaw → Prop where
  | unexpected {c i} (h : cs[i]? = some c) : Points cs ⟨.unexpectedChar c, i⟩
  | unterminated {kind} : Points cs ⟨.unterminated kind, 0⟩
  | malformed {raw reason} : Points cs ⟨.malformed raw reason, 0⟩

/-- Every fault of the scan is at its character of the text, or at the start of the text. -/
def Scan.PointsInto (s : Scan) (cs : List Char) : Prop :=
  ∀ flaw, s.outcome = .error flaw → Points cs flaw

theorem Scan.found_pointsInto {read rest cs : List Char} {kind : Kind} :
    (found read rest kind).PointsInto cs := by
  rintro flaw ⟨⟩

theorem Scan.failed_pointsInto {read rest cs : List Char} {fault : LexFault} {offset : Nat}
    (h : Points cs ⟨fault, offset⟩) : (failed read rest fault offset).PointsInto cs := by
  rintro _ ⟨⟩
  exact h

theorem Scan.literal_pointsInto {read rest cs : List Char} {raw : Literal.Raw} :
    (literal read rest raw).PointsInto cs := by
  unfold literal
  split
  · exact found_pointsInto
  · exact failed_pointsInto .malformed

theorem Scan.bounded_pointsInto {read rest cs : List Char} {raw : Literal.Raw}
    (h : read ++ rest = cs) : (bounded read rest raw).PointsInto cs := by
  rw [bounded.eq_def]
  split
  · split
    · exact failed_pointsInto (.unexpected (by simp [← h]))
    · exact literal_pointsInto
  · exact literal_pointsInto

theorem scanPlain_pointsInto (sign : List Char) (n : Numeral) :
    (scanPlain sign n).PointsInto (sign ++ n.digits ++ n.rest) := by
  unfold scanPlain
  dsimp only
  split
  · exact Scan.bounded_pointsInto rfl
  · split
    · exact Scan.bounded_pointsInto rfl
    · exact Scan.failed_pointsInto .malformed

theorem scanNumber_pointsInto (sign cs : List Char) :
    (scanNumber sign cs).PointsInto (sign ++ cs) := by
  have hplain := scanPlain_pointsInto sign (Numeral.ofChars cs)
  rw [List.append_assoc, Numeral.digits_append_rest] at hplain
  unfold scanNumber
  dsimp only
  split
  next c rest hrest =>
    split
    · refine Scan.bounded_pointsInto ?_
      have hcs := Numeral.digits_append_rest cs
      rw [hrest] at hcs
      rw [List.append_assoc, List.append_assoc, List.singleton_append, hcs]
    · exact hplain
  · exact hplain

theorem scanQuoted_pointsInto {lead : List Char} {kind : Literal.Kind}
    {finish : List Char → List Char → List Char → Scan} (cs : List Char)
    (hfinish : ∀ read rest body, (finish read rest body).PointsInto (lead ++ cs)) :
    (scanQuoted lead kind finish cs).PointsInto (lead ++ cs) := by
  unfold scanQuoted
  dsimp only
  split
  · exact hfinish _ _ _
  next c hstray =>
    -- the character is the last one of those that are passed, so its place is one before their end
    obtain ⟨front, hread⟩ := List.getLast?_eq_some_iff.1 (getLast?_quoted (.inr hstray))
    have hcs := Text.Quoted.scan_read_append_rest cs
    rw [hread] at hcs
    refine Scan.failed_pointsInto (.unexpected ?_)
    rw [hread, ← hcs]
    simp
  · exact Scan.failed_pointsInto .unterminated

theorem typedLiteral_pointsInto (w : TypeWord) (read rest body cs : List Char) :
    (typedLiteral w read rest body).PointsInto cs := by
  unfold typedLiteral
  split
  · exact Scan.literal_pointsInto
  · exact Scan.failed_pointsInto .malformed

theorem scanName_pointsInto (cs : List Char) : (scanName cs).PointsInto cs := by
  have hsplit := splitName_append cs
  unfold scanName
  dsimp only
  split
  next quoted hquoted =>
    split
    next w _ =>
      have hcs : (splitName cs).1 ++ ['\''] ++ quoted = cs := by
        rw [List.append_assoc, List.singleton_append, ← hquoted, hsplit]
      have htyped : (scanTyped w (splitName cs).1 quoted).PointsInto
          ((splitName cs).1 ++ ['\''] ++ quoted) :=
        scanQuoted_pointsInto quoted fun _ _ _ => typedLiteral_pointsInto _ _ _ _ _
      rwa [hcs] at htyped
    · exact Scan.found_pointsInto
  · exact Scan.found_pointsInto

/-- A fault of the scan is at its character, or at the start of the token. -/
theorem scan_points (afterOperand : Bool) (c : Char) (cs : List Char) :
    (scan afterOperand c cs).PointsInto (c :: cs) := by
  unfold scan
  split
  next hc =>
    subst hc
    have hstring : (scanString cs).PointsInto (['\''] ++ cs) :=
      scanQuoted_pointsInto cs fun _ _ _ => Scan.found_pointsInto
    exact hstring
  split
  next hc =>
    subst hc
    unfold scanMinus
    split
    · exact scanNumber_pointsInto ['-'] cs
    · split <;> exact Scan.found_pointsInto
  split
  next hc =>
    rw [Bool.and_eq_true, decide_eq_true_iff] at hc
    obtain ⟨rfl, -⟩ := hc
    exact scanNumber_pointsInto ['+'] cs
  split
  · unfold scanUnsigned
    split
    next hdate => exact Scan.bounded_pointsInto (BareDate.splits_date _ _ hdate)
    · exact scanNumber_pointsInto [] _
  split
  · exact scanName_pointsInto _
  split
  · exact Scan.found_pointsInto
  · exact Scan.failed_pointsInto (.unexpected rfl)

end Token

/-! ## All tokens -/

namespace Lexer

open Token (scan Apart)
open Text.Utf8 (size)

/-- The text consists of blanks and of the tokens up to a character at which the scan fails, where
    `before` stands in front of it. -/
inductive Breaks : Bool → List Char → List Char → List Token → LexError → Prop where
  | fault {afterOperand before gap c cs flaw} (hgap : Blank gap) (hc : isBlank c = false)
      (hscan : (scan afterOperand c cs).outcome = .error flaw) :
      Breaks afterOperand before (gap ++ c :: cs) []
        ⟨flaw.fault, (before ++ gap).length + flaw.offset⟩
  | token {afterOperand before gap c cs read rest kind ts e} (hgap : Blank gap)
      (hc : isBlank c = false) (hscan : scan afterOperand c cs = .found read rest kind)
      (more : Breaks kind.endsOperand (before ++ gap ++ read) rest ts e) :
      Breaks afterOperand before (gap ++ c :: cs)
        (⟨kind, ⟨size (before ++ gap), size (before ++ gap ++ read)⟩⟩ :: ts) e

/-- The calls for the tokens of a text give the tokens in front of a fault, and then the fault. -/
theorem breaks_of_upTo {limit : Nat} {l : Lexer} {before : List Char} {e : LexError}
    (h : l.cursor.Placed before) (hl : l.cursor.ahead.length < limit)
    (he : upTo limit l = .error e) :
    ∃ ts : List Token, Breaks l.afterOperand before l.cursor.ahead ts e ∧
      steps (ts.length + 1) l = ts.map (fun t => .ok (some t)) ++ [.error e] := by
  induction limit generalizing l before with
  | zero => omega
  | succ limit ih =>
    have hcall := l.call h
    rcases hnext : l.next with ⟨result, l'⟩
    simp only [upTo, hnext] at he hcall
    cases hcall with
    | done => cases he
    | fault hgap hc ahead hscan =>
      cases he
      refine ⟨[], ?_, by simp [steps, hnext]⟩
      rw [ahead]
      exact .fault hgap hc hscan
    | @token gap c cs kind _ hgap hc ahead hscan placed rest hafter =>
      have hfound := Token.Scan.eq_found hscan
      obtain ⟨happend, hne⟩ := append_eq_of_found hfound
      have hlength := congrArg List.length happend
      have hpos := List.length_pos_iff.2 hne
      rw [ahead] at hl
      simp only [List.length_append, List.length_cons] at hl hlength
      change (upTo limit l').map _ = _ at he
      cases htail : upTo limit l' with
      | ok ts =>
        rw [htail] at he
        cases he
      | error e' =>
        rw [htail] at he
        cases he
        obtain ⟨ts, hmore, hsteps⟩ := ih placed (by rw [rest]; omega) htail
        rw [hafter, rest] at hmore
        rw [ahead]
        refine ⟨_, .token hgap hc hfound hmore, ?_⟩
        simp only [List.length_cons, steps, hnext, List.map_cons, List.cons_append]
        exact congrArg _ hsteps

/-- The character at which the scan fails, and the text in front of it, which consists of the tokens
    that were found and does not end within a name. -/
theorem Breaks.exists_failing {afterOperand : Bool} {before cs : List Char} {ts : List Token}
    {e : LexError} (h : Breaks afterOperand before cs ts e) :
    ∃ front c behind flaw, cs = front ++ c :: behind ∧ isBlank c = false ∧
      Token.Points (c :: behind) flaw ∧ e = ⟨flaw.fault, (before ++ front).length + flaw.offset⟩ ∧
      Cuts afterOperand before front ts ∧ Apart front (c :: behind) := by
  induction h with
  | @fault afterOperand before gap c cs flaw hgap hc hscan =>
    refine ⟨gap, c, cs, flaw, rfl, hc, Token.scan_points _ _ _ _ hscan, rfl, .done hgap, ?_⟩
    refine .of_last fun d hd => ?_
    exact Text.of_isBlank (Text.isNameChar · = false) (hgap d (List.mem_of_mem_getLast? hd))
      (by decide +kernel)
  | @token afterOperand before gap c cs read rest kind ts e hgap hc hscan _ ih =>
    obtain ⟨front, d, behind, flaw, rfl, hd, hpoints, rfl, hcuts, hapart⟩ := ih
    obtain ⟨body, rfl, hcut⟩ := Token.scan_shortens afterOperand hscan
    obtain ⟨happend, -⟩ := append_eq_of_found hscan
    refine ⟨gap ++ c :: (body ++ front), d, behind, flaw, ?_, hd, hpoints, ?_, ?_, ?_⟩
    · rw [← happend]
      simp
    · simp
    · exact .token hgap hc (hcut front _ rfl hapart) hcuts
    · cases front with
      | nil =>
        rw [List.append_nil]
        exact Apart.append (Token.scan_apart _ _ _ _ _ _ hscan) gap (by simp)
      | cons b front =>
        have hsplit : gap ++ c :: (body ++ b :: front) = (gap ++ c :: body) ++ b :: front := by simp
        rw [hsplit]
        exact Apart.append hapart _ (by simp)

end Lexer

/-- A fault is at the character that is not expected, or where the literal begins that is not closed
    or has no value. What is in front of the literal has the tokens that were found before. -/
structure LexError.Pointed (text : String) (e : LexError) : Prop where
  unexpected : ∀ c, e.fault = .unexpectedChar c → text.toList[e.position]? = some c
  begins : (∃ kind, e.fault = .unterminated kind) ∨
      (∃ raw reason, e.fault = .malformed raw reason) →
    (∃ c, text.toList[e.position]? = some c ∧ isBlank c = false) ∧
      ∃ ts : List Token,
        Lexer.steps (ts.length + 1) (.ofText text) = ts.map (fun t => .ok (some t)) ++ [.error e] ∧
        Lexer.tokenize (String.ofList (text.toList.take e.position)) = .ok ts
  lexical : ∀ limit, e.fault ≠ .tooLong limit

/-- Every fault in the characters of a text has the right position. -/
theorem Lexer.pointed_of_tokenize {text : String} {e : LexError} (h : tokenize text = .error e) :
    e.Pointed text := by
  obtain ⟨ts, hbreaks, hsteps⟩ :=
    breaks_of_upTo (Cursor.placed_ofText text) (Nat.lt_succ_self _) h
  obtain ⟨front, c, behind, flaw, hahead, hc, hpoints, rfl, hcuts, -⟩ := hbreaks.exists_failing
  have htext : text.toList = front ++ c :: behind := hahead
  -- what is in front of the failing character consists of the tokens
  have hfront : Cuts false [] (String.ofList front).toList ts := by
    rw [String.toList_ofList]
    exact hcuts
  have hbegins : (∃ c', text.toList[front.length]? = some c' ∧ isBlank c' = false) ∧
      tokenize (String.ofList (text.toList.take front.length)) = .ok ts := by
    rw [htext, List.take_left]
    exact ⟨⟨c, by simp, hc⟩, tokenize_of_cuts hfront⟩
  cases hpoints with
  | @unexpected d i hd =>
    refine ⟨?_, by rintro (⟨kind, ⟨⟩⟩ | ⟨raw, reason, ⟨⟩⟩), nofun⟩
    rintro _ ⟨⟩
    show text.toList[front.length + i]? = some d
    rw [htext, List.getElem?_append_right (by omega), Nat.add_sub_cancel_left]
    exact hd
  | unterminated => exact ⟨nofun, fun _ => ⟨hbegins.1, ts, hsteps, hbegins.2⟩, nofun⟩
  | malformed => exact ⟨nofun, fun _ => ⟨hbegins.1, ts, hsteps, hbegins.2⟩, nofun⟩

/-- The last quote is not closed. In front of it, some letters have more than one byte. -/
theorem Lexer.pointed_of_tokenize_unclosed :
    let text := "é eq 'ä' or -5 ne 'ü"
    let e : LexError := ⟨.unterminated .string, 18⟩
    tokenize text = .error e ∧ e.Pointed text :=
  have h : tokenize "é eq 'ä' or -5 ne 'ü" = .error _ := rfl
  ⟨h, pointed_of_tokenize h⟩

end QueryExpr
