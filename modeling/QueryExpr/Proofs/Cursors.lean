import QueryExpr.Token.Cursor

/-!
# The way of a cursor

A cursor starts in front of a text and moves on by any sequence of moves over whole characters.
Wherever it comes, it stands between two characters: what it has passed, put in front of what is
ahead, is the text. The offset that it keeps is one of bytes, and the number of characters that it
tells is counted from there.

* `Move`: the moves over whole characters. `Move.after` is the cursor behind a move, and
  `Move.passed` are the characters that the answer of the move accounts for.
* `eat_cases`, `expectAny_cases`: the two things that a move over certain characters can do.
* `Move.advances`: all that a move does is to pass these characters.
* `Placed.run`: any sequence of moves keeps the cursor between two characters.
* `Tracks`: what a cursor promises that has passed certain characters of a text.
* `tracks_run`: every cursor keeps the promise, for the characters that its moves account for.
-/

namespace QueryExpr

namespace Cursor

/-! ## Moves -/

/-- The moves over whole characters. What only looks at a cursor is none of them: it gives no
    cursor back. -/
inductive Move where
  | next
  | eat (d : Char)
  | eatWhile (p : Char → Bool)
  | skipBlank
  | expect (d : Char)
  | expectAny (choices : List Char)

/-- The cursor behind a move. -/
def Move.after : Move → Cursor → Cursor
  | next, c => c.next.2
  | eat d, c => (c.eat d).2
  | eatWhile p, c => (c.eatWhile p).2
  | skipBlank, c => c.skipBlank
  | expect d, c => (c.expect d).2
  | expectAny choices, c => (c.expectAny choices).2

/-- The characters that the answer of a move accounts for. A move over blanks has no answer; it
    accounts for the blanks ahead. -/
def Move.passed : Move → Cursor → List Char
  | next, c => c.next.1.toList
  | eat d, c => if (c.eat d).1 then [d] else []
  | eatWhile p, c => (c.eatWhile p).1.toList
  | skipBlank, c => c.ahead.takeWhile Text.isBlank
  | expect d, c => if (c.expect d).1.isOk then [d] else []
  | expectAny choices, c => (c.expectAny choices).1.toOption.toList

/-- The cursor behind a sequence of moves. -/
def run (c : Cursor) : List Move → Cursor
  | [] => c
  | m :: moves => (m.after c).run moves

/-- The characters that the answers of a sequence of moves account for. -/
def passes (c : Cursor) : List Move → List Char
  | [] => []
  | m :: moves => m.passed c ++ (m.after c).passes moves

/-! ## One move -/

theorem peek_of_ahead {c : Cursor} {d : Char} {ds : List Char} (h : c.ahead = d :: ds) :
    c.peek = some d := by
  rw [peek, h]
  rfl

theorem next_cases (c : Cursor) :
    (∃ d ds, c.ahead = d :: ds ∧ c.next = (some d, c.advance [d] ds)) ∨
    (c.peek = none ∧ c.next = (none, c)) := by
  unfold next peek
  split
  next h => exact .inr (by simp [h])
  next d ds h => exact .inl ⟨d, ds, h, rfl⟩

/-- What a move over a certain character does, which need not be next. -/
theorem eat_cases (c : Cursor) (d : Char) :
    (∃ ds, c.ahead = d :: ds ∧ c.eat d = (true, c.advance [d] ds)) ∨
    (c.peek ≠ some d ∧ c.eat d = (false, c)) := by
  unfold eat peek
  split
  next h => exact .inr ⟨by simp [h], rfl⟩
  next e ds h =>
    by_cases he : e = d
    · exact .inl ⟨ds, he ▸ h, by rw [if_pos he, he]⟩
    · exact .inr ⟨by simpa [h] using he, if_neg he⟩

/-- What a check for one of several characters does. If it fails, the cursor stays, and the fault is
    at its place. -/
theorem expectAny_cases (c : Cursor) (choices : List Char) :
    (∃ d ds, c.ahead = d :: ds ∧ d ∈ choices ∧ c.expectAny choices = (.ok d, c.advance [d] ds)) ∨
    ((∀ d ∈ choices, c.peek ≠ some d) ∧
      c.expectAny choices = (.error (c.errorAt (.unexpectedChar (c.peek.getD '\x00'))), c)) := by
  unfold expectAny peek
  split
  next h => exact .inr (by simp [h])
  next e ds h =>
    split
    next he => exact .inl ⟨e, ds, h, List.contains_iff_mem.1 he, rfl⟩
    next he =>
      refine .inr ⟨fun d hd hpeek => he ?_, by simp [h]⟩
      obtain rfl : e = d := by simpa [h] using hpeek
      exact List.contains_iff_mem.2 hd

theorem expect_cases (c : Cursor) (d : Char) :
    (∃ ds, c.ahead = d :: ds ∧ c.expect d = (.ok (), c.advance [d] ds)) ∨
    (c.peek ≠ some d ∧
      c.expect d = (.error (c.errorAt (.unexpectedChar (c.peek.getD '\x00'))), c)) := by
  rcases c.expectAny_cases [d] with ⟨e, ds, h, he, hexpect⟩ | ⟨hpeek, hexpect⟩
  · obtain rfl := List.mem_singleton.1 he
    exact .inl ⟨ds, h, by rw [expect, hexpect]; rfl⟩
  · exact .inr ⟨hpeek d (List.mem_singleton_self d), by rw [expect, hexpect]; rfl⟩

theorem next_fst (c : Cursor) : c.next.1 = c.peek := by
  rcases c.next_cases with ⟨d, ds, h, hnext⟩ | ⟨hpeek, hnext⟩
  · rw [hnext, peek_of_ahead h]
  · rw [hnext, hpeek]

theorem eat_eq_true_iff (c : Cursor) (d : Char) : (c.eat d).1 = true ↔ c.peek = some d := by
  rcases c.eat_cases d with ⟨ds, h, heat⟩ | ⟨hpeek, heat⟩
  · simp [heat, peek_of_ahead h]
  · simp [heat, hpeek]

theorem expectAny_eq_ok_iff (c : Cursor) (choices : List Char) (d : Char) :
    (c.expectAny choices).1 = .ok d ↔ c.peek = some d ∧ d ∈ choices := by
  rcases c.expectAny_cases choices with ⟨e, ds, h, he, hexpect⟩ | ⟨hpeek, hexpect⟩
  · simp only [hexpect, peek_of_ahead h, Except.ok.injEq, Option.some.injEq]
    exact ⟨fun hd => ⟨hd, hd ▸ he⟩, And.left⟩
  · rw [hexpect]
    exact ⟨nofun, fun hd => absurd hd.1 (hpeek d hd.2)⟩

theorem expect_eq_ok_iff (c : Cursor) (d : Char) : (c.expect d).1 = .ok () ↔ c.peek = some d := by
  rcases c.expect_cases d with ⟨ds, h, hexpect⟩ | ⟨hpeek, hexpect⟩
  · simp [hexpect, peek_of_ahead h]
  · simp [hexpect, hpeek]

theorem of_expectAny_error {c : Cursor} {choices : List Char} {error : LexError}
    (h : (c.expectAny choices).1 = .error error) :
    (c.expectAny choices).2 = c ∧ error.position = c.charPos := by
  rcases c.expectAny_cases choices with ⟨d, ds, -, -, hexpect⟩ | ⟨-, hexpect⟩ <;>
    rw [hexpect] at h ⊢ <;> cases h
  exact ⟨rfl, rfl⟩

theorem of_expect_error {c : Cursor} {d : Char} {error : LexError}
    (h : (c.expect d).1 = .error error) :
    (c.expect d).2 = c ∧ error.position = c.charPos := by
  rcases c.expect_cases d with ⟨ds, -, hexpect⟩ | ⟨-, hexpect⟩ <;>
    rw [hexpect] at h ⊢ <;> cases h
  exact ⟨rfl, rfl⟩

/-- A move passes the characters that it accounts for, and does nothing else. -/
theorem Move.advances (m : Move) (c : Cursor) :
    ∃ ahead, c.ahead = m.passed c ++ ahead ∧ m.after c = c.advance (m.passed c) ahead := by
  have stay : c.ahead = [] ++ c.ahead ∧ c = c.advance [] c.ahead := ⟨rfl, rfl⟩
  cases m with
  | next =>
    rcases c.next_cases with ⟨d, ds, h, hnext⟩ | ⟨-, hnext⟩ <;> simp only [passed, after, hnext]
    · exact ⟨ds, h, rfl⟩
    · exact ⟨_, stay⟩
  | eat d =>
    rcases c.eat_cases d with ⟨ds, h, heat⟩ | ⟨-, heat⟩ <;> simp only [passed, after, heat]
    · exact ⟨ds, h, rfl⟩
    · exact ⟨_, stay⟩
  | eatWhile p =>
    refine ⟨c.ahead.dropWhile p, ?_, ?_⟩
    · simp [passed, Cursor.eatWhile, List.takeWhile_append_dropWhile]
    · simp [passed, after, Cursor.eatWhile]
  | skipBlank =>
    exact ⟨c.ahead.dropWhile Text.isBlank, List.takeWhile_append_dropWhile.symm, rfl⟩
  | expect d =>
    rcases c.expect_cases d with ⟨ds, h, hexpect⟩ | ⟨-, hexpect⟩ <;>
      simp only [passed, after, hexpect]
    · exact ⟨ds, h, rfl⟩
    · exact ⟨_, stay⟩
  | expectAny choices =>
    rcases c.expectAny_cases choices with ⟨d, ds, h, -, hexpect⟩ | ⟨-, hexpect⟩ <;>
      simp only [passed, after, hexpect]
    · exact ⟨ds, h, rfl⟩
    · exact ⟨_, stay⟩

theorem Move.text_after (m : Move) (c : Cursor) : (m.after c).text = c.text := by
  obtain ⟨ahead, -, hafter⟩ := m.advances c
  rw [hafter]
  rfl

theorem Move.pos_le_after (m : Move) (c : Cursor) : c.pos ≤ (m.after c).pos := by
  obtain ⟨ahead, -, hafter⟩ := m.advances c
  rw [hafter]
  exact Nat.le_add_right _ _

theorem Placed.move {c : Cursor} {before : List Char} (h : c.Placed before) (m : Move) :
    (m.after c).Placed (before ++ m.passed c) := by
  obtain ⟨ahead, hahead, hafter⟩ := m.advances c
  rw [hafter]
  exact h.advance hahead

/-! ## Sequences of moves -/

theorem text_run (c : Cursor) (moves : List Move) : (c.run moves).text = c.text := by
  induction moves generalizing c with
  | nil => rfl
  | cons m moves ih => rw [run, ih, m.text_after]

theorem pos_le_run (c : Cursor) (moves : List Move) : c.pos ≤ (c.run moves).pos := by
  induction moves generalizing c with
  | nil => exact Nat.le_refl _
  | cons m moves ih => exact Nat.le_trans (m.pos_le_after c) (ih _)

theorem Placed.run {c : Cursor} {before : List Char} (h : c.Placed before) (moves : List Move) :
    (c.run moves).Placed (before ++ c.passes moves) := by
  induction moves generalizing c before with
  | nil => simpa [Cursor.run, passes] using h
  | cons m moves ih =>
    rw [Cursor.run, passes, ← List.append_assoc]
    exact ih (h.move m)

/-! ## What a cursor tells -/

theorem Placed.text_eq {c : Cursor} {before : List Char} (h : c.Placed before) :
    c.text = String.ofList before ++ c.rest := by
  rw [rest, ← String.ofList_append, ← h.1, String.ofList_toList]

/-- The offset of the cursor is the boundary of a character. -/
theorem Placed.isValid {c : Cursor} {before : List Char} (h : c.Placed before) :
    String.Pos.Raw.IsValid c.text ⟨c.pos⟩ := by
  refine String.Pos.Raw.isValid_iff_exists_append.2 ⟨_, _, h.text_eq, ?_⟩
  rw [h.2, Text.Utf8.size_eq_utf8ByteSize]
  rfl

/-- What was passed behind the offset of an earlier place. -/
theorem Placed.since {c : Cursor} {before passed : List Char} (h : c.Placed (before ++ passed)) :
    c.since (Text.Utf8.size before) = String.ofList passed := by
  rw [Cursor.since, Span.slice, h.1, h.2, Text.Utf8.slice_append]

theorem Placed.since_start {c : Cursor} {passed : List Char} (h : c.Placed passed) :
    c.since 0 = String.ofList passed := by
  have hstart : c.Placed ([] ++ passed) := h
  exact hstart.since

/-- `given` is the longest front of `cs` whose characters all satisfy `p`. -/
structure LongestFront (p : Char → Bool) (cs given : List Char) : Prop where
  front : given <+: cs
  all : ∀ d ∈ given, p d = true
  longest : ∀ other, other <+: cs → (∀ d ∈ other, p d = true) → other <+: given

theorem longestFront_takeWhile (p : Char → Bool) (cs : List Char) :
    LongestFront p cs (cs.takeWhile p) where
  front := List.takeWhile_prefix p
  all := List.all_eq_true.1 List.all_takeWhile
  longest := by
    rintro other ⟨behind, rfl⟩ hother
    rw [List.takeWhile_append_of_pos hother]
    exact List.prefix_append _ _

/-- A cursor in `text` that has passed the characters `passed`, and what its next move gives. -/
structure Tracks (c : Cursor) (text : String) (passed : List Char) : Prop where
  text_eq : c.text = text
  boundary : String.Pos.Raw.IsValid text ⟨c.pos⟩
  since_start : c.since 0 = String.ofList passed
  /-- What is ahead is what the text has from the offset on. -/
  drop_pos : Text.Utf8.drop? text.toList c.pos = some c.rest.toList
  text_split : text = c.since 0 ++ c.rest
  charPos_eq : c.charPos = passed.length
  pos_le : ∀ moves, c.pos ≤ (c.run moves).pos
  peek_eq : c.peek = c.rest.toList.head?
  next_fst : c.next.1 = c.peek
  eat_iff : ∀ d, (c.eat d).1 = true ↔ c.peek = some d
  eatWhile_longest : ∀ p, LongestFront p c.rest.toList (c.eatWhile p).1.toList
  eatWhile_since : ∀ p, (c.eatWhile p).1 = (c.eatWhile p).2.since c.pos
  expect_ok : ∀ d, (c.expect d).1 = .ok () ↔ c.peek = some d
  expect_error : ∀ d error, (c.expect d).1 = .error error →
    (c.expect d).2 = c ∧ error.position = c.charPos
  expectAny_ok : ∀ choices d, (c.expectAny choices).1 = .ok d ↔ c.peek = some d ∧ d ∈ choices
  expectAny_error : ∀ choices error, (c.expectAny choices).1 = .error error →
    (c.expectAny choices).2 = c ∧ error.position = c.charPos

theorem Placed.tracks {c : Cursor} {passed : List Char} (h : c.Placed passed) :
    c.Tracks c.text passed where
  text_eq := rfl
  boundary := h.isValid
  since_start := h.since_start
  drop_pos := by
    rw [rest, String.toList_ofList, h.1, h.2, Text.Utf8.drop?_size_append]
  text_split := h.since_start.symm ▸ h.text_eq
  charPos_eq := h.charPos
  pos_le := c.pos_le_run
  peek_eq := by rw [rest, String.toList_ofList, peek]
  next_fst := c.next_fst
  eat_iff := c.eat_eq_true_iff
  eatWhile_longest p := by
    rw [rest, eatWhile, String.toList_ofList, String.toList_ofList]
    exact longestFront_takeWhile p c.ahead
  eatWhile_since p := by
    have hsince := (h.move (.eatWhile p)).since
    rw [← h.2] at hsince
    exact (hsince.trans (String.ofList_toList ..)).symm
  expect_ok := c.expect_eq_ok_iff
  expect_error _ _ := of_expect_error
  expectAny_ok := c.expectAny_eq_ok_iff
  expectAny_error _ _ := of_expectAny_error

/-- A cursor has passed just the characters that its moves account for. -/
theorem tracks_run (text : String) (moves : List Move) :
    ((ofText text).run moves).Tracks text ((ofText text).passes moves) := by
  have htracks := ((placed_ofText text).run moves).tracks
  rw [text_run] at htracks
  exact htracks

/-- Five characters in eight bytes are passed; the check for a parenthesis passes none. -/
theorem tracks_run_umlauts :
    let moves := [Move.eatWhile (· ≠ ' '), .expect '(', .skipBlank, .expectAny ['<', '=']]
    ((ofText "äöü = 1").run moves).Tracks "äöü = 1" ['ä', 'ö', 'ü', ' ', '='] ∧
      ((ofText "äöü = 1").run moves).pos = 8 :=
  ⟨tracks_run "äöü = 1" _, by decide⟩

end Cursor

end QueryExpr
