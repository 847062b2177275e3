import QueryExpr.Token.Scan

/-!
# Dates without quotes

A date, alone or with a time of day and an offset, is a token also without quotes:
`2024-05-01T10:30:00.5+02:00`. Whatever has the form is taken for a date, with
decimal digits of any script; whether it is one is decided afterwards. The form is
that of the pattern `ISO_DATE` (specification, 4.2), group by group.

* `splitDate?`: the longest such form at the front of a text.
-/

namespace QueryExpr.Token.BareDate

open Text (isDecimalDigit)

/-- The characters at the front of a text that satisfy the conditions one by one, and the text
    behind them. -/
def follow : List (Char → Bool) → List Char → Option (List Char × List Char)
  | [], cs => some ([], cs)
  | _ :: _, [] => none
  | p :: ps, c :: cs => if p c then (follow ps cs).map (fun (r, t) => (c :: r, t)) else none

/-- A part that may be missing. -/
def optional (split : List Char → Option (List Char × List Char)) (cs : List Char) :
    List Char × List Char :=
  (split cs).getD ([], cs)

/-- Year, month and day. -/
def dayForm : List (Char → Bool) :=
  [isDecimalDigit, isDecimalDigit, isDecimalDigit, isDecimalDigit, (· == '-'), isDecimalDigit,
    isDecimalDigit, (· == '-'), isDecimalDigit, isDecimalDigit]

/-- Hours and minutes. -/
def minuteForm : List (Char → Bool) :=
  [(· == 'T'), isDecimalDigit, isDecimalDigit, (· == ':'), isDecimalDigit, isDecimalDigit]

/-- Seconds. -/
def secondForm : List (Char → Bool) := [(· == ':'), isDecimalDigit, isDecimalDigit]

/-- A numeric offset. -/
def offsetForm : List (Char → Bool) :=
  [fun c => c == '+' || c == '-', isDecimalDigit, isDecimalDigit, (· == ':'), isDecimalDigit,
    isDecimalDigit]

/-- A fraction of a second. -/
def splitFraction? (cs : List Char) : Option (List Char × List Char) :=
  match follow [(· == '.'), isDecimalDigit] cs with
  | some (read, rest) =>
    some (read ++ rest.takeWhile isDecimalDigit, rest.dropWhile isDecimalDigit)
  | none => none

/-- Seconds, with a fraction if there is one. -/
def splitSecond? (cs : List Char) : Option (List Char × List Char) :=
  (follow secondForm cs).map fun (read, rest) =>
    let fraction := optional splitFraction? rest
    (read ++ fraction.1, fraction.2)

/-- An offset. -/
def splitOffset? (cs : List Char) : Option (List Char × List Char) :=
  (follow [(· == 'Z')] cs).or (follow offsetForm cs)

/-- A time of day, with seconds and an offset if there are any. -/
def splitClock? (cs : List Char) : Option (List Char × List Char) :=
  (follow minuteForm cs).map fun (read, rest) =>
    let second := optional splitSecond? rest
    let offset := optional splitOffset? second.2
    (read ++ second.1 ++ offset.1, offset.2)

/-- A date, with a time of day if there is one (`ISO_DATE`). -/
def splitDate? (cs : List Char) : Option (List Char × List Char) :=
  (follow dayForm cs).map fun (read, rest) =>
    let clock := optional splitClock? rest
    (read ++ clock.1, clock.2)

/-! ## Splitting loses nothing -/

/-- Whatever `split` gives are two parts of the text, in order. -/
def Splits (split : List Char → Option (List Char × List Char)) : Prop :=
  ∀ cs r, split cs = some r → r.1 ++ r.2 = cs

theorem splits_follow (form : List (Char → Bool)) : Splits (follow form) := by
  intro cs
  induction form generalizing cs with
  | nil =>
    intro r h
    simp only [follow, Option.some.injEq] at h
    simp [← h]
  | cons p form ih =>
    intro r h
    cases cs with
    | nil => simp [follow] at h
    | cons c cs =>
      simp only [follow] at h
      split at h
      · obtain ⟨t, ht, rfl⟩ := Option.map_eq_some_iff.1 h
        simp [ih cs t ht]
      · simp at h

theorem optional_append {split : List Char → Option (List Char × List Char)} (h : Splits split)
    (cs : List Char) : (optional split cs).1 ++ (optional split cs).2 = cs := by
  simp only [optional]
  cases hs : split cs with
  | none => simp
  | some r => simpa using h cs r hs

theorem splits_fraction : Splits splitFraction? := by
  intro cs r h
  simp only [splitFraction?] at h
  split at h
  next read rest hf =>
    rw [← Option.some.inj h, List.append_assoc, List.takeWhile_append_dropWhile]
    exact splits_follow _ cs _ hf
  · simp at h

theorem splits_second : Splits splitSecond? := by
  intro cs r h
  obtain ⟨t, ht, rfl⟩ := Option.map_eq_some_iff.1 h
  rw [List.append_assoc, optional_append splits_fraction]
  exact splits_follow _ cs t ht

theorem splits_offset : Splits splitOffset? := by
  intro cs r h
  rcases Option.or_eq_some_iff.1 h with h | h
  · exact splits_follow _ cs r h
  · exact splits_follow _ cs r h.2

theorem splits_clock : Splits splitClock? := by
  intro cs r h
  obtain ⟨t, ht, rfl⟩ := Option.map_eq_some_iff.1 h
  rw [List.append_assoc, optional_append splits_offset, List.append_assoc,
    optional_append splits_second]
  exact splits_follow _ cs t ht

theorem splits_date : Splits splitDate? := by
  intro cs r h
  obtain ⟨t, ht, rfl⟩ := Option.map_eq_some_iff.1 h
  rw [List.append_assoc, optional_append splits_clock]
  exact splits_follow _ cs t ht

end QueryExpr.Token.BareDate
