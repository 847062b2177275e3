import QueryExpr.Proofs.Components

/-!
# Reading durations back

The seconds of a duration are written without trailing zeros, so a duration is read back with as
few decimal places as its seconds need.

* `Duration.settled`: the duration that is read back.
* `Duration.toWritten`: the components that are written.
* `Duration.read_chars`: reading what is written.
* `Duration.read_grammar`: which texts are read, as which durations, and that all durations are
  among them.
-/

namespace QueryExpr.Temporal.Duration

open Number (Decimal Digits.toChars)
open Text (isDigit)

/-- The same duration without trailing zeros in its seconds. -/
def settled (d : Duration) : Duration := { d with seconds := d.seconds.strip }

theorem settled_same (d : Duration) : d.settled.same d = true := by
  simp [same, settled, Decimal.strip_same]

/-! ## Components -/

/-- The digits of a component, if it is written. -/
def written (n : UInt32) : Option (List Char) :=
  if n = 0 then none else some (Digits.toChars n.toNat)

theorem component_eq_part (n : UInt32) (unit : Char) :
    component n unit = part (written n) unit := by
  unfold component written
  split <;> rfl

theorem digitRun_written (n : UInt32) : ∀ ds ∈ written n, DigitRun isDigit ds := by
  intro ds hds
  unfold written at hds
  split at hds <;> cases hds
  exact ⟨Number.Digits.toChars_ne_nil _, fun _ => Number.Digits.isDigit_of_mem_toChars⟩

theorem number_written (n : UInt32) : Written.number (written n) = n.toNat := by
  unfold written
  split
  next h =>
    rw [h]
    rfl
  next => exact Number.Digits.ofChars_toChars n.toNat

theorem written_isSome (n : UInt32) : (written n).isSome = !decide (n = 0) := by
  unfold written
  split
  next h => simp [h]
  next h => simp [h]

/-! ## Seconds -/

/-- The seconds as they are written, if they are. -/
def writtenSeconds (seconds : Decimal) : Option (List Char) :=
  if seconds.isZero then none else some seconds.strip.chars

theorem secondsPart_eq_part (seconds : Decimal) :
    secondsPart seconds = part (writtenSeconds seconds) 'S' := by
  unfold secondsPart writtenSeconds
  split <;> rfl

theorem chars_of_nonneg {d : Decimal} (h : 0 ≤ d.units) :
    d.chars = Decimal.magnitudeChars d.units.natAbs d.scale := by
  rw [Decimal.chars, if_neg (by omega)]

theorem fractional_writtenSeconds {seconds : Decimal} (h : 0 ≤ seconds.units) :
    ∀ ds ∈ writtenSeconds seconds, Fractional isDigit ds := by
  intro ds hds
  unfold writtenSeconds at hds
  split at hds <;> cases hds
  rw [chars_of_nonneg (Decimal.strip_units_nonneg h)]
  rcases Decimal.magnitudeChars_cases seconds.strip.units.natAbs seconds.strip.scale with
    ⟨hne, hd⟩ | ⟨whole, places, hchars, hwne, hpne, hw, hp⟩
  · exact .whole ⟨hne, hd⟩
  · rw [hchars]
    exact .point ⟨hwne, hw⟩ ⟨hpne, hp⟩

theorem secondCount_writtenSeconds (seconds : Decimal) :
    Written.secondCount (writtenSeconds seconds) = some seconds.strip := by
  unfold writtenSeconds
  split
  next h =>
    rw [Decimal.strip_of_isZero h]
    rfl
  next => exact Decimal.readPlain_chars seconds.strip

theorem writtenSeconds_isSome (seconds : Decimal) :
    (writtenSeconds seconds).isSome = !seconds.isZero := by
  unfold writtenSeconds
  split
  next h => simp [h]
  next h => simp [h]

/-! ## Durations -/

/-- The components of a duration as they are written. -/
def toWritten (d : Duration) : Written :=
  ⟨d.negative, written d.years, written d.months, none, written d.days, !d.clockPart.isEmpty,
    written d.hours, written d.minutes, writtenSeconds d.seconds⟩

theorem component_eq_nil {n : UInt32} {unit : Char} : component n unit = [] ↔ n = 0 := by
  unfold component
  split
  next h => simp [h]
  next h => simp [h]

theorem secondsPart_eq_nil {seconds : Decimal} :
    secondsPart seconds = [] ↔ seconds.isZero = true := by
  unfold secondsPart
  split
  next h => simp [h]
  next h => simp [h]

theorem clockPart_eq_nil {d : Duration} :
    d.clockPart = [] ↔ d.hours = 0 ∧ d.minutes = 0 ∧ d.seconds.isZero = true := by
  rw [clockPart, List.append_eq_nil_iff, List.append_eq_nil_iff, component_eq_nil,
    component_eq_nil, secondsPart_eq_nil, and_assoc]

/-- There is a `T` if there is a component behind it. -/
theorem hasClock_toWritten (d : Duration) : d.toWritten.hasClock = d.toWritten.timed := by
  rw [Bool.eq_iff_iff]
  simp only [toWritten, Written.hasClock, written_isSome, writtenSeconds_isSome,
    Bool.not_eq_true', List.isEmpty_eq_false_iff, ne_eq, clockPart_eq_nil]
  cases d.seconds.isZero <;> grind

/-- The text of a duration that is not zero is that of its components. -/
theorem chars_toWritten {d : Duration} (hzero : d.isZero = false) :
    d.toWritten.chars = d.chars := by
  have hcalendar : d.toWritten.calendarChars = d.calendarPart := by
    simp [Written.calendarChars, calendarPart, component_eq_part, toWritten, part]
  have hclock : d.toWritten.clockChars = d.clockPart := by
    simp [Written.clockChars, clockPart, component_eq_part, secondsPart_eq_part, toWritten]
  have hbody : d.bodyChars =
      d.calendarPart ++ (if d.clockPart.isEmpty then [] else 'T' :: d.clockPart) := by
    rw [bodyChars, hzero, if_neg (by decide)]
  rw [Written.chars, chars, hbody, hcalendar, hclock, toWritten]
  cases d.clockPart.isEmpty <;> rfl

theorem grammatical_toWritten {d : Duration} (hzero : d.isZero = false)
    (hs : 0 ≤ d.seconds.units) : d.toWritten.Grammatical where
  counts := by
    have hweeks : ∀ ds ∈ (none : Option (List Char)), DigitRun isDigit ds := by rintro _ ⟨⟩
    exact Written.forall_mem_counts.2 ⟨digitRun_written _, digitRun_written _, hweeks,
      digitRun_written _, digitRun_written _, digitRun_written _⟩
  seconds := fractional_writtenSeconds hs
  timed h := d.hasClock_toWritten ▸ h
  clock h := d.hasClock_toWritten ▸ h
  present := by
    rw [isZero] at hzero
    simp only [toWritten, Written.hasCalendar, Written.hasClock, written_isSome,
      writtenSeconds_isSome]
    grind

theorem gives_toWritten (d : Duration) : d.toWritten.Gives d.settled where
  negative := rfl
  years := (number_written d.years).symm
  months := (number_written d.months).symm
  days := by
    show d.days.toNat = 7 * 0 + Written.number (written d.days)
    rw [number_written]
    omega
  hours := (number_written d.hours).symm
  minutes := (number_written d.minutes).symm
  seconds := secondCount_writtenSeconds d.seconds

/-- A duration whose seconds are not negative is read back. -/
theorem read_chars {d : Duration} (hs : 0 ≤ d.seconds.units) : read d.chars = some d.settled := by
  cases hzero : d.isZero with
  | true =>
    have hchars : d.chars = (if d.negative then ['-'] else []) ++ ['P', 'T', '0', 'S'] := by
      rw [chars, bodyChars, hzero, if_pos rfl]
    simp only [isZero, Bool.and_eq_true, beq_iff_eq] at hzero
    obtain ⟨⟨⟨⟨⟨hyears, hmonths⟩, hdays⟩, hhours⟩, hminutes⟩, hseconds⟩ := hzero
    have hsettled : d.settled = ⟨d.negative, 0, 0, 0, 0, 0, Decimal.zero⟩ := by
      rw [settled, hyears, hmonths, hdays, hhours, hminutes, Decimal.strip_of_isZero hseconds]
    rw [hchars, hsettled]
    cases d.negative <;> rfl
  | false =>
    rw [read_eq_some_iff]
    exact ⟨d.toWritten, grammatical_toWritten hzero hs, chars_toWritten hzero, d.gives_toWritten⟩

/-- A text is read as a duration exactly if it consists of components in range, which are then those
    of the duration. Every duration without negative seconds is read of its own text, zero with its
    sign too. -/
theorem read_grammar :
    (∀ cs, (read cs).isSome = true ↔
      ∃ w : Written, w.Grammatical ∧ w.chars = cs ∧ w.InRange) ∧
    (∀ cs d, read cs = some d ↔ ∃ w : Written, w.Grammatical ∧ w.chars = cs ∧ w.Gives d) ∧
    ∀ d : Duration, 0 ≤ d.seconds.units →
      ∃ d', read d.text.toList = some d' ∧ d'.same d = true := by
  refine ⟨fun _ => read_isSome_iff, fun _ _ => read_eq_some_iff, fun d hs => ⟨d.settled, ?_, ?_⟩⟩
  · rw [text, String.toList_ofList]
    exact read_chars hs
  · exact d.settled_same

/-- Nine days and three and a half seconds, with a place more than they need. -/
theorem read_grammar_nine_days :
    let d : Duration := ⟨true, 0, 0, 9, 0, 0, ⟨350, 2, by decide, by decide⟩⟩
    0 ≤ d.seconds.units ∧ ∃ d', read d.text.toList = some d' ∧ d'.same d = true :=
  ⟨by decide, read_grammar.2.2 _ (by decide)⟩

/-! ## Characters -/

/-- A character of a duration. -/
def isNotationChar (c : Char) : Bool :=
  isDigit c || ['-', '.', 'P', 'T', 'Y', 'M', 'D', 'H', 'S'].contains c

theorem all_isNotationChar_component {n : UInt32} {unit : Char}
    (hunit : isNotationChar unit = true) : (component n unit).all isNotationChar = true := by
  unfold component
  split
  · rfl
  · have hdigits : (Number.Digits.toChars n.toNat).all isNotationChar = true := by
      rw [List.all_eq_true]
      intro c hc
      simp [isNotationChar, Number.Digits.isDigit_of_mem_toChars hc]
    simp [hdigits, hunit]

theorem all_isNotationChar_decimal (d : Decimal) : d.chars.all isNotationChar = true := by
  have hmagnitude : (Decimal.magnitudeChars d.units.natAbs d.scale).all isNotationChar = true := by
    rw [List.all_eq_true]
    intro c hc
    rcases Decimal.of_mem_magnitudeChars hc with hc | rfl
    · simp [isNotationChar, hc]
    · decide
  unfold Decimal.chars
  split
  · rw [List.all_cons, hmagnitude]
    rfl
  · exact hmagnitude

theorem all_isNotationChar_secondsPart (seconds : Decimal) :
    (secondsPart seconds).all isNotationChar = true := by
  unfold secondsPart
  split
  · rfl
  · rw [List.all_append, all_isNotationChar_decimal]
    rfl

theorem all_isNotationChar_chars (d : Duration) : d.chars.all isNotationChar = true := by
  have hclock : d.clockPart.all isNotationChar = true := by
    simp [clockPart, all_isNotationChar_component (show isNotationChar 'H' = true by decide),
      all_isNotationChar_component (show isNotationChar 'M' = true by decide),
      all_isNotationChar_secondsPart, -List.all_eq_true]
  have hcalendar : d.calendarPart.all isNotationChar = true := by
    simp [calendarPart, all_isNotationChar_component (show isNotationChar 'Y' = true by decide),
      all_isNotationChar_component (show isNotationChar 'M' = true by decide),
      all_isNotationChar_component (show isNotationChar 'D' = true by decide), -List.all_eq_true]
  have hbody : d.bodyChars.all isNotationChar = true := by
    unfold bodyChars
    split
    · decide
    · rw [List.all_append, hcalendar]
      split
      · rfl
      · rw [List.all_cons, hclock]
        rfl
  rw [chars, List.all_append, List.all_cons, hbody]
  cases d.negative <;> rfl

end QueryExpr.Temporal.Duration
