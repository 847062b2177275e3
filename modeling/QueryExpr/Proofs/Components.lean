import QueryExpr.Proofs.Numbers
import QueryExpr.Temporal.Duration

/-!
# The components of a duration

A duration is read component by component, each of them digits and a unit. The components that are
read are those of which the text consists. Decimal digits of any script are taken for components,
but only ASCII digits have a value.

* `Written.chars`: the text of written components.
* `Written.ofChars?_eq_some_iff`: the components of a text are those that it is the text of.
* `Written.Grammatical`, `Written.InRange`: which texts are durations.
* `Written.Gives`: the duration that written components give.
* `read_eq_some_iff`, `read_isSome_iff`: a text is read exactly if it is one of these texts.
-/

namespace QueryExpr.Temporal.Duration

open Number (Decimal)
open Number.Integer (readCount)
open Text (isDigit isDecimalDigit)

/-! ## Digits -/

/-- A component with its unit, nothing if it is missing. -/
def part (digits : Option (List Char)) (unit : Char) : List Char :=
  match digits with
  | none => []
  | some ds => ds ++ [unit]

/-- Digits of the class `p`, at least one of them. -/
def DigitRun (p : Char → Bool) (ds : List Char) : Prop := ds ≠ [] ∧ ∀ c ∈ ds, p c = true

/-- Digits, with a point and more digits behind it or without. -/
inductive Fractional (p : Char → Bool) : List Char → Prop where
  | whole {ds} (digits : DigitRun p ds) : Fractional p ds
  | point {ds places} (digits : DigitRun p ds) (behind : DigitRun p places) :
      Fractional p (ds ++ '.' :: places)

section

variable {p q : Char → Bool} {ds : List Char}

theorem DigitRun.mono (h : DigitRun p ds) (hq : ∀ c ∈ ds, p c = true → q c = true) :
    DigitRun q ds :=
  ⟨h.1, fun c hc => hq c hc (h.2 c hc)⟩

theorem Fractional.mono (h : Fractional p ds) (hq : ∀ c ∈ ds, p c = true → q c = true) :
    Fractional q ds := by
  cases h with
  | whole digits => exact .whole (digits.mono hq)
  | point digits behind =>
    refine .point (digits.mono fun c hc => hq c ?_) (behind.mono fun c hc => hq c ?_)
    · exact List.mem_append_left _ hc
    · exact List.mem_append_right _ (List.mem_cons_of_mem _ hc)

theorem digitRun_takeWhile {cs : List Char} (h : (cs.takeWhile p).isEmpty = false) :
    DigitRun p (cs.takeWhile p) :=
  ⟨List.isEmpty_eq_false_iff.1 h, fun c hc => List.all_eq_true.1 List.all_takeWhile c hc⟩

end

/-! ## Components -/

section

variable {digits rest : List Char} {unit c : Char} (hd : DigitRun isDecimalDigit digits)
  (hc : isDecimalDigit c = false)

include hd hc

theorem takeWhile_digits : (digits ++ c :: rest).takeWhile isDecimalDigit = digits := by
  rw [List.takeWhile_append_of_pos hd.2]
  simp [hc]

theorem dropWhile_digits : (digits ++ c :: rest).dropWhile isDecimalDigit = c :: rest := by
  rw [List.dropWhile_append_of_pos hd.2]
  simp [hc]

theorem takeComponent_digits : takeComponent c (digits ++ c :: rest) = (some digits, rest) := by
  rw [takeComponent, takeWhile_digits hd hc, dropWhile_digits hd hc]
  simp [hd.1]

/-- Digits with another unit are no component of a unit. -/
theorem takeComponent_of_ne (hu : c ≠ unit) :
    takeComponent unit (digits ++ c :: rest) = (none, digits ++ c :: rest) := by
  rw [takeComponent, takeWhile_digits hd hc, dropWhile_digits hd hc]
  simp [hu]

end

/-- No component of the unit is at the front of the text. -/
def Lacks (unit : Char) (cs : List Char) : Prop := takeComponent unit cs = (none, cs)

theorem lacks_nil (unit : Char) : Lacks unit [] := rfl

theorem lacks_of_not_digit {unit c : Char} (hc : isDecimalDigit c = false) (hu : c ≠ unit)
    (rest : List Char) : Lacks unit (c :: rest) := by
  simp [Lacks, takeComponent, hc, hu]

section

variable {r : Option (List Char)} {unit other : Char} {rest : List Char}
  (hr : ∀ ds ∈ r, DigitRun isDecimalDigit ds)

include hr

/-- A component is read off the front of what has none of its unit. -/
theorem takeComponent_part (hunit : isDecimalDigit unit = false) (hrest : Lacks unit rest) :
    takeComponent unit (part r unit ++ rest) = (r, rest) := by
  cases r with
  | none => exact hrest
  | some ds =>
    rw [part, List.append_assoc, List.singleton_append]
    exact takeComponent_digits (hr ds rfl) hunit

theorem lacks_part (hother : isDecimalDigit other = false) (hne : other ≠ unit)
    (hrest : Lacks unit rest) : Lacks unit (part r other ++ rest) := by
  cases r with
  | none => exact hrest
  | some ds =>
    rw [part, List.append_assoc, List.singleton_append]
    exact takeComponent_of_ne (hr ds rfl) hother hne

end

/-- What is read of a component stood at the front of the text. -/
theorem eq_of_takeComponent {unit : Char} {cs rest : List Char} {r : Option (List Char)}
    (h : takeComponent unit cs = (r, rest)) :
    cs = part r unit ++ rest ∧ ∀ ds ∈ r, DigitRun isDecimalDigit ds := by
  have hnone : ∀ {r : Option (List Char)} {rest : List Char}, (none, cs) = (r, rest) →
      cs = part r unit ++ rest ∧ ∀ ds ∈ r, DigitRun isDecimalDigit ds := by
    rintro _ _ ⟨⟩
    exact ⟨rfl, by rintro _ ⟨⟩⟩
  have hsplit := List.takeWhile_append_dropWhile (p := isDecimalDigit) (l := cs)
  rw [takeComponent] at h
  split at h
  next c behind hdrop =>
    split at h
    next hc =>
      cases h
      rw [Bool.and_eq_true, decide_eq_true_eq, Bool.not_eq_true'] at hc
      obtain ⟨rfl, hne⟩ := hc
      constructor
      · rw [part, List.append_assoc, List.singleton_append, ← hdrop, hsplit]
      · rintro _ ⟨⟩
        exact digitRun_takeWhile hne
    next =>
      exact hnone h
  next => exact hnone h

/-! ## Seconds -/

section

variable {r : Option (List Char)} (hr : ∀ ds ∈ r, Fractional isDecimalDigit ds)

include hr

/-- Seconds without fraction are read in front of their unit, and so are those with one. -/
theorem takeSeconds_part : takeSeconds (part r 'S') = (r, []) := by
  have hS : isDecimalDigit 'S' = false := by decide
  have hpoint : isDecimalDigit '.' = false := by decide
  cases r with
  | none => rfl
  | some ds =>
    cases hr ds rfl with
    | whole digits =>
      rw [part, takeSeconds, takeWhile_digits digits hS, dropWhile_digits digits hS]
      simp [digits.1]
    | @point ds places digits behind =>
      rw [part, List.append_assoc, List.cons_append, takeSeconds, takeWhile_digits digits hpoint,
        dropWhile_digits digits hpoint]
      simp only [takeWhile_digits behind hS, dropWhile_digits behind hS]
      simp [digits.1, behind.1]

/-- Seconds are no component of another unit. -/
theorem lacks_seconds {unit : Char} (hS : 'S' ≠ unit) (hpoint : '.' ≠ unit) :
    Lacks unit (part r 'S') := by
  cases r with
  | none => exact lacks_nil unit
  | some ds =>
    cases hr ds rfl with
    | whole digits => exact takeComponent_of_ne digits (by decide) hS
    | point digits behind =>
      rw [part, List.append_assoc, List.cons_append]
      exact takeComponent_of_ne digits (by decide) hpoint

end

/-- What is read of seconds stood at the front of the text. -/
theorem eq_of_takeSeconds {cs rest : List Char} {r : Option (List Char)}
    (h : takeSeconds cs = (r, rest)) :
    cs = part r 'S' ++ rest ∧ ∀ ds ∈ r, Fractional isDecimalDigit ds := by
  have hnone : ∀ {r : Option (List Char)} {rest : List Char}, (none, cs) = (r, rest) →
      cs = part r 'S' ++ rest ∧ ∀ ds ∈ r, Fractional isDecimalDigit ds := by
    rintro _ _ ⟨⟩
    exact ⟨rfl, by rintro _ ⟨⟩⟩
  have hsplit := List.takeWhile_append_dropWhile (p := isDecimalDigit) (l := cs)
  simp only [takeSeconds] at h
  split at h
  · exact hnone h
  next hne =>
    have hdigits := digitRun_takeWhile (Bool.not_eq_true _ ▸ hne)
    split at h
    next hdrop =>
      cases h
      constructor
      · rw [part, List.append_assoc, List.singleton_append, ← hdrop, hsplit]
      · rintro _ ⟨⟩
        exact .whole hdigits
    next behind hdrop =>
      have hplaces := List.takeWhile_append_dropWhile (p := isDecimalDigit) (l := behind)
      split at h
      next hdrop' =>
        split at h
        · exact hnone h
        next hne' =>
          cases h
          constructor
          · rw [part, List.append_assoc, List.append_assoc, List.cons_append,
              List.singleton_append, ← hdrop', hplaces, ← hdrop, hsplit]
          · rintro _ ⟨⟩
            exact .point hdigits (digitRun_takeWhile (Bool.not_eq_true _ ▸ hne'))
      · exact hnone h
    · exact hnone h

/-! ## Texts -/

namespace Written

/-- The components that are whole numbers. -/
def counts (w : Written) : List (Option (List Char)) :=
  [w.years, w.months, w.weeks, w.days, w.hours, w.minutes]

theorem forall_mem_counts {w : Written} {P : Option (List Char) → Prop} :
    (∀ r ∈ w.counts, P r) ↔
      P w.years ∧ P w.months ∧ P w.weeks ∧ P w.days ∧ P w.hours ∧ P w.minutes := by
  simp [counts]

/-- The components before the `T`. -/
def calendarChars (w : Written) : List Char :=
  part w.years 'Y' ++ part w.months 'M' ++ part w.weeks 'W' ++ part w.days 'D'

/-- The components behind the `T`. -/
def clockChars (w : Written) : List Char :=
  part w.hours 'H' ++ part w.minutes 'M' ++ part w.seconds 'S'

/-- The text of written components. -/
def chars (w : Written) : List Char :=
  (if w.negative then ['-'] else []) ++
    'P' :: (w.calendarChars ++ if w.timed then 'T' :: w.clockChars else [])

/-- Every component has digits of the class `p`, and those behind the `T` stand behind one. -/
structure Formed (p : Char → Bool) (w : Written) : Prop where
  counts : ∀ r ∈ w.counts, ∀ ds ∈ r, DigitRun p ds
  seconds : ∀ ds ∈ w.seconds, Fractional p ds
  timed : w.hasClock = true → w.timed = true

variable {w : Written} {cs : List Char}

/-- The components before the `T` are read off in turn. -/
theorem takeCalendar (h : w.Formed isDecimalDigit) {tail : List Char}
    (htail : ∀ unit ∈ ['Y', 'M', 'W', 'D'], Lacks unit tail) :
    ∃ months weeks days, takeComponent 'Y' (w.calendarChars ++ tail) = (w.years, months) ∧
      takeComponent 'M' months = (w.months, weeks) ∧
      takeComponent 'W' weeks = (w.weeks, days) ∧
      takeComponent 'D' days = (w.days, tail) := by
  obtain ⟨hyears, hmonths, hweeks, hdays, -⟩ := forall_mem_counts.1 h.counts
  have hW : Lacks 'W' (part w.days 'D' ++ tail) :=
    lacks_part hdays (by decide) (by decide) (htail 'W' (by decide))
  have hM : Lacks 'M' (part w.weeks 'W' ++ (part w.days 'D' ++ tail)) :=
    lacks_part hweeks (by decide) (by decide)
      (lacks_part hdays (by decide) (by decide) (htail 'M' (by decide)))
  have hY : Lacks 'Y' (part w.months 'M' ++ (part w.weeks 'W' ++ (part w.days 'D' ++ tail))) :=
    lacks_part hmonths (by decide) (by decide) (lacks_part hweeks (by decide) (by decide)
      (lacks_part hdays (by decide) (by decide) (htail 'Y' (by decide))))
  refine ⟨_, _, _, ?_, takeComponent_part hmonths (by decide) hM,
    takeComponent_part hweeks (by decide) hW, takeComponent_part hdays (by decide)
      (htail 'D' (by decide))⟩
  rw [calendarChars, List.append_assoc, List.append_assoc, List.append_assoc]
  exact takeComponent_part hyears (by decide) hY

/-- The components behind the `T` are read off in turn. -/
theorem takeClock (h : w.Formed isDecimalDigit) :
    ∃ minutes seconds, takeComponent 'H' w.clockChars = (w.hours, minutes) ∧
      takeComponent 'M' minutes = (w.minutes, seconds) ∧
      takeSeconds seconds = (w.seconds, []) := by
  obtain ⟨-, -, -, -, hhours, hminutes⟩ := forall_mem_counts.1 h.counts
  refine ⟨part w.minutes 'M' ++ part w.seconds 'S', part w.seconds 'S', ?_,
    takeComponent_part hminutes (by decide) (lacks_seconds h.seconds (by decide) (by decide)),
    takeSeconds_part h.seconds⟩
  rw [clockChars, List.append_assoc]
  exact takeComponent_part hhours (by decide)
    (lacks_part hminutes (by decide) (by decide) (lacks_seconds h.seconds (by decide) (by decide)))

/-- The components of their own text are read. -/
theorem ofChars?_chars (h : w.Formed isDecimalDigit) : ofChars? w.chars = some w := by
  cases htimed : w.timed with
  | false =>
    obtain ⟨months, weeks, days, hY, hM, hW, hD⟩ := takeCalendar h fun unit _ => lacks_nil unit
    have hclock : w.hours = none ∧ w.minutes = none ∧ w.seconds = none := by
      have := mt h.timed (by simp [htimed])
      simpa [hasClock, and_assoc] using this
    have hw : ⟨w.negative, w.years, w.months, w.weeks, w.days, false, none, none, none⟩ = w := by
      cases w
      simp_all
    rw [List.append_nil] at hY
    refine Eq.trans ?_ (congrArg some hw)
    rw [chars, htimed]
    cases w.negative <;> simp [ofChars?, hY, hM, hW, hD]
  | true =>
    have htail : ∀ unit ∈ ['Y', 'M', 'W', 'D'], Lacks unit ('T' :: w.clockChars) := by
      intro unit hunit
      refine lacks_of_not_digit (by decide) ?_ w.clockChars
      rintro rfl
      exact absurd hunit (by decide)
    obtain ⟨months, weeks, days, hY, hM, hW, hD⟩ := takeCalendar h htail
    obtain ⟨minutes, seconds, hH, hMin, hS⟩ := takeClock h
    have hw : ⟨w.negative, w.years, w.months, w.weeks, w.days, true, w.hours, w.minutes,
        w.seconds⟩ = w := by
      rw [← htimed]
    refine Eq.trans ?_ (congrArg some hw)
    rw [chars, htimed]
    cases w.negative <;> simp [ofChars?, hY, hM, hW, hD, hH, hMin, hS]

/-- Components that are read are those of which the text consists. -/
theorem chars_of_ofChars? (h : ofChars? cs = some w) : w.Formed isDecimalDigit ∧ w.chars = cs := by
  unfold ofChars? at h
  split at h
  next negative front hsign =>
    have hfront : cs = (if negative then ['-'] else []) ++ front := by
      split at hsign <;> cases hsign <;> rfl
    split at h
    next behind =>
      split at h
      next years months hY =>
      split at h
      next months weeks hM =>
      split at h
      next weeks days hW =>
      split at h
      next days tail hD =>
      obtain ⟨rfl, hyears⟩ := eq_of_takeComponent hY
      obtain ⟨rfl, hmonths⟩ := eq_of_takeComponent hM
      obtain ⟨rfl, hweeks⟩ := eq_of_takeComponent hW
      obtain ⟨rfl, hdays⟩ := eq_of_takeComponent hD
      split at h
      · cases h
        refine ⟨⟨?_, ?_, ?_⟩, ?_⟩
        · exact forall_mem_counts.2 ⟨hyears, hmonths, hweeks, hdays, by simp⟩
        · simp
        · simp [hasClock]
        · simp [hfront, chars, calendarChars]
      next clock =>
        split at h
        next hours minutes hH =>
        split at h
        next minutes seconds hMin =>
        split at h
        next seconds rest hS =>
        obtain ⟨rfl, hhours⟩ := eq_of_takeComponent hH
        obtain ⟨rfl, hminutes⟩ := eq_of_takeComponent hMin
        obtain ⟨rfl, hseconds⟩ := eq_of_takeSeconds hS
        split at h
        next hrest =>
          cases h
          obtain rfl := List.isEmpty_iff.1 hrest
          refine ⟨⟨?_, hseconds, fun _ => rfl⟩, ?_⟩
          · exact forall_mem_counts.2 ⟨hyears, hmonths, hweeks, hdays, hhours, hminutes⟩
          · simp [hfront, chars, calendarChars, clockChars]
        · cases h
      · cases h
    · cases h

/-- The components of a text are those that it is the text of. -/
theorem ofChars?_eq_some_iff : ofChars? cs = some w ↔ w.Formed isDecimalDigit ∧ w.chars = cs :=
  ⟨chars_of_ofChars?, by rintro ⟨h, rfl⟩; exact ofChars?_chars h⟩

theorem Formed.mono {p q : Char → Bool} (h : w.Formed p)
    (hcounts : ∀ r ∈ w.counts, ∀ ds ∈ r, ∀ c ∈ ds, p c = true → q c = true)
    (hseconds : ∀ ds ∈ w.seconds, ∀ c ∈ ds, p c = true → q c = true) : w.Formed q where
  counts r hr ds hds := (h.counts r hr ds hds).mono (hcounts r hr ds hds)
  seconds ds hds := (h.seconds ds hds).mono (hseconds ds hds)
  timed := h.timed

/-! ## Values -/

/-- The number of a component, zero if it is missing. -/
def number : Option (List Char) → Nat
  | none => 0
  | some ds => Number.Digits.ofChars ds

/-- The text of these components is a duration, if their numbers are small enough. The components
    are made of ASCII digits, at least one of them is there, and at least one behind a `T`. -/
structure Grammatical (w : Written) : Prop extends Formed isDigit w where
  clock : w.timed = true → w.hasClock = true
  present : w.hasCalendar = true ∨ w.hasClock = true

/-- Every number has 32 bits, also that of the days with the weeks counted as days, and the seconds
    are those of a decimal. -/
structure InRange (w : Written) : Prop where
  counts : ∀ r ∈ w.counts, number r < Nat.pow 2 32
  days : 7 * number w.weeks + number w.days < Nat.pow 2 32
  seconds : (secondCount w.seconds).isSome = true

/-- The duration has the numbers of the components, with weeks counted as days. -/
structure Gives (w : Written) (d : Duration) : Prop where
  negative : d.negative = w.negative
  years : d.years.toNat = number w.years
  months : d.months.toNat = number w.months
  days : d.days.toNat = 7 * number w.weeks + number w.days
  hours : d.hours.toNat = number w.hours
  minutes : d.minutes.toNat = number w.minutes
  seconds : secondCount w.seconds = some d.seconds

theorem isComplete_iff (h : w.hasClock = true → w.timed = true) : w.isComplete = true ↔
    (w.timed = true → w.hasClock = true) ∧ (w.hasCalendar = true ∨ w.hasClock = true) := by
  rw [isComplete]
  cases htimed : w.timed <;> cases hclock : w.hasClock <;> simp_all

theorem count_eq_some_iff {r : Option (List Char)} (hr : ∀ ds ∈ r, DigitRun isDigit ds) {n : Nat} :
    count r = some n ↔ number r = n ∧ number r < Nat.pow 2 32 := by
  cases r with
  | none => simp [count, number]
  | some ds =>
    rw [count, number, Number.Integer.readCount_of_digits 32 (hr ds rfl).2 (hr ds rfl).1]
    split
    next hlt => simp [Except.toOption, hlt]
    next hlt => simp only [Except.toOption, hlt, and_false, reduceCtorEq]

/-- What the components of a duration are. -/
theorem eq_of_toDuration? {d : Duration} (h : w.toDuration? = some d) :
    ∃ years months weeks days hours minutes,
      (count w.years = some years ∧ count w.months = some months ∧ count w.weeks = some weeks ∧
        count w.days = some days ∧ count w.hours = some hours ∧ count w.minutes = some minutes) ∧
      secondCount w.seconds = some d.seconds ∧ 7 * weeks + days < Nat.pow 2 32 ∧
      d = ⟨w.negative, UInt32.ofNat years, UInt32.ofNat months, UInt32.ofNat (7 * weeks + days),
        UInt32.ofNat hours, UInt32.ofNat minutes, d.seconds⟩ := by
  obtain ⟨weeks, hweeks, h⟩ := Option.bind_eq_some_iff.1 h
  obtain ⟨days, hdays, h⟩ := Option.bind_eq_some_iff.1 h
  obtain ⟨years, hyears, h⟩ := Option.bind_eq_some_iff.1 h
  obtain ⟨months, hmonths, h⟩ := Option.bind_eq_some_iff.1 h
  obtain ⟨hours, hhours, h⟩ := Option.bind_eq_some_iff.1 h
  obtain ⟨minutes, hminutes, h⟩ := Option.bind_eq_some_iff.1 h
  obtain ⟨seconds, hseconds, h⟩ := Option.bind_eq_some_iff.1 h
  simp only at h
  split at h
  next htotal =>
    cases h
    exact ⟨years, months, weeks, days, hours, minutes,
      ⟨hyears, hmonths, hweeks, hdays, hhours, hminutes⟩, hseconds, htotal, rfl⟩
  · cases h

/-- The digits of a count are ASCII digits. -/
theorem isDigit_of_count {r : Option (List Char)} {n : Nat} (h : count r = some n) :
    ∀ ds ∈ r, ∀ c ∈ ds, isDecimalDigit c = true → isDigit c = true := by
  rintro ds rfl c hc hdecimal
  rw [count] at h
  cases hread : readCount 32 ds with
  | ok m =>
    rcases Number.Integer.of_mem_of_readCount hread c hc with hdigit | rfl
    · exact hdigit
    · exact absurd hdecimal (by decide)
  | error fault =>
    rw [hread] at h
    cases h

/-- So are those of the seconds. -/
theorem isDigit_of_secondCount {r : Option (List Char)} {seconds : Decimal}
    (h : secondCount r = some seconds) :
    ∀ ds ∈ r, ∀ c ∈ ds, isDecimalDigit c = true → isDigit c = true := by
  rintro ds rfl c hc hdecimal
  rcases Decimal.of_mem_of_readPlain h c hc with hdigit | hmark
  · exact hdigit
  · have hmarks : ['.', '_', '-', '+'].all (!isDecimalDigit ·) = true := by decide
    have hother := List.all_eq_true.1 hmarks c hmark
    rw [hdecimal] at hother
    cases hother

/-- Decimal digits that have a value are ASCII digits. -/
theorem Formed.ascii {d : Duration} (h : w.Formed isDecimalDigit) (hd : w.toDuration? = some d) :
    w.Formed isDigit := by
  obtain ⟨years, months, weeks, days, hours, minutes, hcounts, hseconds, -⟩ := eq_of_toDuration? hd
  obtain ⟨hyears, hmonths, hweeks, hdays, hhours, hminutes⟩ := hcounts
  exact h.mono
    (forall_mem_counts.2 ⟨isDigit_of_count hyears, isDigit_of_count hmonths,
      isDigit_of_count hweeks, isDigit_of_count hdays, isDigit_of_count hhours,
      isDigit_of_count hminutes⟩)
    (isDigit_of_secondCount hseconds)

/-- Weeks and days are small if their sum is. -/
theorem lt_of_gives {d : Duration} (h : w.Gives d) : (∀ r ∈ w.counts, number r < Nat.pow 2 32) ∧
    7 * number w.weeks + number w.days < Nat.pow 2 32 := by
  have hyears : number w.years < Nat.pow 2 32 := h.years ▸ d.years.toNat_lt
  have hmonths : number w.months < Nat.pow 2 32 := h.months ▸ d.months.toNat_lt
  have hdays : 7 * number w.weeks + number w.days < Nat.pow 2 32 := h.days ▸ d.days.toNat_lt
  have hhours : number w.hours < Nat.pow 2 32 := h.hours ▸ d.hours.toNat_lt
  have hminutes : number w.minutes < Nat.pow 2 32 := h.minutes ▸ d.minutes.toNat_lt
  have hweek : number w.weeks < Nat.pow 2 32 := by omega
  have hday : number w.days < Nat.pow 2 32 := by omega
  exact ⟨forall_mem_counts.2 ⟨hyears, hmonths, hweek, hday, hhours, hminutes⟩, hdays⟩

/-- The duration of written components has their numbers, and there is none if a number is too
    large. -/
theorem toDuration?_eq_some_iff (h : w.Formed isDigit) {d : Duration} :
    w.toDuration? = some d ↔ w.Gives d := by
  obtain ⟨hyears, hmonths, hweeks, hdays, hhours, hminutes⟩ := forall_mem_counts.1 h.counts
  constructor
  · intro hd
    obtain ⟨years, months, weeks, days, hours, minutes, hcounts, hseconds, htotal, hd⟩ :=
      eq_of_toDuration? hd
    rw [count_eq_some_iff hyears, count_eq_some_iff hmonths, count_eq_some_iff hweeks,
      count_eq_some_iff hdays, count_eq_some_iff hhours, count_eq_some_iff hminutes] at hcounts
    obtain ⟨⟨rfl, hyears⟩, ⟨rfl, hmonths⟩, ⟨rfl, -⟩, ⟨rfl, -⟩, ⟨rfl, hhours⟩, rfl, hminutes⟩ :=
      hcounts
    rw [hd]
    exact ⟨rfl, UInt32.toNat_ofNat_of_lt' hyears, UInt32.toNat_ofNat_of_lt' hmonths,
      UInt32.toNat_ofNat_of_lt' htotal, UInt32.toNat_ofNat_of_lt' hhours,
      UInt32.toNat_ofNat_of_lt' hminutes, hseconds⟩
  · intro hd
    obtain ⟨hlt, htotal⟩ := lt_of_gives hd
    have hcount : ∀ r ∈ w.counts, count r = some (number r) :=
      fun r hr => (count_eq_some_iff (h.counts r hr)).2 ⟨rfl, hlt r hr⟩
    obtain ⟨hyears, hmonths, hweeks, hdays, hhours, hminutes⟩ := forall_mem_counts.1 hcount
    simp only [toDuration?, hyears, hmonths, hweeks, hdays, hhours, hminutes, hd.seconds,
      Option.bind_eq_bind, Option.bind_some]
    rw [if_pos htotal, ← hd.negative, ← hd.years, ← hd.months, ← hd.days, ← hd.hours, ← hd.minutes]
    simp only [UInt32.ofNat_toNat]

theorem inRange_iff_exists_gives (w : Written) : w.InRange ↔ ∃ d, w.Gives d := by
  constructor
  · intro h
    obtain ⟨seconds, hseconds⟩ := Option.isSome_iff_exists.1 h.seconds
    have hcount : ∀ r ∈ w.counts, (UInt32.ofNat (number r)).toNat = number r :=
      fun r hr => UInt32.toNat_ofNat_of_lt' (h.counts r hr)
    obtain ⟨hyears, hmonths, -, -, hhours, hminutes⟩ := forall_mem_counts.1 hcount
    exact ⟨⟨w.negative, UInt32.ofNat (number w.years), UInt32.ofNat (number w.months),
      UInt32.ofNat (7 * number w.weeks + number w.days), UInt32.ofNat (number w.hours),
      UInt32.ofNat (number w.minutes), seconds⟩, rfl, hyears, hmonths,
      UInt32.toNat_ofNat_of_lt' h.days, hhours, hminutes, hseconds⟩
  · rintro ⟨d, hd⟩
    obtain ⟨hlt, htotal⟩ := lt_of_gives hd
    exact ⟨hlt, htotal, Option.isSome_iff_exists.2 ⟨_, hd.seconds⟩⟩

end Written

/-- A text is read exactly if it consists of components that give the duration. -/
theorem read_eq_some_iff {cs : List Char} {d : Duration} :
    read cs = some d ↔ ∃ w : Written, w.Grammatical ∧ w.chars = cs ∧ w.Gives d := by
  constructor
  · intro h
    obtain ⟨w, hw, h⟩ := Option.bind_eq_some_iff.1 h
    obtain ⟨hformed, hchars⟩ := Written.ofChars?_eq_some_iff.1 hw
    split at h
    next hcomplete =>
      have hascii := hformed.ascii h
      obtain ⟨hclock, hpresent⟩ := (Written.isComplete_iff hformed.timed).1 hcomplete
      exact ⟨w, ⟨hascii, hclock, hpresent⟩, hchars, (Written.toDuration?_eq_some_iff hascii).1 h⟩
    · cases h
  · rintro ⟨w, hw, rfl, hgives⟩
    have hdecimal : w.Formed isDecimalDigit := hw.toFormed.mono
      (fun _ _ _ _ _ _ hc => Text.isDecimalDigit_of_isDigit hc)
      (fun _ _ _ _ hc => Text.isDecimalDigit_of_isDigit hc)
    rw [read, Written.ofChars?_eq_some_iff.2 ⟨hdecimal, rfl⟩]
    show (if w.isComplete then w.toDuration? else none) = _
    rw [if_pos ((Written.isComplete_iff hw.timed).2 ⟨hw.clock, hw.present⟩),
      Written.toDuration?_eq_some_iff hw.toFormed]
    exact hgives

/-- A text is read at all exactly if its components are in range. -/
theorem read_isSome_iff {cs : List Char} :
    (read cs).isSome = true ↔ ∃ w : Written, w.Grammatical ∧ w.chars = cs ∧ w.InRange := by
  simp only [Option.isSome_iff_exists, read_eq_some_iff, Written.inRange_iff_exists_gives]
  grind

end QueryExpr.Temporal.Duration
