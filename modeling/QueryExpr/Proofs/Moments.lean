import QueryExpr.Proofs.Numbers
import QueryExpr.Proofs.Quotations
import QueryExpr.Proofs.Sole

/-!
# Reading dates and times back

Every field is written in its full width, so it is read to its end whatever stands behind it; only a
year and a fraction need something behind them that is no digit. What is written is read in one
notation: the strict one if there is an offset and the year has four digits, else a lenient one.

* `Field.short_padded`, `Field.exact_padded`, `Field.year_yearChars`,
  `Field.fraction_fractionChars`: the fields.
* `readStrict_civilChars`, `lenientDate_chars`, `lenientSecond_chars`: dates and times.
* `Moment.read_bodyChars`: a moment is read back.
* `Lexer.soleLiteral_moment`: its literal is the only token of the text that is written for it.
-/

namespace QueryExpr

open Text (isDigit)

namespace Number.Digits

theorem length_padded {width n : Nat} (hw : 0 < width) (h : n < Nat.pow 10 width) :
    (padded width n).length = width := by
  have hlen : (toChars n).length ≤ width := (Nat.length_toDigits_le_iff (by decide) hw).2 h
  rw [padded, List.length_append, List.length_replicate]
  omega

theorem padded_eq_cons {width : Nat} (h : width ≠ 0) (n : Nat) :
    ∃ c cs, padded width n = c :: cs ∧ isDigit c = true := by
  obtain ⟨c, cs, hcs⟩ := List.exists_cons_of_ne_nil (padded_ne_nil h n)
  exact ⟨c, cs, hcs, isDigit_of_mem_padded (hcs ▸ List.mem_cons_self)⟩

theorem run_append {ds : List Char} (hd : ∀ c ∈ ds, isDigit c = true) (rest : List Char) :
    run (ds ++ rest) = ds ++ run rest := List.takeWhile_append_of_pos hd

theorem run_take {cs : List Char} (h : run cs = []) (n : Nat) : run (cs.take n) = [] := by
  cases cs with
  | nil => rw [List.take_nil, h]
  | cons c cs =>
    cases n with
    | zero => rfl
    | succ n =>
      rw [List.take_succ_cons]
      rw [run, List.takeWhile_cons] at h ⊢
      split at h
      · cases h
      next hc => rw [if_neg hc]

/-- Digits are all of the run at the front, if the front ends with them or no digit follows. -/
theorem run_take_append {ds rest : List Char} {n : Nat} (hd : ∀ c ∈ ds, isDigit c = true)
    (hlen : ds.length ≤ n) (hrest : ds.length < n → run rest = []) :
    run ((ds ++ rest).take n) = ds := by
  have htake : run (rest.take (n - ds.length)) = [] := by
    by_cases hlt : ds.length < n
    · exact run_take (hrest hlt) _
    · rw [Nat.sub_eq_zero_of_le (by omega), List.take_zero]
      rfl
  rw [List.take_append, List.take_of_length_le hlen, run_append hd, htake, List.append_nil]

theorem afterRun_append {ds rest : List Char} (hd : ∀ c ∈ ds, isDigit c = true)
    (hrest : run rest = []) : afterRun (ds ++ rest) = rest := by
  have hsplit := run_append_afterRun rest
  rw [hrest, List.nil_append] at hsplit
  rw [afterRun, List.dropWhile_append_of_pos hd]
  exact hsplit

end Number.Digits

namespace Temporal

open Number.Digits (padded run)

/-! ## One reader after the other

A text is read by one reader after the other, each on what the one before it has left. -/

section

variable {α β : Type} {x : Option α}

theorem bind_of_some {a : α} (h : x = some a) (f : α → Option β) : (x >>= f) = f a := by
  rw [h]
  rfl

theorem bind_of_none (h : x = none) (f : α → Option β) : (x >>= f) = none := by
  rw [h]
  rfl

end

namespace Field

/-! ## Fields -/

theorem mark_cons (c : Char) (cs : List Char) : mark c (c :: cs) = some cs := if_pos rfl

theorem mark_cons_of_ne {c d : Char} (h : d ≠ c) (cs : List Char) : mark c (d :: cs) = none :=
  if_neg h

/-- Digits are read if there are enough of them, and if there are no more than may be read. -/
theorem digits_append {least most : Nat} {ds rest : List Char} (hd : ∀ c ∈ ds, isDigit c = true)
    (hleast : least ≤ ds.length) (hmost : ds.length ≤ most)
    (hrest : ds.length < most → run rest = []) :
    digits least most (ds ++ rest) = some (Number.Digits.ofChars ds, rest) := by
  rw [digits]
  simp only [Number.Digits.run_take_append hd hmost hrest]
  rw [if_pos hleast, List.drop_left]

theorem ofChars_padded (width n : Nat) : Number.Digits.ofChars (padded width n) = n :=
  Number.Digits.ofDigitChars_padded width n

theorem exact_padded {width n : Nat} (hw : 0 < width) (hn : n < Nat.pow 10 width)
    (rest : List Char) : exact width (padded width n ++ rest) = some (n, rest) := by
  have hlen := Number.Digits.length_padded hw hn
  rw [exact, digits_append (fun _ => Number.Digits.isDigit_of_mem_padded) (by omega) (by omega)
    (by omega), ofChars_padded]

/-- The width of months, days and the fields of a clock. -/
theorem exact_two {n : Nat} (hn : n < 100) (rest : List Char) :
    exact 2 (padded 2 n ++ rest) = some (n, rest) := exact_padded (by decide) hn rest

/-- Fewer digits than the width are no number of that width. -/
theorem exact_of_lt {width : Nat} {ds rest : List Char} (hd : ∀ c ∈ ds, isDigit c = true)
    (hlen : ds.length < width) (hrest : run rest = []) : exact width (ds ++ rest) = none := by
  rw [exact, digits]
  simp only [Number.Digits.run_take_append hd (Nat.le_of_lt hlen) fun _ => hrest]
  rw [if_neg (by omega)]

/-- No digit is white space. -/
theorem dropBlank_padded {width : Nat} (h : width ≠ 0) (n : Nat) (rest : List Char) :
    (padded width n ++ rest).dropWhile Text.isBlank = padded width n ++ rest := by
  obtain ⟨c, cs, hcs, hc⟩ := Number.Digits.padded_eq_cons h n
  have hblank : Text.isBlank c = false := Text.of_isDigit (Text.isBlank · = false) hc (by decide)
  rw [hcs, List.cons_append, List.dropWhile_cons_of_neg (by simp [hblank])]

theorem short_padded {n : Nat} (hn : n < 100) (rest : List Char) :
    short (padded 2 n ++ rest) = some (n, rest) := by
  have hlen : (padded 2 n).length = 2 := Number.Digits.length_padded (by decide) hn
  rw [short, dropBlank_padded (by decide), digits_append
    (fun _ => Number.Digits.isDigit_of_mem_padded) (by omega) (by omega) (by omega), ofChars_padded]

/-- A number that may have more digits is read in front of what is no digit. -/
theorem digits_padded {width most n : Nat} {rest : List Char} (hw : 0 < width)
    (hmost : (padded width n).length ≤ most) (hrest : run rest = []) :
    digits 1 most (padded width n ++ rest) = some (n, rest) := by
  have hlen := Number.Digits.le_length_padded width n
  rw [digits_append (fun _ => Number.Digits.isDigit_of_mem_padded) (by omega) hmost
    (fun _ => hrest), ofChars_padded]

theorem year_minus (ds : List Char) :
    year ('-' :: ds) = (digits 1 ds.length ds).map fun (n, rest) => (-(n : Int), rest) := rfl

theorem year_plus (ds : List Char) :
    year ('+' :: ds) = (digits 1 ds.length ds).map fun (n, rest) => ((n : Int), rest) := rfl

theorem year_of_padded {width n : Nat} (h : width ≠ 0) (rest : List Char) :
    year (padded width n ++ rest) =
      (digits 1 4 (padded width n ++ rest)).map fun (n, rest) => ((n : Int), rest) := by
  have hfront := dropBlank_padded h n rest
  obtain ⟨c, cs, hcs, hc⟩ := Number.Digits.padded_eq_cons h n
  rw [hcs, List.cons_append] at hfront ⊢
  rw [year, hfront]
  split
  next heq =>
    obtain rfl := (List.cons.inj heq).1
    exact absurd hc (by decide)
  next heq =>
    obtain rfl := (List.cons.inj heq).1
    exact absurd hc (by decide)
  next => rfl

theorem year_yearChars (y : Int) (rest : List Char) :
    year (Date.yearChars y ++ '-' :: rest) = some (y, '-' :: rest) := by
  have hdigits : ∀ most, (padded 4 y.natAbs).length ≤ most →
      digits 1 most (padded 4 y.natAbs ++ '-' :: rest) = some (y.natAbs, '-' :: rest) :=
    fun _ hmost => digits_padded (by decide) hmost rfl
  have hlen : (padded 4 y.natAbs).length ≤ (padded 4 y.natAbs ++ '-' :: rest).length := by simp
  unfold Date.yearChars
  split
  next hneg =>
    rw [List.cons_append, year_minus, hdigits _ hlen]
    simp only [Option.map_some, Option.some.injEq, Prod.mk.injEq, and_true]
    omega
  split
  next hlarge =>
    rw [List.cons_append, year_plus, hdigits _ hlen]
    simp only [Option.map_some, Option.some.injEq, Prod.mk.injEq, and_true]
    omega
  next hsmall =>
    have hyear : y.natAbs < 10000 := by omega
    have hfour : (padded 4 y.natAbs).length = 4 := Number.Digits.length_padded (by decide) hyear
    rw [year_of_padded (by decide), hdigits 4 (by omega)]
    simp only [Option.map_some, Option.some.injEq, Prod.mk.injEq, and_true]
    omega

/-- What may stand behind a fraction of a second, and behind a second without fraction. -/
structure FractionEnd (rest : List Char) : Prop where
  digit : run rest = []
  point : rest.head? ≠ some '.'

/-- Places behind a point are read as nanoseconds. -/
theorem fraction_padded {places n : Nat} {rest : List Char} (hpos : 0 < places)
    (hplaces : places ≤ 9) (hn : n < Nat.pow 10 places) (hrest : run rest = []) :
    fraction ('.' :: padded places n ++ rest) = some (n * Nat.pow 10 (9 - places), rest) := by
  have hlen := Number.Digits.length_padded hpos hn
  have hd : ∀ c ∈ padded places n, isDigit c = true :=
    fun _ => Number.Digits.isDigit_of_mem_padded
  have hrun : run ((padded places n ++ rest).take 9) = padded places n :=
    Number.Digits.run_take_append hd (by omega) fun _ => hrest
  have hne : (padded places n).isEmpty = false :=
    List.isEmpty_eq_false_iff.2 (Number.Digits.padded_ne_nil (by omega) n)
  rw [List.cons_append, fraction]
  simp only [hrun, hne, Bool.false_eq_true, if_false, hlen, ofChars_padded,
    Number.Digits.afterRun_append hd hrest]

theorem fraction_fractionChars {nano : Nat} {rest : List Char} (hnano : nano < 1000000000)
    (hrest : FractionEnd rest) :
    fraction (Clock.fractionChars nano ++ rest) = some (nano, rest) := by
  unfold Clock.fractionChars
  split
  next hzero =>
    subst hzero
    rw [List.nil_append, fraction]
    rintro cs rfl
    exact hrest.point rfl
  split
  next hmilli =>
    have hplaces : nano / 1000000 < 1000 := by omega
    rw [fraction_padded (by decide) (by decide) hplaces hrest.digit]
    simp only [Option.some.injEq, Prod.mk.injEq, and_true]
    show nano / 1000000 * 1000000 = nano
    omega
  split
  next hmicro =>
    have hplaces : nano / 1000 < 1000000 := by omega
    rw [fraction_padded (by decide) (by decide) hplaces hrest.digit]
    simp only [Option.some.injEq, Prod.mk.injEq, and_true]
    show nano / 1000 * 1000 = nano
    omega
  next =>
    rw [fraction_padded (by decide) (by decide) hnano hrest.digit]
    simp

/-! ## Offsets -/

/-- A reader passes the colon of an offset. -/
def PassesColon (between : List Char → Option (List Char)) : Prop :=
  ∀ n, between (':' :: padded 2 n) = some (padded 2 n)

theorem passesColon_mark : PassesColon (mark ':') := fun _ => mark_cons ':' _

theorem passesColon_colonsAndBlanks : PassesColon colonsAndBlanks := by
  intro n
  obtain ⟨c, cs, hcs, hc⟩ := Number.Digits.padded_eq_cons (Nat.succ_ne_zero 1) n
  have hstop : (c == ':' || Text.isBlank c) = false :=
    Text.of_isDigit (fun c => (c == ':' || Text.isBlank c) = false) hc (by decide)
  rw [hcs, colonsAndBlanks, List.dropWhile_cons_of_pos (by decide),
    List.dropWhile_cons_of_neg (by simp [hstop])]

/-- An offset below a day is read whatever passes its colon. -/
theorem offset_offsetChars {between : List Char → Option (List Char)} (h : PassesColon between)
    {o : Int} (ho : o.natAbs < 1440) : offset between (Zoned.offsetChars o) = some (o, []) := by
  have hhours : ∀ rest, exact 2 (padded 2 (o.natAbs / 60) ++ rest) = some (o.natAbs / 60, rest) :=
    exact_two (by omega)
  have hminutes : exact 2 (padded 2 (o.natAbs % 60)) = some (o.natAbs % 60, []) := by
    rw [← List.append_nil (padded 2 (o.natAbs % 60))]
    exact exact_two (by omega) []
  have hsixty : o.natAbs % 60 < 60 := Nat.mod_lt _ (by decide)
  have hsign : ∀ cs, sign ((if o < 0 then '-' else '+') :: cs) = some (decide (o < 0), cs) := by
    intro cs
    by_cases hneg : o < 0
    · rw [if_pos hneg, decide_eq_true hneg]
      rfl
    · rw [if_neg hneg, decide_eq_false hneg]
      rfl
  rw [offset, Zoned.offsetChars]
  simp only [hsign, hhours, h (o.natAbs % 60), hminutes, hsixty, if_true, Option.bind_eq_bind,
    Option.bind_some]
  by_cases hneg : o < 0
  · simp only [hneg, decide_true, if_true, Option.some.injEq, Prod.mk.injEq, and_true]
    omega
  · simp only [hneg, decide_false, Bool.false_eq_true, if_false, Option.some.injEq, Prod.mk.injEq,
      and_true]
    omega

end Field

open Temporal.Field

/-! ## Dates and times -/

variable {rest : List Char}

theorem Date.of?_fields (d : Date) : of? d.year d.month d.day = some d := by
  rw [of?, dif_pos d.isDate]

/-- Month and day have two digits. -/
theorem Date.lt_of_isDate (d : Date) : d.month < 100 ∧ d.day < 100 := by
  have hdate := d.isDate
  simp only [Temporal.isDate, daysInMonth, Bool.and_eq_true, decide_eq_true_eq, List.mem_cons,
    List.not_mem_nil, or_false] at hdate
  obtain ⟨⟨-, hfirst⟩, hlast⟩ := hdate
  split at hlast
  · split at hlast <;> omega
  split at hlast
  · omega
  split at hlast <;> omega

theorem Clock.of?_fields (t : Clock) : of? t.hour t.minute t.second t.nano = some t := by
  rw [of?, dif_pos ⟨t.hour_lt, t.minute_lt, t.second_le, t.nano_lt⟩]

theorem Zoned.of?_fields (z : Zoned) : of? z.date z.clock z.offset = some z := by
  rw [of?, dif_pos ⟨z.offset_lt, z.inCalendar⟩]

/-- The fields of a date, with what stands behind it. -/
theorem Date.chars_append (d : Date) (rest : List Char) : d.chars ++ rest =
    yearChars d.year ++ '-' :: (padded 2 d.month ++ '-' :: (padded 2 d.day ++ rest)) := by
  simp [chars]

/-- The fields of a time of day, with what stands behind it. -/
theorem Clock.chars_append (t : Clock) (rest : List Char) : t.chars ++ rest =
    padded 2 t.hour ++ ':' :: (padded 2 t.minute ++
      ':' :: (padded 2 t.second ++ (fractionChars t.nano ++ rest))) := by
  simp [chars]

theorem lenientDate_chars (d : Date) (rest : List Char) :
    lenientDate (d.chars ++ rest) = some (d, rest) := by
  obtain ⟨hmonth, hday⟩ := d.lt_of_isDate
  rw [lenientDate, d.chars_append]
  refine (bind_of_some (year_yearChars _ _) _).trans ?_
  refine (bind_of_some (mark_cons _ _) _).trans ?_
  refine (bind_of_some (short_padded hmonth _) _).trans ?_
  refine (bind_of_some (mark_cons _ _) _).trans ?_
  refine (bind_of_some (short_padded hday _) _).trans ?_
  exact bind_of_some d.of?_fields _

theorem lenientSecond_chars (t : Clock) (hrest : FractionEnd rest) :
    lenientSecond (t.chars ++ rest) = some (t, rest) := by
  have hhour := t.hour_lt
  have hminute := t.minute_lt
  have hsecond := t.second_le
  rw [lenientSecond, t.chars_append]
  refine (bind_of_some (short_padded (by omega) _) _).trans ?_
  refine (bind_of_some (mark_cons _ _) _).trans ?_
  refine (bind_of_some (short_padded (by omega) _) _).trans ?_
  refine (bind_of_some (mark_cons _ _) _).trans ?_
  refine (bind_of_some (short_padded (by omega) _) _).trans ?_
  refine (bind_of_some (fraction_fractionChars t.nano_lt hrest) _).trans ?_
  exact bind_of_some t.of?_fields _

/-- A reader of hours and minutes stops at the colon in front of the seconds. -/
theorem lenientMinute_chars (t : Clock) (rest : List Char) :
    ∃ u behind, lenientMinute (t.chars ++ rest) = some (u, ':' :: behind) := by
  have hhour := t.hour_lt
  have hminute := t.minute_lt
  let u : Clock := ⟨t.hour, t.minute, 0, 0, hhour, hminute, by decide, by decide⟩
  refine ⟨u, padded 2 t.second ++ (Clock.fractionChars t.nano ++ rest), ?_⟩
  rw [lenientMinute, t.chars_append]
  refine (bind_of_some (short_padded (by omega) _) _).trans ?_
  refine (bind_of_some (mark_cons _ _) _).trans ?_
  refine (bind_of_some (short_padded (by omega) _) _).trans ?_
  exact bind_of_some u.of?_fields _

theorem Clock.length_hour (t : Clock) : (padded 2 t.hour).length = 2 :=
  Number.Digits.length_padded (by decide) (Nat.lt_trans t.hour_lt (by decide))

/-- An hour is no year, since a colon is behind it. -/
theorem lenientDate_of_clock (t : Clock) : lenientDate t.chars = none := by
  have hlen := t.length_hour
  have hyear : ∀ rest,
      year (padded 2 t.hour ++ ':' :: rest) = some ((t.hour : Int), ':' :: rest) := by
    intro rest
    rw [year_of_padded (by decide), digits_padded (by decide) (by omega) rfl]
    rfl
  rw [lenientDate, Clock.chars]
  refine (bind_of_some (hyear _) _).trans ?_
  exact bind_of_none (mark_cons_of_ne (by decide) _) _

/-! ## The strict notation -/

/-- Whether the year is written as four digits without a sign. -/
def Date.HasPlainYear (d : Date) : Prop := 0 ≤ d.year ∧ d.year ≤ 9999

/-- A year with a sign is none of the strict notation. -/
theorem readStrict_of_sign {d : Date} (h : ¬d.HasPlainYear) (rest : List Char) :
    readStrict (d.chars ++ rest) = none := by
  have hrun : run (d.chars ++ rest) = [] := by
    rw [d.chars_append, Date.yearChars]
    split
    · rfl
    split
    · rfl
    · exact absurd ⟨by omega, by omega⟩ h
  have hyear : exact 4 ([] ++ (d.chars ++ rest)) = none :=
    exact_of_lt (List.forall_mem_nil _) (by decide) hrun
  rw [List.nil_append] at hyear
  rw [readStrict]
  exact bind_of_none hyear _

/-- Nor is an hour, which has two digits only. -/
theorem readStrict_clock (t : Clock) : readStrict t.chars = none := by
  have hlen := t.length_hour
  have hyear : exact 4 t.chars = none :=
    exact_of_lt (fun _ => Number.Digits.isDigit_of_mem_padded) (by omega) rfl
  rw [readStrict]
  exact bind_of_none hyear _

section

variable {d : Date} (h : d.HasPlainYear)

include h

theorem exact_yearChars (rest : List Char) :
    exact 4 (Date.yearChars d.year ++ rest) = some (d.year.natAbs, rest) := by
  obtain ⟨hlow, hhigh⟩ := h
  have hyear : d.year.natAbs < 10000 := by omega
  rw [Date.yearChars, if_neg (by omega), if_neg (by omega)]
  exact exact_padded (by decide) hyear rest

/-- A date alone is not of the strict notation. -/
theorem readStrict_date : readStrict d.chars = none := by
  obtain ⟨hmonth, hday⟩ := d.lt_of_isDate
  rw [← List.append_nil d.chars, readStrict, d.chars_append]
  refine (bind_of_some (exact_yearChars h _) _).trans ?_
  refine (bind_of_some (mark_cons _ _) _).trans ?_
  refine (bind_of_some (exact_two hmonth _) _).trans ?_
  refine (bind_of_some (mark_cons _ _) _).trans ?_
  refine (bind_of_some (exact_two hday _) _).trans ?_
  rfl

/-- A date and a time are of the strict notation if an offset is behind them. -/
theorem readStrict_civilChars (t : Clock) (hrest : FractionEnd rest) :
    readStrict (Moment.civilChars d t ++ rest) = (strictOffset rest).bind fun (offset, cs) =>
      if cs.isEmpty then Zoned.of? d t offset else none := by
  obtain ⟨hmonth, hday⟩ := d.lt_of_isDate
  have hhour := t.hour_lt
  have hminute := t.minute_lt
  have hsecond := t.second_le
  have hyear : (d.year.natAbs : Int) = d.year := Int.natAbs_of_nonneg h.1
  rw [readStrict, Moment.civilChars, List.append_assoc, List.cons_append, d.chars_append,
    t.chars_append]
  -- the readers of the date, of the `T` and of the time, in the order of the text
  refine (bind_of_some (exact_yearChars h _) _).trans ?_
  refine (bind_of_some (mark_cons _ _) _).trans ?_
  refine (bind_of_some (exact_two hmonth _) _).trans ?_
  refine (bind_of_some (mark_cons _ _) _).trans ?_
  refine (bind_of_some (exact_two hday _) _).trans ?_
  refine (bind_of_some (a := padded 2 t.hour ++ _) rfl _).trans ?_
  refine (bind_of_some (exact_two (by omega) _) _).trans ?_
  refine (bind_of_some (mark_cons _ _) _).trans ?_
  refine (bind_of_some (exact_two (by omega) _) _).trans ?_
  refine (bind_of_some (mark_cons _ _) _).trans ?_
  refine (bind_of_some (exact_two (by omega) _) _).trans ?_
  refine (bind_of_some (fraction_fractionChars t.nano_lt hrest) _).trans ?_
  simp only [hyear, d.of?_fields, t.of?_fields, Option.bind_eq_bind, Option.bind_some]

end

/-! ## The lenient notation -/

theorem lenientCivil_date (clock : List Char → Option (Clock × List Char)) (d : Date) :
    lenientCivil clock d.chars = none := by
  have hdate := lenientDate_chars d []
  rw [List.append_nil] at hdate
  rw [lenientCivil]
  exact bind_of_some hdate _

theorem lenientCivil_clock (clock : List Char → Option (Clock × List Char)) (t : Clock) :
    lenientCivil clock t.chars = none := by
  rw [lenientCivil]
  exact bind_of_none (lenientDate_of_clock t) _

theorem lenientCivil_civilChars {clock : List Char → Option (Clock × List Char)} {t u : Clock}
    {behind : List Char} (h : clock (t.chars ++ rest) = some (u, behind)) (d : Date) :
    lenientCivil clock (Moment.civilChars d t ++ rest) = some ((d, u), behind) := by
  rw [lenientCivil, Moment.civilChars, List.append_assoc, List.cons_append]
  refine (bind_of_some (lenientDate_chars d _) _).trans ?_
  refine (bind_of_some (mark_cons _ _) _).trans ?_
  exact bind_of_some h _

theorem lenientZoned_of_none {clock : List Char → Option (Clock × List Char)} {cs : List Char}
    (h : lenientCivil clock cs = none) : lenientZoned clock cs = none := by
  rw [lenientZoned]
  exact bind_of_none h _

/-- No offset begins with a colon or stands at the end of a text. -/
theorem lenientZoned_of_lenientCivil {clock : List Char → Option (Clock × List Char)}
    {cs behind : List Char} {r : Date × Clock} (h : lenientCivil clock cs = some (r, behind))
    (hbehind : ∀ c ∈ behind.head?, c = ':') : lenientZoned clock cs = none := by
  have hoffset : lenientOffset behind = none := by
    cases behind with
    | nil => rfl
    | cons c behind =>
      obtain rfl := hbehind c rfl
      rfl
  rw [lenientZoned]
  refine (bind_of_some h _).trans ?_
  exact bind_of_none hoffset _

theorem fractionEnd_nil : FractionEnd [] := ⟨rfl, nofun⟩

theorem fractionEnd_offsetChars (o : Int) : FractionEnd (Zoned.offsetChars o) := by
  unfold Zoned.offsetChars
  split
  · exact ⟨rfl, by simp⟩
  · exact ⟨rfl, by simp⟩

theorem strictOffset_offsetChars {o : Int} (ho : o.natAbs < 1440) :
    strictOffset (Zoned.offsetChars o) = some (o, []) := by
  rw [← offset_offsetChars passesColon_mark ho, Zoned.offsetChars]
  split <;> rfl

theorem lenientOffset_offsetChars {o : Int} (ho : o.natAbs < 1440) :
    lenientOffset (Zoned.offsetChars o) = some (o, []) := by
  rw [← offset_offsetChars passesColon_colonsAndBlanks ho, Zoned.offsetChars]
  split <;> rfl

section

variable {α : Type} {read : List Char → Option (α × List Char)} {cs : List Char}

theorem whole_of_none (h : read cs = none) : whole read cs = none := by
  rw [whole]
  exact bind_of_none h _

theorem whole_of_some {value : α} (h : read cs = some (value, [])) :
    whole read cs = some value := by
  rw [whole]
  exact bind_of_some h _

end

namespace Moment

/-! ## Characters -/

/-- A character of a date or time. -/
def isNotationChar (c : Char) : Bool := isDigit c || ['-', '+', ':', '.', 'T'].contains c

theorem isNotationChar_of_mem_padded {width n : Nat} :
    ∀ c ∈ padded width n, isNotationChar c = true := by
  intro c hc
  rw [isNotationChar, Number.Digits.isDigit_of_mem_padded hc, Bool.true_or]

theorem isNotationChar_of_mem_date (d : Date) : ∀ c ∈ d.chars, isNotationChar c = true := by
  have hyear : ∀ c ∈ Date.yearChars d.year, isNotationChar c = true := by
    unfold Date.yearChars
    split
    · exact List.forall_mem_cons.2 ⟨rfl, isNotationChar_of_mem_padded⟩
    split
    · exact List.forall_mem_cons.2 ⟨rfl, isNotationChar_of_mem_padded⟩
    · exact isNotationChar_of_mem_padded
  simp only [Date.chars, List.forall_mem_append, List.forall_mem_cons]
  exact ⟨hyear, rfl, isNotationChar_of_mem_padded, rfl, isNotationChar_of_mem_padded⟩

theorem isNotationChar_of_mem_clock (t : Clock) : ∀ c ∈ t.chars, isNotationChar c = true := by
  have hfraction : ∀ c ∈ Clock.fractionChars t.nano, isNotationChar c = true := by
    unfold Clock.fractionChars
    split
    · exact List.forall_mem_nil _
    split
    · exact List.forall_mem_cons.2 ⟨rfl, isNotationChar_of_mem_padded⟩
    split <;> exact List.forall_mem_cons.2 ⟨rfl, isNotationChar_of_mem_padded⟩
  simp only [Clock.chars, List.forall_mem_append, List.forall_mem_cons]
  exact ⟨isNotationChar_of_mem_padded, rfl, isNotationChar_of_mem_padded, rfl,
    isNotationChar_of_mem_padded, hfraction⟩

theorem isNotationChar_of_mem_bodyChars (m : Moment) :
    ∀ c ∈ m.bodyChars, isNotationChar c = true := by
  have hcivil : ∀ d t, ∀ c ∈ civilChars d t, isNotationChar c = true := by
    intro d t
    simp only [civilChars, List.forall_mem_append, List.forall_mem_cons]
    exact ⟨isNotationChar_of_mem_date d, rfl, isNotationChar_of_mem_clock t⟩
  cases m with
  | date d => exact isNotationChar_of_mem_date d
  | time t => exact isNotationChar_of_mem_clock t
  | civil d t => exact hcivil d t
  | zoned z =>
    simp only [bodyChars, Zoned.offsetChars, List.forall_mem_append, List.forall_mem_cons]
    refine ⟨hcivil _ _, ?_, isNotationChar_of_mem_padded, rfl, isNotationChar_of_mem_padded⟩
    split <;> rfl

/-- What is written has numbers for an offset already. -/
theorem numericOffset_bodyChars (m : Moment) : numericOffset m.bodyChars = m.bodyChars := by
  rw [numericOffset, if_neg]
  intro hlast
  exact absurd (m.isNotationChar_of_mem_bodyChars 'Z' (List.mem_of_getLast? hlast)) (by decide)

/-! ## Moments -/

theorem read_date (d : Date) : read d.chars = some (date d) := by
  have hstrict : readStrict d.chars = none := by
    by_cases h : d.HasPlainYear
    · exact readStrict_date h
    · have := readStrict_of_sign h []
      rwa [List.append_nil] at this
  have hcivil : ∀ clock, whole (lenientCivil clock) d.chars = none :=
    fun clock => whole_of_none (lenientCivil_date clock d)
  have hzoned : ∀ clock, whole (lenientZoned clock) d.chars = none :=
    fun clock => whole_of_none (lenientZoned_of_none (lenientCivil_date clock d))
  have hdate : whole lenientDate d.chars = some d := by
    have := lenientDate_chars d []
    rw [List.append_nil] at this
    exact whole_of_some this
  have hnumeric : numericOffset d.chars = d.chars := numericOffset_bodyChars (date d)
  simp [read, hnumeric, hstrict, hcivil, hzoned, hdate]

theorem read_time (t : Clock) : read t.chars = some (time t) := by
  have hstrict := readStrict_clock t
  have hcivil : ∀ clock, whole (lenientCivil clock) t.chars = none :=
    fun clock => whole_of_none (lenientCivil_clock clock t)
  have hzoned : ∀ clock, whole (lenientZoned clock) t.chars = none :=
    fun clock => whole_of_none (lenientZoned_of_none (lenientCivil_clock clock t))
  have hdate : whole lenientDate t.chars = none := whole_of_none (lenientDate_of_clock t)
  have htime : whole lenientSecond t.chars = some t := by
    have := lenientSecond_chars t fractionEnd_nil
    rw [List.append_nil] at this
    exact whole_of_some this
  have hnumeric : numericOffset t.chars = t.chars := numericOffset_bodyChars (time t)
  simp [read, hnumeric, hstrict, hcivil, hzoned, hdate, htime]

theorem read_civil (d : Date) (t : Clock) : read (civilChars d t) = some (civil d t) := by
  have hstrict : readStrict (civilChars d t) = none := by
    rw [← List.append_nil (civilChars d t)]
    by_cases h : d.HasPlainYear
    · rw [readStrict_civilChars h t fractionEnd_nil]
      rfl
    · rw [civilChars, List.append_assoc]
      exact readStrict_of_sign h _
  have hsecond : lenientCivil lenientSecond (civilChars d t) = some ((d, t), []) := by
    rw [← List.append_nil (civilChars d t)]
    exact lenientCivil_civilChars (lenientSecond_chars t fractionEnd_nil) d
  have hminute : lenientZoned lenientMinute (civilChars d t) = none := by
    obtain ⟨u, behind, hread⟩ := lenientMinute_chars t []
    have hcivil := lenientCivil_civilChars hread d
    rw [List.append_nil] at hcivil
    refine lenientZoned_of_lenientCivil hcivil ?_
    rintro _ ⟨⟩
    rfl
  have hzoned : lenientZoned lenientSecond (civilChars d t) = none :=
    lenientZoned_of_lenientCivil hsecond (by rintro _ ⟨⟩)
  have hnumeric : numericOffset (civilChars d t) = civilChars d t :=
    numericOffset_bodyChars (civil d t)
  simp [read, hnumeric, hstrict, whole_of_none hzoned, whole_of_none hminute,
    whole_of_some hsecond]

theorem read_zoned (z : Zoned) : read (zoned z).bodyChars = some (zoned z) := by
  by_cases h : z.date.HasPlainYear
  · have hstrict : readStrict (zoned z).bodyChars = some z := by
      rw [bodyChars, readStrict_civilChars h z.clock (fractionEnd_offsetChars _),
        strictOffset_offsetChars z.offset_lt]
      exact z.of?_fields
    simp [read, hstrict]
  · have hstrict : readStrict (zoned z).bodyChars = none := by
      rw [bodyChars, civilChars, List.append_assoc]
      exact readStrict_of_sign h _
    have hread := lenientSecond_chars z.clock (fractionEnd_offsetChars z.offset)
    have hzoned : lenientZoned lenientSecond (zoned z).bodyChars = some (z, []) := by
      rw [bodyChars, lenientZoned]
      refine (bind_of_some (lenientCivil_civilChars hread z.date) _).trans ?_
      refine (bind_of_some (lenientOffset_offsetChars z.offset_lt) _).trans ?_
      exact bind_of_some z.of?_fields _
    simp [read, numericOffset_bodyChars, hstrict, whole_of_some hzoned]

/-- A moment is read of what is written for it. -/
theorem read_bodyChars (m : Moment) : read m.bodyChars = some m := by
  cases m with
  | date d => exact read_date d
  | time t => exact read_time t
  | civil d t => exact read_civil d t
  | zoned z => exact read_zoned z

end Moment

end Temporal

/-! ## Tokens -/

open Temporal (Moment)

namespace Token

theorem isBodyChar_of_isNotationChar {c : Char} (h : Moment.isNotationChar c = true) :
    isBodyChar c = true := by
  rw [Moment.isNotationChar, Bool.or_eq_true, List.contains_iff_mem] at h
  rcases h with hdigit | hmark
  · exact Text.of_isDigit (isBodyChar · = true) hdigit (by decide)
  · have hmarks : ['-', '+', ':', '.', 'T'].all isBodyChar = true := by decide
    exact List.all_eq_true.1 hmarks c hmark

/-- No time of day begins like a duration. -/
theorem read_duration_of_clock (t : Temporal.Clock) : Temporal.Duration.read t.chars = none := by
  obtain ⟨c, cs, hcs, hc⟩ := Number.Digits.padded_eq_cons (Nat.succ_ne_zero 1) t.hour
  have hminus := Number.Digits.ne_of_isDigit (d := '-') hc (by decide)
  have hP := Number.Digits.ne_of_isDigit (d := 'P') hc (by decide)
  have hwritten : Temporal.Duration.Written.ofChars? t.chars = none := by
    rw [Temporal.Clock.chars, hcs]
    simp [Temporal.Duration.Written.ofChars?, hminus, hP]
  rw [Temporal.Duration.read, hwritten]
  rfl

theorem nameText_word (m : Moment) : NameText m.word := by
  have hdate : NameText "date" := ⟨⟨'d', _, rfl, rfl, rfl⟩, rfl⟩
  have htime : NameText "time" := ⟨⟨'t', _, rfl, rfl, rfl⟩, rfl⟩
  have hdatetime : NameText "datetime" := ⟨⟨'d', _, rfl, rfl, rfl⟩, rfl⟩
  cases m with
  | date d => exact hdate
  | time t => exact htime
  | civil d t | zoned z => exact hdatetime

/-- The word in front of a moment types it. -/
theorem kindOf_word (m : Moment) :
    ∃ w, TypeWord.ofWord? m.word = some w ∧ w.kindOf m.bodyChars = .ok .dateTime := by
  have hadmits : ∀ w : TypeWord, w.admits m = true → w.admitsBody m.bodyChars = true := by
    intro w hw
    rw [TypeWord.admitsBody, m.read_bodyChars]
    exact hw
  have hdate : TypeWord.ofWord? "date" = some .date := rfl
  have htime : TypeWord.ofWord? "time" = some .time := rfl
  have hdatetime : TypeWord.ofWord? "datetime" = some .civil := rfl
  cases m with
  | date d => exact ⟨.date, hdate, if_pos (hadmits .date rfl)⟩
  | time t =>
    have hduration : Temporal.Duration.read (Moment.time t).bodyChars = none :=
      read_duration_of_clock t
    refine ⟨.time, htime, ?_⟩
    rw [TypeWord.kindOf, hduration, hadmits .time rfl]
    rfl
  | civil d t | zoned z => exact ⟨.civil, hdatetime, if_pos (hadmits .civil rfl)⟩

theorem value_moment (m : Moment) :
    Literal.Raw.value ⟨String.ofList m.bodyChars, .dateTime⟩ = .ok (.dateTime m) := by
  simp only [Literal.Raw.value, String.toList_ofList, m.read_bodyChars]

/-- Dates and times are read back. -/
theorem lexeme_moment (m : Moment) : Lexeme false (Literal.dateTime m).text.toList
    (.literal ⟨String.ofList m.bodyChars, .dateTime⟩) := by
  obtain ⟨w, hw, hkind⟩ := kindOf_word m
  exact lexeme_body (nameText_word m) hw
    (fun c hc => isBodyChar_of_isNotationChar (m.isNotationChar_of_mem_bodyChars c hc)) hkind
    (value_moment m)

end Token

/-- The text of a moment is one literal and nothing else, and its value is the same moment. -/
theorem Lexer.soleLiteral_moment (m : Moment) :
    SoleLiteral (Literal.dateTime m).text .dateTime (.dateTime m) ∧ m.same m = true := by
  refine ⟨soleLiteral_of_lexeme (Token.lexeme_moment m) (Token.value_moment m), ?_⟩
  cases m <;> simp [Moment.same]

end QueryExpr
