import Mathlib.Data.Option.Basic
import QueryExpr.Proofs.Components
import QueryExpr.Proofs.Quotations

/-!
# Bodies without quotes

Between the quotes of a typed literal a quote would have to be written twice. No body that has a
value has a quote in it, so that a body can be written between quotes as it is.

* `Guid.no_quote_of_read`, `Literal.Raw.no_quote_of_readBinary`: bytes.
* `Duration.no_quote_of_read`, `Moment.no_quote_of_read`: durations, dates and times.
* `Literal.Raw.no_quote_of_value`: typed literals.
* `Token.BareDate.isPlain_of_splitDate?`: what is taken for a date without quotes may stand between
  quotes.
-/

namespace QueryExpr

/-! ## Bytes -/

namespace Bytes

namespace Hex

theorem isDigit_of_decode {cs : List Char} {bytes : List UInt8} (h : decode cs = some bytes) :
    ∀ c ∈ cs, isDigit c = true := by
  fun_induction decode cs generalizing bytes with
  | case1 => simp
  | case2 => cases h
  | case3 high low cs ih =>
    obtain ⟨_, hhigh, h⟩ := Option.bind_eq_some_iff.1 h
    obtain ⟨_, hlow, h⟩ := Option.bind_eq_some_iff.1 h
    obtain ⟨_, hcs, -⟩ := Option.bind_eq_some_iff.1 h
    refine List.forall_mem_cons.2 ⟨?_, List.forall_mem_cons.2 ⟨?_, ih hcs⟩⟩
    · rw [isDigit, hhigh, Option.isSome_some]
    · rw [isDigit, hlow, Option.isSome_some]

theorem no_quote_of_decode {cs : List Char} {bytes : List UInt8} (h : decode cs = some bytes) :
    '\'' ∉ cs :=
  fun hquote => absurd (isDigit_of_decode h _ hquote) (by decide)

end Hex

theorem Base64.no_quote_of_decode {cs : List Char} {bytes : List UInt8}
    (h : decode cs = some bytes) : '\'' ∉ cs := by
  have hsextet : ∀ {c n}, sextet? c = some n → '\'' ≠ c := by
    rintro c n hc rfl
    cases hc
  fun_induction decode cs generalizing bytes with
  | case1 => simp
  | case2 c₁ c₂ =>
    obtain ⟨_, h₁, h⟩ := Option.bind_eq_some_iff.1 h
    obtain ⟨_, h₂, -⟩ := Option.bind_eq_some_iff.1 h
    simp [hsextet h₁, hsextet h₂]
  | case3 c₁ c₂ c₃ =>
    obtain ⟨_, h₁, h⟩ := Option.bind_eq_some_iff.1 h
    obtain ⟨_, h₂, h⟩ := Option.bind_eq_some_iff.1 h
    obtain ⟨_, h₃, -⟩ := Option.bind_eq_some_iff.1 h
    simp [hsextet h₁, hsextet h₂, hsextet h₃]
  | case4 c₁ c₂ c₃ c₄ cs _ _ ih =>
    obtain ⟨_, h₁, h⟩ := Option.bind_eq_some_iff.1 h
    obtain ⟨_, h₂, h⟩ := Option.bind_eq_some_iff.1 h
    obtain ⟨_, h₃, h⟩ := Option.bind_eq_some_iff.1 h
    obtain ⟨_, h₄, h⟩ := Option.bind_eq_some_iff.1 h
    obtain ⟨_, hcs, -⟩ := Option.bind_eq_some_iff.1 h
    simp [hsextet h₁, hsextet h₂, hsextet h₃, hsextet h₄, ih hcs]
  | case5 => cases h

namespace Guid

theorem no_quote_of_ofDigits? {cs : List Char} {g : Guid} (h : ofDigits? cs = some g) :
    '\'' ∉ cs := by
  obtain ⟨bytes, hbytes, -⟩ := Option.bind_eq_some_iff.1 h
  exact Hex.no_quote_of_decode hbytes

theorem no_quote_of_ofHyphenated? {cs : List Char} {g : Guid} (h : ofHyphenated? cs = some g) :
    '\'' ∉ cs := by
  unfold ofHyphenated? at h
  dsimp only at h
  split at h
  · intro hquote
    exact no_quote_of_ofDigits? h (List.mem_filter.2 ⟨hquote, by decide⟩)
  · cases h

theorem quote_mem_inside {cs inside : List Char} (h : insideBraces? cs = some inside)
    (hquote : '\'' ∈ cs) : '\'' ∈ inside := by
  unfold insideBraces? at h
  split at h
  next ds =>
    split at h
    next hlast =>
      cases h
      obtain ⟨ds, rfl⟩ := List.getLast?_eq_some_iff.1 hlast
      simpa using hquote
    next => cases h
  next => cases h

theorem quote_mem_behind {cs behind : List Char} (h : behindUrn? cs = some behind)
    (hquote : '\'' ∈ cs) : '\'' ∈ behind := by
  unfold behindUrn? at h
  split at h
  next hlead =>
    cases h
    rw [← List.take_append_drop urnLead.length cs, List.mem_append] at hquote
    refine hquote.resolve_left fun hfront => ?_
    have hmem : Char.toLower '\'' ∈ urnLead := hlead ▸ List.mem_map_of_mem hfront
    exact absurd hmem (by decide)
  next => cases h

theorem no_quote_of_read {cs : List Char} {g : Guid} (h : read cs = .ok g) : '\'' ∉ cs := by
  have hof : ofChars? cs = some g := by
    unfold read at h
    split at h
    · cases h
      assumption
    · cases h
  unfold ofChars? at hof
  split at hof
  next hinside =>
    exact fun hquote => no_quote_of_ofHyphenated? hof (quote_mem_inside hinside hquote)
  next =>
    split at hof
    next hbehind =>
      exact fun hquote => no_quote_of_ofHyphenated? hof (quote_mem_behind hbehind hquote)
    next =>
      split at hof
      · exact no_quote_of_ofDigits? hof
      · exact no_quote_of_ofHyphenated? hof

end Guid

end Bytes

namespace Temporal

open Text (isDigit)

/-! ## Durations -/

namespace Duration

theorem no_quote_of_digitRun {ds : List Char} (h : DigitRun isDigit ds) : '\'' ∉ ds :=
  fun hquote => absurd (h.2 _ hquote) (by decide)

theorem no_quote_of_fractional {ds : List Char} (h : Fractional isDigit ds) : '\'' ∉ ds := by
  cases h with
  | whole digits => exact no_quote_of_digitRun digits
  | point digits behind =>
    simp [no_quote_of_digitRun digits, no_quote_of_digitRun behind]

theorem no_quote_of_part {r : Option (List Char)} {unit : Char} (h : ∀ ds ∈ r, '\'' ∉ ds)
    (hunit : '\'' ≠ unit) : '\'' ∉ part r unit := by
  cases r with
  | none => exact List.not_mem_nil
  | some ds => simpa [part, hunit] using h ds rfl

theorem no_quote_of_read {cs : List Char} {d : Duration} (h : read cs = some d) : '\'' ∉ cs := by
  obtain ⟨w, hw, rfl, -⟩ := read_eq_some_iff.1 h
  have hcounts : ∀ r ∈ w.counts, ∀ unit, '\'' ≠ unit → '\'' ∉ part r unit := fun r hr unit =>
    no_quote_of_part fun ds hds => no_quote_of_digitRun (hw.counts r hr ds hds)
  have hseconds : '\'' ∉ part w.seconds 'S' :=
    no_quote_of_part (fun ds hds => no_quote_of_fractional (hw.seconds ds hds)) (by decide)
  obtain ⟨hyears, hmonths, hweeks, hdays, hhours, hminutes⟩ := Written.forall_mem_counts.1 hcounts
  have hcalendar : '\'' ∉ w.calendarChars := by
    simp only [Written.calendarChars, List.mem_append, not_or]
    exact ⟨⟨⟨hyears 'Y' (by decide), hmonths 'M' (by decide)⟩, hweeks 'W' (by decide)⟩,
      hdays 'D' (by decide)⟩
  have hclock : '\'' ∉ w.clockChars := by
    simp only [Written.clockChars, List.mem_append, not_or]
    exact ⟨⟨hhours 'H' (by decide), hminutes 'M' (by decide)⟩, hseconds⟩
  have hsign : '\'' ∉ if w.negative then ['-'] else [] := by split <;> decide
  have htimed : '\'' ∉ if w.timed then 'T' :: w.clockChars else [] := by
    split
    · simpa using hclock
    · exact List.not_mem_nil
  simp [Written.chars, hsign, hcalendar, htimed]

end Duration

/-! ## Dates and times -/

/-- A reader passes no quote. -/
def Spares {α : Type} (reader : List Char → Option (α × List Char)) : Prop :=
  ∀ cs a rest, reader cs = some (a, rest) → '\'' ∈ cs → '\'' ∈ rest

theorem mem_dropWhile_of_quote {p : Char → Bool} {cs : List Char} (hp : p '\'' = false)
    (hquote : '\'' ∈ cs) : '\'' ∈ cs.dropWhile p := by
  rw [← List.takeWhile_append_dropWhile (p := p) (l := cs), List.mem_append] at hquote
  refine hquote.resolve_left fun hfront => ?_
  have := List.all_eq_true.1 List.all_takeWhile _ hfront
  rw [hp] at this
  cases this

namespace Field

theorem quote_of_mark {c : Char} {cs rest : List Char} (h : mark c cs = some rest)
    (hc : '\'' ≠ c) (hquote : '\'' ∈ cs) : '\'' ∈ rest := by
  cases cs with
  | nil => cases h
  | cons d cs =>
    rw [mark] at h
    split at h
    next hd =>
      cases h
      subst hd
      simpa [hc] using hquote
    next => cases h

theorem spares_digits (least most : Nat) : Spares (digits least most) := by
  intro cs n rest h hquote
  unfold digits at h
  dsimp only at h
  split at h
  next =>
    cases h
    have hprefix : Number.Digits.run (cs.take most) <+: cs :=
      (List.takeWhile_prefix isDigit).trans (List.take_prefix most cs)
    rw [← List.prefix_iff_eq_append.1 hprefix, List.mem_append] at hquote
    refine hquote.resolve_left fun hrun => ?_
    exact absurd (List.all_eq_true.1 List.all_takeWhile _ hrun) (by decide)
  next => cases h

theorem spares_exact (width : Nat) : Spares (exact width) := spares_digits width width

theorem spares_short : Spares short := fun _ _ _ h hquote =>
  spares_digits 1 2 _ _ _ h (mem_dropWhile_of_quote (by decide) hquote)

theorem spares_year : Spares year := by
  intro cs y rest h hquote
  have hdrop := mem_dropWhile_of_quote (p := Text.isBlank) (by decide) hquote
  unfold year at h
  split at h
  next ds hds =>
    obtain ⟨⟨n, rest'⟩, hn, heq⟩ := Option.map_eq_some_iff.1 h
    cases heq
    rw [hds] at hdrop
    exact spares_digits _ _ _ _ _ hn (by simpa using hdrop)
  next ds hds =>
    obtain ⟨⟨n, rest'⟩, hn, heq⟩ := Option.map_eq_some_iff.1 h
    cases heq
    rw [hds] at hdrop
    exact spares_digits _ _ _ _ _ hn (by simpa using hdrop)
  next =>
    obtain ⟨⟨n, rest'⟩, hn, heq⟩ := Option.map_eq_some_iff.1 h
    cases heq
    exact spares_digits _ _ _ _ _ hn hdrop

theorem spares_fraction : Spares fraction := by
  intro cs nano rest h hquote
  unfold fraction at h
  split at h
  next cs =>
    dsimp only at h
    split at h
    · cases h
    · cases h
      have hcs : '\'' ∈ cs := by simpa using hquote
      exact mem_dropWhile_of_quote (p := isDigit) (by decide) hcs
  next =>
    cases h
    exact hquote

theorem spares_sign : Spares sign := by
  intro cs behind rest h hquote
  unfold sign at h
  split at h <;> cases h <;> simpa using hquote

/-- What passes something between hours and minutes passes no quote. -/
theorem spares_offset {between : List Char → Option (List Char)}
    (hbetween : ∀ cs rest, between cs = some rest → '\'' ∈ cs → '\'' ∈ rest) :
    Spares (offset between) := by
  intro cs o rest h hquote
  obtain ⟨⟨behind, cs₁⟩, h₁, h⟩ := Option.bind_eq_some_iff.1 h
  obtain ⟨⟨hours, cs₂⟩, h₂, h⟩ := Option.bind_eq_some_iff.1 h
  obtain ⟨cs₃, h₃, h⟩ := Option.bind_eq_some_iff.1 h
  obtain ⟨⟨minutes, cs₄⟩, h₄, h⟩ := Option.bind_eq_some_iff.1 h
  dsimp only at h
  split at h
  next =>
    cases h
    refine spares_exact 2 _ _ _ h₄ (hbetween _ _ h₃ ?_)
    exact spares_exact 2 _ _ _ h₂ (spares_sign _ _ _ h₁ hquote)
  next => cases h

end Field

open QueryExpr.Temporal.Field

section

variable {clock : List Char → Option (Clock × List Char)}

theorem spares_strictOffset : Spares strictOffset := by
  intro cs o rest h hquote
  unfold strictOffset at h
  split at h
  · cases h
    simpa using hquote
  · cases h
    simpa using hquote
  · exact spares_offset (fun _ _ hmark => quote_of_mark hmark (by decide)) _ _ _ h hquote

theorem spares_lenientOffset : Spares lenientOffset := by
  intro cs o rest h hquote
  refine spares_offset (fun cs rest hcs hquote => ?_) _ _ _ h
    (mem_dropWhile_of_quote (by decide) hquote)
  cases hcs
  exact mem_dropWhile_of_quote (by decide) hquote

theorem spares_lenientDate : Spares lenientDate := by
  intro cs d rest h hquote
  obtain ⟨⟨year, cs₁⟩, h₁, h⟩ := Option.bind_eq_some_iff.1 h
  obtain ⟨cs₂, h₂, h⟩ := Option.bind_eq_some_iff.1 h
  obtain ⟨⟨month, cs₃⟩, h₃, h⟩ := Option.bind_eq_some_iff.1 h
  obtain ⟨cs₄, h₄, h⟩ := Option.bind_eq_some_iff.1 h
  obtain ⟨⟨day, cs₅⟩, h₅, h⟩ := Option.bind_eq_some_iff.1 h
  obtain ⟨date, -, h⟩ := Option.bind_eq_some_iff.1 h
  cases h
  have hmonth := quote_of_mark h₂ (by decide) (spares_year _ _ _ h₁ hquote)
  have hday := quote_of_mark h₄ (by decide) (spares_short _ _ _ h₃ hmonth)
  exact spares_short _ _ _ h₅ hday

theorem spares_lenientMinute : Spares lenientMinute := by
  intro cs c rest h hquote
  obtain ⟨⟨hour, cs₁⟩, h₁, h⟩ := Option.bind_eq_some_iff.1 h
  obtain ⟨cs₂, h₂, h⟩ := Option.bind_eq_some_iff.1 h
  obtain ⟨⟨minute, cs₃⟩, h₃, h⟩ := Option.bind_eq_some_iff.1 h
  obtain ⟨clock, -, h⟩ := Option.bind_eq_some_iff.1 h
  cases h
  exact spares_short _ _ _ h₃ (quote_of_mark h₂ (by decide) (spares_short _ _ _ h₁ hquote))

theorem spares_lenientSecond : Spares lenientSecond := by
  intro cs c rest h hquote
  obtain ⟨⟨hour, cs₁⟩, h₁, h⟩ := Option.bind_eq_some_iff.1 h
  obtain ⟨cs₂, h₂, h⟩ := Option.bind_eq_some_iff.1 h
  obtain ⟨⟨minute, cs₃⟩, h₃, h⟩ := Option.bind_eq_some_iff.1 h
  obtain ⟨cs₄, h₄, h⟩ := Option.bind_eq_some_iff.1 h
  obtain ⟨⟨second, cs₅⟩, h₅, h⟩ := Option.bind_eq_some_iff.1 h
  obtain ⟨⟨nano, cs₆⟩, h₆, h⟩ := Option.bind_eq_some_iff.1 h
  obtain ⟨clock, -, h⟩ := Option.bind_eq_some_iff.1 h
  cases h
  have hminute := quote_of_mark h₂ (by decide) (spares_short _ _ _ h₁ hquote)
  have hsecond := quote_of_mark h₄ (by decide) (spares_short _ _ _ h₃ hminute)
  exact spares_fraction _ _ _ h₆ (spares_short _ _ _ h₅ hsecond)

theorem spares_lenientCivil (hclock : Spares clock) : Spares (lenientCivil clock) := by
  intro cs x rest h hquote
  obtain ⟨⟨date, cs₁⟩, h₁, h⟩ := Option.bind_eq_some_iff.1 h
  obtain ⟨cs₂, h₂, h⟩ := Option.bind_eq_some_iff.1 h
  obtain ⟨⟨time, cs₃⟩, h₃, h⟩ := Option.bind_eq_some_iff.1 h
  cases h
  exact hclock _ _ _ h₃ (quote_of_mark h₂ (by decide) (spares_lenientDate _ _ _ h₁ hquote))

theorem spares_lenientZoned (hclock : Spares clock) : Spares (lenientZoned clock) := by
  intro cs x rest h hquote
  obtain ⟨⟨⟨date, time⟩, cs₁⟩, h₁, h⟩ := Option.bind_eq_some_iff.1 h
  obtain ⟨⟨offset, cs₂⟩, h₂, h⟩ := Option.bind_eq_some_iff.1 h
  obtain ⟨zoned, -, h⟩ := Option.bind_eq_some_iff.1 h
  cases h
  exact spares_lenientOffset _ _ _ h₂ (spares_lenientCivil hclock _ _ _ h₁ hquote)

/-- What passes no quote has not read a text with a quote to its end. -/
theorem no_quote_of_whole {α : Type} {reader : List Char → Option (α × List Char)}
    (hreader : Spares reader) {cs : List Char} {a : α} (h : whole reader cs = some a) :
    '\'' ∉ cs := by
  obtain ⟨⟨value, rest⟩, hread, h⟩ := Option.bind_eq_some_iff.1 h
  dsimp only at h
  split at h
  next hempty =>
    intro hquote
    have := hreader _ _ _ hread hquote
    rw [List.isEmpty_iff.1 hempty] at this
    exact absurd this List.not_mem_nil
  next => cases h

theorem no_quote_of_readStrict {cs : List Char} {z : Zoned} (h : readStrict cs = some z) :
    '\'' ∉ cs := by
  intro hquote
  obtain ⟨⟨year, cs₁⟩, h₁, h⟩ := Option.bind_eq_some_iff.1 h
  obtain ⟨cs₂, h₂, h⟩ := Option.bind_eq_some_iff.1 h
  obtain ⟨⟨month, cs₃⟩, h₃, h⟩ := Option.bind_eq_some_iff.1 h
  obtain ⟨cs₄, h₄, h⟩ := Option.bind_eq_some_iff.1 h
  obtain ⟨⟨day, cs₅⟩, h₅, h⟩ := Option.bind_eq_some_iff.1 h
  obtain ⟨cs₆, h₆, h⟩ := Option.bind_eq_some_iff.1 h
  obtain ⟨⟨hour, cs₇⟩, h₇, h⟩ := Option.bind_eq_some_iff.1 h
  obtain ⟨cs₈, h₈, h⟩ := Option.bind_eq_some_iff.1 h
  obtain ⟨⟨minute, cs₉⟩, h₉, h⟩ := Option.bind_eq_some_iff.1 h
  obtain ⟨ds, hds, h⟩ := Option.bind_eq_some_iff.1 h
  obtain ⟨⟨second, ds₁⟩, hds₁, h⟩ := Option.bind_eq_some_iff.1 h
  obtain ⟨⟨nano, ds₂⟩, hds₂, h⟩ := Option.bind_eq_some_iff.1 h
  obtain ⟨⟨offset, ds₃⟩, hds₃, h⟩ := Option.bind_eq_some_iff.1 h
  have hmonth := quote_of_mark h₂ (by decide) (spares_exact 4 _ _ _ h₁ hquote)
  have hday := quote_of_mark h₄ (by decide) (spares_exact 2 _ _ _ h₃ hmonth)
  have hgap := spares_exact 2 _ _ _ h₅ hday
  have hhour : '\'' ∈ cs₆ := by
    unfold strictGap at h₆
    split at h₆ <;> cases h₆ <;> simpa using hgap
  have hminute := quote_of_mark h₈ (by decide) (spares_exact 2 _ _ _ h₇ hhour)
  have hsecond := quote_of_mark hds (by decide) (spares_exact 2 _ _ _ h₉ hminute)
  have hoffset := spares_fraction _ _ _ hds₂ (spares_exact 2 _ _ _ hds₁ hsecond)
  have hrest := spares_strictOffset _ _ _ hds₃ hoffset
  dsimp only at h
  split at h
  next hempty =>
    rw [List.isEmpty_iff.1 hempty] at hrest
    exact absurd hrest List.not_mem_nil
  next => cases h

theorem no_quote_of_numericOffset {cs : List Char} (h : '\'' ∉ numericOffset cs) : '\'' ∉ cs := by
  intro hquote
  refine h ?_
  unfold numericOffset
  split
  next hlast =>
    obtain ⟨ds, rfl⟩ := List.getLast?_eq_some_iff.1 hlast
    simpa using hquote
  next => exact hquote

end

theorem Moment.no_quote_of_read {cs : List Char} {m : Moment} (h : read cs = some m) :
    '\'' ∉ cs := by
  -- the notations are tried in turn, and the one that is read has no quote
  have hcivil : ∀ {clock x}, Spares clock → whole (lenientCivil clock) cs = some x → '\'' ∉ cs :=
    fun hclock => no_quote_of_whole (spares_lenientCivil hclock)
  have hzoned : ∀ {clock z}, Spares clock →
      whole (lenientZoned clock) (numericOffset cs) = some z → '\'' ∉ cs := fun hclock hz =>
    no_quote_of_numericOffset (no_quote_of_whole (spares_lenientZoned hclock) hz)
  simp only [read, Option.orElse_eq_some, Option.map_eq_map, Option.map_eq_some_iff] at h
  rcases h with ⟨_, h, -⟩ | ⟨-, ⟨_, h, -⟩ | ⟨-, ⟨_, h, -⟩ | ⟨-, ⟨_, h, -⟩ | ⟨-, ⟨_, h, -⟩ |
    ⟨-, ⟨_, h, -⟩ | ⟨-, ⟨_, h, -⟩ | ⟨-, ⟨_, h, -⟩⟩⟩⟩⟩⟩⟩⟩
  · exact no_quote_of_readStrict h
  · exact hzoned spares_lenientSecond h
  · exact hzoned spares_lenientMinute h
  · exact hcivil spares_lenientSecond h
  · exact hcivil spares_lenientMinute h
  · exact no_quote_of_whole spares_lenientDate h
  · exact no_quote_of_whole spares_lenientSecond h
  · exact no_quote_of_whole spares_lenientMinute h

end Temporal

/-! ## Typed literals -/

namespace Literal

/-- Whether literals of the kind are written between quotes behind a word. -/
def Kind.isTyped : Kind → Bool
  | guid | binary | dateTime | duration => true
  | _ => false

theorem Raw.no_quote_of_readBinary {cs : List Char} {bytes : List UInt8}
    (h : readBinary cs = some bytes) : '\'' ∉ cs := by
  rcases Option.or_eq_some_iff.1 h with h | ⟨-, h⟩
  · exact Bytes.Hex.no_quote_of_decode h
  · exact Bytes.Base64.no_quote_of_decode h

/-- The body of a typed literal that has a value has no quote. -/
theorem Raw.no_quote_of_value {raw : Raw} {l : Literal} (htyped : raw.kind.isTyped = true)
    (h : raw.value = .ok l) : '\'' ∉ raw.body.toList := by
  obtain ⟨body, kind⟩ := raw
  unfold value at h
  cases kind with
  | binary =>
    dsimp only at h
    split at h
    next hbytes => exact no_quote_of_readBinary hbytes
    next => cases h
  | dateTime =>
    dsimp only at h
    split at h
    next hmoment => exact Temporal.Moment.no_quote_of_read hmoment
    next => cases h
  | guid =>
    dsimp only at h
    split at h
    next hguid => exact Bytes.Guid.no_quote_of_read hguid
    next => cases h
  | duration =>
    dsimp only at h
    split at h
    next hduration => exact Temporal.Duration.no_quote_of_read hduration
    next => cases h
  | _ => cases htyped

end Literal

/-! ## Dates without quotes -/

theorem Text.isPlain_of_isDecimalDigit {c : Char} (h : isDecimalDigit c = true) :
    isPlain c = true := by
  cases hplain : isPlain c with
  | true => rfl
  | false =>
    have hlt : c.toNat < 160 := by
      simp [isPlain, isControl] at hplain
      omega
    have hall : ∀ n : Fin 160, isDecimalDigit (Char.ofNat n.val) = true →
        isPlain (Char.ofNat n.val) = true := by decide +kernel
    have := hall ⟨c.toNat, hlt⟩
    rw [Char.ofNat_toNat] at this
    rw [← hplain, this h]

namespace Token.BareDate

open Text (isPlain isDecimalDigit isPlain_of_isDecimalDigit)

/-- Whatever `split` takes may stand between quotes. -/
def TakesPlain (split : List Char → Option (List Char × List Char)) : Prop :=
  ∀ cs r, split cs = some r → ∀ c ∈ r.1, isPlain c = true

theorem follow_takesPlain {form : List (Char → Bool)}
    (hform : ∀ p ∈ form, ∀ c, p c = true → isPlain c = true) : TakesPlain (follow form) := by
  intro cs r h
  induction form generalizing cs r with
  | nil =>
    cases h
    exact List.forall_mem_nil _
  | cons p form ih =>
    obtain ⟨hp, hform⟩ := List.forall_mem_cons.1 hform
    cases cs with
    | nil => cases h
    | cons c cs =>
      simp only [follow] at h
      split at h
      next hc =>
        obtain ⟨t, ht, rfl⟩ := Option.map_eq_some_iff.1 h
        exact List.forall_mem_cons.2 ⟨hp c hc, ih hform cs t ht⟩
      next => cases h

theorem optional_takesPlain {split : List Char → Option (List Char × List Char)}
    (h : TakesPlain split) (cs : List Char) : ∀ c ∈ (optional split cs).1, isPlain c = true := by
  unfold optional
  cases hs : split cs with
  | none => exact List.forall_mem_nil _
  | some r => exact h cs r hs

/-- The characters that stand between the digits of a date. -/
theorem isPlain_of_beq {mark : Char} (hmark : isPlain mark = true) :
    ∀ c, (c == mark) = true → isPlain c = true := by
  intro c hc
  rw [beq_iff_eq] at hc
  exact hc ▸ hmark

theorem fraction_takesPlain : TakesPlain splitFraction? := by
  intro cs r h
  unfold splitFraction? at h
  split at h
  next read rest hfollow =>
    cases h
    have hread : ∀ c ∈ read, isPlain c = true := by
      refine follow_takesPlain ?_ cs _ hfollow
      simp only [List.forall_mem_cons]
      exact ⟨isPlain_of_beq (by decide), fun _ => isPlain_of_isDecimalDigit,
        List.forall_mem_nil _⟩
    refine List.forall_mem_append.2 ⟨hread, fun c hc => isPlain_of_isDecimalDigit ?_⟩
    exact List.all_eq_true.1 List.all_takeWhile c hc
  next => cases h

theorem second_takesPlain : TakesPlain splitSecond? := by
  intro cs r h
  obtain ⟨t, ht, rfl⟩ := Option.map_eq_some_iff.1 h
  refine List.forall_mem_append.2 ⟨follow_takesPlain ?_ cs t ht,
    optional_takesPlain fraction_takesPlain _⟩
  simp only [secondForm, List.forall_mem_cons]
  exact ⟨isPlain_of_beq (by decide), fun _ => isPlain_of_isDecimalDigit,
    fun _ => isPlain_of_isDecimalDigit, List.forall_mem_nil _⟩

theorem offset_takesPlain : TakesPlain splitOffset? := by
  intro cs r h
  rcases Option.or_eq_some_iff.1 h with h | ⟨-, h⟩
  · exact follow_takesPlain (List.forall_mem_singleton.2 (isPlain_of_beq (by decide))) cs r h
  · refine follow_takesPlain ?_ cs r h
    have hsign : ∀ c : Char, (c == '+' || c == '-') = true → isPlain c = true := by
      intro c hc
      rw [Bool.or_eq_true] at hc
      exact hc.elim (isPlain_of_beq (by decide) c) (isPlain_of_beq (by decide) c)
    simp only [offsetForm, List.forall_mem_cons]
    exact ⟨hsign, fun _ => isPlain_of_isDecimalDigit, fun _ => isPlain_of_isDecimalDigit,
      isPlain_of_beq (by decide), fun _ => isPlain_of_isDecimalDigit,
      fun _ => isPlain_of_isDecimalDigit, List.forall_mem_nil _⟩

theorem clock_takesPlain : TakesPlain splitClock? := by
  intro cs r h
  obtain ⟨t, ht, rfl⟩ := Option.map_eq_some_iff.1 h
  refine List.forall_mem_append.2 ⟨List.forall_mem_append.2 ⟨follow_takesPlain ?_ cs t ht,
    optional_takesPlain second_takesPlain _⟩, optional_takesPlain offset_takesPlain _⟩
  simp only [minuteForm, List.forall_mem_cons]
  exact ⟨isPlain_of_beq (by decide), fun _ => isPlain_of_isDecimalDigit,
    fun _ => isPlain_of_isDecimalDigit, isPlain_of_beq (by decide),
    fun _ => isPlain_of_isDecimalDigit, fun _ => isPlain_of_isDecimalDigit,
    List.forall_mem_nil _⟩

theorem isPlain_of_splitDate? : TakesPlain splitDate? := by
  intro cs r h
  obtain ⟨t, ht, rfl⟩ := Option.map_eq_some_iff.1 h
  refine List.forall_mem_append.2 ⟨follow_takesPlain ?_ cs t ht,
    optional_takesPlain clock_takesPlain _⟩
  have hform : ∀ p ∈ dayForm, ∀ c, p c = true → isPlain c = true := by
    have hdigit : ∀ c, isDecimalDigit c = true → isPlain c = true :=
      fun _ => isPlain_of_isDecimalDigit
    have hminus : ∀ c, (c == '-') = true → isPlain c = true := isPlain_of_beq (by decide)
    simp only [dayForm, List.forall_mem_cons]
    exact ⟨hdigit, hdigit, hdigit, hdigit, hminus, hdigit, hdigit, hminus, hdigit, hdigit,
      List.forall_mem_nil _⟩
  exact hform

end Token.BareDate

end QueryExpr
