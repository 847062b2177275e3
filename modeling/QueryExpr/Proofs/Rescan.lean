import QueryExpr.Proofs.Numerals
import QueryExpr.Proofs.Spans

/-!
# Scanning a token again

Scanners look at characters behind their token: whether a name goes on, whether a quote is doubled,
whether a number has a power or a date a time of day. Where a blank, or nothing, is behind a token,
they stop at it.

* `Token.SetOff`: what is behind a token begins with a blank.
* `Token.Rescans`: what a scanner finds, it finds again in front of a blank.
* `Token.scan_rescans`: the scan of any token does so.
-/

namespace QueryExpr

namespace Text

/-- The code points of the blanks. -/
def blankCodes : List Nat :=
  [0x9, 0xa, 0xb, 0xc, 0xd, 0x20, 0x85, 0xa0, 0x1680, 0x2000, 0x2001, 0x2002, 0x2003, 0x2004,
   0x2005, 0x2006, 0x2007, 0x2008, 0x2009, 0x200a, 0x2028, 0x2029, 0x202f, 0x205f, 0x3000]

/-- What holds of each blank holds of a character that is one. -/
theorem of_isBlank (p : Char → Prop) {c : Char} (h : isBlank c = true)
    (hall : ∀ n ∈ blankCodes, p (Char.ofNat n)) : p c := by
  have hmem : c.toNat ∈ blankCodes := by
    simp [isBlank, blankCodes] at h ⊢
    omega
  have := hall _ hmem
  rwa [Char.ofNat_toNat] at this

/-- A body that ends at its closing quote ends there whatever follows, except another quote. -/
theorem Quoted.scan_closed {cs rest : List Char} (h : (scan cs).ending = .closed)
    (hrest : rest.head? ≠ some '\'') :
    scan ((scan cs).read ++ rest) = { scan cs with rest := rest } := by
  fun_induction scan cs with
  | case1 => cases h
  | case2 cs ih =>
    have := ih h
    simp only [Scan.push, List.cons_append, List.nil_append] at this ⊢
    rw [scan, this]
    rfl
  | case3 cs hquote =>
    show scan ('\'' :: rest) = _
    have := scan_double [] rest (by simp) hrest
    simpa [double] using this
  | case4 c cs _ hc hplain ih =>
    have := ih h
    simp only [Scan.push, List.cons_append, List.nil_append] at this ⊢
    rw [scan, if_pos hplain, this]
    · rfl
    · exact fun _ hquote => absurd hquote hc
    · exact hc
  | case5 => cases h

end Text

namespace Token

open Number (Digits.run Digits.afterRun)
open Text (isDigit isDecimalDigit)

/-! ## What a blank sets off -/

/-- Whatever follows is set off by a blank. -/
def SetOff (cs : List Char) : Prop := ∀ c ∈ cs.head?, Text.isBlank c = true

theorem NameEnd.of_setOff {cs : List Char} (h : SetOff cs) : NameEnd cs :=
  fun c hc => Text.of_isBlank (fun c => Text.isNameChar c = false ∧ isJoint c = false) (h c hc)
    (by decide +kernel)

theorem NumeralEnd.of_setOff {cs : List Char} (h : SetOff cs) : NumeralEnd cs :=
  fun c hc => Text.of_isBlank (endsNumeral · = true) (h c hc) (by decide +kernel)

theorem SetOff.ne_quote {cs : List Char} (h : SetOff cs) : cs.head? ≠ some '\'' :=
  fun hc => absurd (h _ hc) (by decide)

/-- What the scanner finds at the front of `cs`, behind the characters `lead`, it finds again in
    front of whatever a blank sets off. -/
def Rescans (lead : List Char) (scanner : List Char → Scan) (cs : List Char) : Prop :=
  ∀ read rest kind, scanner cs = .found read rest kind →
    ∃ body, read = lead ++ body ∧ ∀ rest', SetOff rest' →
      scanner (body ++ rest') = .found read rest' kind

/-! ## Literals with and without a boundary -/

section

variable {read rest read' rest' : List Char} {raw : Literal.Raw} {kind : Kind}

theorem Scan.eq_of_literal (h : literal read rest raw = .found read' rest' kind) :
    read' = read ∧ kind = .literal raw ∧ ∃ l, raw.value = .ok l := by
  unfold literal at h
  split at h
  next l hvalue =>
    cases h
    exact ⟨rfl, rfl, l, hvalue⟩
  next => cases h

theorem Scan.eq_of_bounded (h : bounded read rest raw = .found read' rest' kind) :
    read' = read ∧ kind = .literal raw ∧ ∃ l, raw.value = .ok l := by
  rw [bounded.eq_def] at h
  split at h
  · split at h
    · cases h
    · exact eq_of_literal h
  · exact eq_of_literal h

end

/-! ## Names -/

/-- The name at the front of a name is all of it. -/
theorem splitName_splitName (cs : List Char) : (splitName (splitName cs).1).1 = (splitName cs).1 := by
  induction cs with
  | nil => rfl
  | cons c cs ih =>
    simp only [splitName]
    split
    next hc =>
      have hword : startsWord cs = true → startsWord (splitName cs).1 = true := by
        intro hw
        cases cs with
        | nil => cases hw
        | cons d ds => simpa [splitName, Text.isNameChar_of_isNameStart hw, startsWord] using hw
      have hc' : (Text.isNameChar c || isJoint c && startsWord (splitName cs).1) = true := by
        rw [Bool.or_eq_true, Bool.and_eq_true] at hc ⊢
        exact hc.imp id (And.imp id hword)
      simp only [splitName, if_pos hc', ih]
    next => rfl

theorem nameEnd_quote (rest : List Char) : NameEnd ('\'' :: rest) := by
  rintro c ⟨⟩
  decide

/-- A typed literal is quoted. -/
theorem scanQuoted_rescans {lead : List Char} {kind : Literal.Kind}
    {finish : List Char → List Char → List Char → Scan}
    (hfinish : ∀ read rest body read' rest' kind, finish read rest body = .found read' rest' kind →
      read' = read ∧ ∀ rest', finish read rest' body = .found read rest' kind) (cs : List Char) :
    Rescans lead (scanQuoted lead kind finish) cs := by
  intro read rest kind h
  simp only [scanQuoted] at h
  split at h
  next hclosed =>
    obtain ⟨rfl, hagain⟩ := hfinish _ _ _ _ _ _ h
    refine ⟨(Text.Quoted.scan cs).read, rfl, fun rest' hrest' => ?_⟩
    simp only [scanQuoted, Text.Quoted.scan_closed hclosed hrest'.ne_quote, hclosed]
    exact hagain rest'
  next => cases h
  next => cases h

theorem scanTyped_rescans (w : TypeWord) (word cs : List Char) :
    Rescans (word ++ ['\'']) (scanTyped w word) cs := by
  refine scanQuoted_rescans ?_ cs
  intro read rest body read' rest' kind h
  unfold typedLiteral at h ⊢
  split at h
  next hkind =>
    obtain ⟨rfl, rfl, l, hvalue⟩ := Scan.eq_of_literal h
    refine ⟨rfl, fun rest => ?_⟩
    rw [Scan.literal, hvalue]
  next => cases h

theorem scanName_rescans (cs : List Char) : Rescans [] scanName cs := by
  have hname := splitName_splitName cs
  have hplain : ∀ rest', SetOff rest' → scanName ((splitName cs).1 ++ rest') =
      .found (splitName cs).1 rest' (kindOfName (String.ofList (splitName cs).1)) := by
    intro rest' hrest'
    have hquote : ∀ quoted, rest' ≠ '\'' :: quoted := by
      rintro quoted rfl
      exact hrest'.ne_quote rfl
    simp only [scanName, splitName_append_of_nameEnd hname (.of_setOff hrest')]
  intro read rest kind h
  simp only [scanName] at h
  split at h
  next quoted hquoted =>
    split at h
    next w hw =>
      obtain ⟨body, rfl, hagain⟩ := scanTyped_rescans w _ _ _ _ _ h
      refine ⟨(splitName cs).1 ++ ['\''] ++ body, rfl, fun rest' hrest' => ?_⟩
      have hsplit := splitName_append_of_nameEnd hname (nameEnd_quote (body ++ rest'))
      rw [List.append_assoc, List.append_assoc, List.singleton_append]
      simp only [scanName, hsplit, hw]
      exact hagain rest' hrest'
    next =>
      cases h
      exact ⟨_, rfl, hplain⟩
  next =>
    cases h
    exact ⟨_, rfl, hplain⟩

/-! ## Numbers -/

theorem isDigit_of_mem_run {cs : List Char} {c : Char} (h : c ∈ Digits.run cs) :
    isDigit c = true :=
  List.all_eq_true.1 List.all_takeWhile c h

/-- The digits at the front of digits are all of them, in front of whatever is none. -/
theorem run_run (cs : List Char) {rest : List Char} (hrest : ∀ c ∈ rest.head?, isDigit c = false) :
    Digits.run (Digits.run cs ++ rest) = Digits.run cs ∧
      Digits.afterRun (Digits.run cs ++ rest) = rest :=
  run_append (fun _ => isDigit_of_mem_run) hrest

theorem startsDigit_run {cs : List Char} (h : startsDigit cs = true) (rest : List Char) :
    startsDigit (Digits.run cs ++ rest) = true := by
  cases cs with
  | nil => cases h
  | cons c cs =>
    have hc : isDigit c = true := h
    simp [Digits.run, hc, startsDigit]

theorem splitPlaces_splitPlaces (cs : List Char) {rest : List Char}
    (hrest : ∀ c ∈ rest.head?, isDigit c = false ∧ c ≠ '.') :
    splitPlaces ((splitPlaces cs).1 ++ rest) = ((splitPlaces cs).1, rest) := by
  have hnone : splitPlaces rest = ([], rest) := by
    cases rest with
    | nil => rfl
    | cons c rest =>
      rw [splitPlaces]
      rintro ds ⟨⟩
      exact (hrest '.' rfl).2 rfl
  fun_cases splitPlaces cs with
  | case1 cs hdigit =>
    obtain ⟨hrun, hafter⟩ := run_run cs fun c hc => (hrest c hc).1
    rw [List.cons_append, splitPlaces, if_pos (startsDigit_run hdigit rest), hrun, hafter]
  | case2 => exact hnone
  | case3 => exact hnone

theorem splitPower_splitPower (cs : List Char) {rest : List Char} (hrest : NumeralEnd rest) :
    splitPower ((splitPower cs).1 ++ rest) = ((splitPower cs).1, rest) := by
  have hdigits : ∀ cs, Digits.run (Digits.run cs ++ rest) = Digits.run cs ∧
      Digits.afterRun (Digits.run cs ++ rest) = rest :=
    fun cs => run_run cs fun c hc => (endsNumeral_spec (hrest c hc)).2.1
  fun_cases splitPower cs with
  | case1 e s cs he hs =>
    obtain ⟨hrun, hafter⟩ := hdigits (s :: cs)
    have hcons : Digits.run (s :: cs) = s :: Digits.run cs := by simp [Digits.run, hs]
    rw [hcons, List.cons_append] at hrun hafter
    rw [hcons, List.cons_append, List.cons_append, splitPower, if_pos he, if_pos hs, hrun, hafter]
  | case2 e s cs he hs hsign =>
    obtain ⟨hrun, hafter⟩ := hdigits cs
    rw [Bool.and_eq_true] at hsign
    have hsign' : ((s = '+' || s = '-') && startsDigit (Digits.run cs ++ rest)) = true := by
      rw [Bool.and_eq_true]
      exact ⟨hsign.1, startsDigit_run hsign.2 rest⟩
    rw [List.cons_append, List.cons_append, splitPower, if_pos he, if_neg hs, if_pos hsign', hrun,
      hafter]
  | case3 => exact splitPower_of_end hrest
  | case4 => exact splitPower_of_end hrest
  | case5 => exact splitPower_of_end hrest

/-- What follows the fraction of a number is its power, or what ends it. -/
theorem head_splitPower (cs : List Char) {rest : List Char} (hrest : NumeralEnd rest) :
    ∀ c ∈ ((splitPower cs).1 ++ rest).head?,
      isDecimalDigit c = false ∧ isDigit c = false ∧ c ≠ '.' ∧ c ≠ '-' := by
  have hmark : ∀ e, (e = 'e' || e = 'E') = true → ∀ ds : List Char, ∀ c ∈ (e :: ds).head?,
      isDecimalDigit c = false ∧ isDigit c = false ∧ c ≠ '.' ∧ c ≠ '-' := by
    rintro e he ds c ⟨⟩
    rw [Bool.or_eq_true, decide_eq_true_iff, decide_eq_true_iff] at he
    rcases he with rfl | rfl <;> decide
  have hend : ∀ c ∈ ([] ++ rest).head?,
      isDecimalDigit c = false ∧ isDigit c = false ∧ c ≠ '.' ∧ c ≠ '-' := by
    intro c hc
    obtain ⟨hdecimal, hdigit, hpoint, -, -, hminus⟩ := endsNumeral_spec (hrest c hc)
    exact ⟨hdecimal, hdigit, hpoint, hminus⟩
  fun_cases splitPower cs with
  | case1 e s cs he => exact hmark e he _
  | case2 e s cs he => exact hmark e he _
  | case3 => exact hend
  | case4 => exact hend
  | case5 => exact hend

/-- What follows the whole digits of a number does not make them the year of a date. -/
theorem head_splitPlaces (cs ds : List Char) {rest : List Char} (hrest : NumeralEnd rest) :
    ∀ c ∈ ((splitPlaces cs).1 ++ ((splitPower ds).1 ++ rest)).head?,
      isDecimalDigit c = false ∧ isDigit c = false ∧ c ≠ '-' := by
  have hpower : ∀ c ∈ ([] ++ ((splitPower ds).1 ++ rest)).head?,
      isDecimalDigit c = false ∧ isDigit c = false ∧ c ≠ '-' := by
    intro c hc
    obtain ⟨hdecimal, hdigit, -, hminus⟩ := head_splitPower ds hrest c hc
    exact ⟨hdecimal, hdigit, hminus⟩
  fun_cases splitPlaces cs with
  | case1 =>
    rintro c ⟨⟩
    decide
  | case2 => exact hpower
  | case3 => exact hpower

/-- The number at the front of a text is a number in front of whatever ends it. -/
theorem Numeral.written_ofChars {cs : List Char} (h : startsDigit cs = true) :
    Numeral.Written (ofChars cs).digits (ofChars cs).fractional where
  starts := by
    have := startsDigit_run h
    simp only [ofChars, List.append_assoc, this]
  splits rest hrest := by
    have hpower := splitPower_splitPower (splitPlaces (Digits.afterRun cs)).2 hrest
    have hplaces := splitPlaces_splitPlaces (Digits.afterRun cs) fun c hc =>
      (head_splitPower (splitPlaces (Digits.afterRun cs)).2 hrest c hc).2.imp id And.left
    obtain ⟨hrun, hafter⟩ := run_run cs fun c hc =>
      (head_splitPlaces (Digits.afterRun cs) (splitPlaces (Digits.afterRun cs)).2 hrest c hc).2.1
    simp only [ofChars, List.append_assoc, hrun, hafter, hplaces, hpower]
  noDate rest hrest := by
    simp only [ofChars, List.append_assoc]
    refine splitDate?_digits (fun _ => isDigit_of_mem_run) fun c hc => ?_
    obtain ⟨hdecimal, -, hminus⟩ := head_splitPlaces _ _ hrest c hc
    exact ⟨hdecimal, hminus⟩

theorem endsNumeral_of_letter {fractional : Bool} {c : Char} {kind : Literal.Kind}
    (h : kindOfLetter? fractional c = some kind) : endsNumeral c = true := by
  unfold kindOfLetter? at h
  split at h <;> first | rfl | cases h

theorem kindOfLetter?_of_setOff {rest : List Char} (h : SetOff rest) (fractional : Bool) :
    ∀ c ∈ rest.head?, kindOfLetter? fractional c = none :=
  fun c hc => Text.of_isBlank (kindOfLetter? fractional · = none) (h c hc)
    (by cases fractional <;> decide +kernel)

theorem scanPlain_again {sign read rest : List Char} {n : Numeral} {kind : Kind}
    (h : scanPlain sign n = .found read rest kind) :
    read = sign ++ n.digits ∧ ∀ rest', NameEnd rest' →
      scanPlain sign ⟨n.digits, n.fractional, rest'⟩ = .found read rest' kind := by
  simp only [scanPlain] at h ⊢
  split at h
  next hfractional =>
    obtain ⟨rfl, rfl, l, hvalue⟩ := Scan.eq_of_bounded h
    refine ⟨rfl, fun rest' hrest' => ?_⟩
    rw [if_pos hfractional]
    exact Scan.bounded_of_value hvalue hrest'
  next hfractional =>
    split at h
    next hkind =>
      obtain ⟨rfl, rfl, l, hvalue⟩ := Scan.eq_of_bounded h
      refine ⟨rfl, fun rest' hrest' => ?_⟩
      rw [if_neg hfractional]
      exact Scan.bounded_of_value hvalue hrest'
    next => cases h

/-- Where no letter follows the digits of a number, none tells its kind. -/
theorem scanNumber_of_end (sign : List Char) {digits rest : List Char} {fractional : Bool}
    (hw : Numeral.Written digits fractional) (hend : NumeralEnd rest)
    (hletter : ∀ c ∈ rest.head?, kindOfLetter? fractional c = none) :
    scanNumber sign (digits ++ rest) = scanPlain sign ⟨digits, fractional, rest⟩ := by
  rw [scanNumber, hw.splits _ hend]
  cases rest with
  | nil => rfl
  | cons c rest => simp only [hletter c rfl]

theorem startsDigit_append {cs : List Char} (h : startsDigit cs = true) (rest : List Char) :
    startsDigit (cs ++ rest) = true := by
  cases cs with
  | nil => cases h
  | cons c cs => exact h

/-- A number is scanned again, and still begins with a digit and is no date. -/
theorem scanNumber_again {sign cs read rest : List Char} {kind : Kind}
    (hcs : startsDigit cs = true) (h : scanNumber sign cs = .found read rest kind) :
    ∃ body, read = sign ++ body ∧ ∀ rest', SetOff rest' →
      scanNumber sign (body ++ rest') = .found read rest' kind ∧
        startsDigit (body ++ rest') = true ∧ BareDate.splitDate? (body ++ rest') = none := by
  have hw := Numeral.written_ofChars hcs
  have hplain : scanPlain sign (Numeral.ofChars cs) = .found read rest kind →
      ∃ body, read = sign ++ body ∧ ∀ rest', SetOff rest' →
        scanNumber sign (body ++ rest') = .found read rest' kind ∧
          startsDigit (body ++ rest') = true ∧ BareDate.splitDate? (body ++ rest') = none := by
    intro h
    obtain ⟨hread, hagain⟩ := scanPlain_again h
    refine ⟨(Numeral.ofChars cs).digits, hread, fun rest' hrest' => ?_⟩
    have hend := NumeralEnd.of_setOff hrest'
    refine ⟨?_, startsDigit_append hw.starts _, hw.noDate _ hend⟩
    rw [scanNumber_of_end sign hw hend (kindOfLetter?_of_setOff hrest' _)]
    exact hagain rest' (.of_setOff hrest')
  simp only [scanNumber] at h
  split at h
  next c behind hbehind =>
    split at h
    next letterKind hletter =>
      obtain ⟨rfl, rfl, l, hvalue⟩ := Scan.eq_of_bounded h
      refine ⟨(Numeral.ofChars cs).digits ++ [c], List.append_assoc _ _ _, fun rest' hrest' => ?_⟩
      have hend : NumeralEnd (c :: rest') := by
        rintro _ ⟨⟩
        exact endsNumeral_of_letter hletter
      rw [List.append_assoc, List.singleton_append]
      refine ⟨?_, startsDigit_append hw.starts _, hw.noDate _ hend⟩
      rw [scanNumber, hw.splits _ hend]
      simp only [hletter]
      exact Scan.bounded_of_value hvalue (.of_setOff hrest')
    next => exact hplain h
  next => exact hplain h

/-! ## Dates -/

namespace BareDate

/-- What follows begins with a character that ends the part before it. -/
def Behind (ends : Char → Prop) (cs : List Char) : Prop := ∀ c ∈ cs.head?, ends c

/-- Splitting takes a part off that part again, in front of whatever ends it, and nothing off what
    does. -/
structure Settles (ends : Char → Prop) (split : List Char → Option (List Char × List Char)) :
    Prop where
  again : ∀ cs r rest, split cs = some r → Behind ends rest → split (r.1 ++ rest) = some (r.1, rest)
  refuses : ∀ rest, Behind ends rest → split rest = none

theorem Behind.mono {p q : Char → Prop} {cs : List Char} (h : Behind p cs)
    (himp : ∀ c, p c → q c) : Behind q cs :=
  fun c hc => himp c (h c hc)

theorem Settles.optional {ends : Char → Prop} {split : List Char → Option (List Char × List Char)}
    (h : Settles ends split) (cs : List Char) {rest : List Char} (hrest : Behind ends rest) :
    optional split ((optional split cs).1 ++ rest) = ((optional split cs).1, rest) := by
  unfold BareDate.optional
  cases hs : split cs with
  | none => rw [Option.getD_none, List.nil_append, h.refuses rest hrest, Option.getD_none]
  | some r => rw [Option.getD_some, h.again cs r rest hs hrest, Option.getD_some]

theorem follow_again {form : List (Char → Bool)} {cs : List Char} {r : List Char × List Char}
    (h : follow form cs = some r) (rest : List Char) :
    follow form (r.1 ++ rest) = some (r.1, rest) := by
  induction form generalizing cs r with
  | nil =>
    cases h
    rfl
  | cons p form ih =>
    cases cs with
    | nil => cases h
    | cons c cs =>
      simp only [follow] at h
      split at h
      next hp =>
        obtain ⟨t, ht, rfl⟩ := Option.map_eq_some_iff.1 h
        rw [List.cons_append, follow, if_pos hp, ih ht]
        rfl
      next => cases h

/-- A form is not followed where its first condition fails. -/
theorem follow_refuses {p : Char → Bool} (form : List (Char → Bool)) {rest : List Char}
    (hrest : Behind (p · = false) rest) : follow (p :: form) rest = none := by
  cases rest with
  | nil => rfl
  | cons c rest => rw [follow, hrest c rfl, if_neg (by decide)]

/-- What follows a form begins with a character that satisfies its first condition. -/
theorem head_of_follow {p : Char → Bool} {form : List (Char → Bool)} {cs : List Char}
    {r : List Char × List Char} (h : follow (p :: form) cs = some r) :
    ∃ c ds, r.1 = c :: ds ∧ p c = true := by
  cases cs with
  | nil => cases h
  | cons c cs =>
    simp only [follow] at h
    split at h
    next hp =>
      obtain ⟨t, -, rfl⟩ := Option.map_eq_some_iff.1 h
      exact ⟨c, t.1, rfl, hp⟩
    next => cases h

/-- A character that ends a fraction. -/
abbrev EndsFraction (c : Char) : Prop := isDecimalDigit c = false ∧ (c == '.') = false

/-- A character that ends the seconds, with or without a fraction. -/
abbrev EndsSecond (c : Char) : Prop := EndsFraction c ∧ (c == ':') = false

/-- A character that ends an offset. -/
abbrev EndsOffset (c : Char) : Prop := (c == 'Z') = false ∧ (c == '+' || c == '-') = false

/-- A character that ends a date, with or without a time of day. -/
abbrev EndsDate (c : Char) : Prop := EndsSecond c ∧ EndsOffset c ∧ (c == 'T') = false

theorem settles_fraction : Settles EndsFraction splitFraction? where
  again cs r rest h hrest := by
    unfold splitFraction? at h
    split at h
    next read behind hfollow =>
      cases h
      have hdigits : ∀ c ∈ behind.takeWhile isDecimalDigit, isDecimalDigit c = true :=
        fun c hc => List.all_eq_true.1 List.all_takeWhile c hc
      have hend : rest.takeWhile isDecimalDigit = [] ∧ rest.dropWhile isDecimalDigit = rest := by
        cases rest with
        | nil => exact ⟨rfl, rfl⟩
        | cons c rest => simp [(hrest c rfl).1]
      rw [splitFraction?, List.append_assoc, follow_again hfollow]
      simp only [List.takeWhile_append_of_pos hdigits, List.dropWhile_append_of_pos hdigits, hend,
        List.append_nil]
    next => cases h
  refuses rest hrest := by
    rw [splitFraction?, follow_refuses _ (hrest.mono fun _ => And.right)]

theorem settles_second : Settles EndsSecond splitSecond? where
  again cs r rest h hrest := by
    obtain ⟨⟨read, behind⟩, hfollow, rfl⟩ := Option.map_eq_some_iff.1 h
    have hfraction := settles_fraction.optional behind (hrest.mono fun _ => And.left)
    rw [splitSecond?, List.append_assoc, follow_again hfollow]
    simp only [Option.map_some, hfraction]
  refuses rest hrest := by
    rw [splitSecond?, secondForm, follow_refuses _ (hrest.mono fun _ => And.right), Option.map_none]

theorem settles_offset : Settles EndsOffset splitOffset? where
  again cs r rest h hrest := by
    rcases Option.or_eq_some_iff.1 h with h | ⟨hnone, h⟩
    · rw [splitOffset?, follow_again h, Option.some_or]
    · obtain ⟨c, ds, hr, hsign⟩ := head_of_follow h
      have hzone : (c == 'Z') = false := by
        rw [Bool.or_eq_true, beq_iff_eq, beq_iff_eq] at hsign
        rcases hsign with rfl | rfl <;> rfl
      have hbehind : Behind (fun d => (d == 'Z') = false) (r.1 ++ rest) := by
        rw [hr]
        rintro _ ⟨⟩
        exact hzone
      rw [splitOffset?, follow_refuses _ hbehind, follow_again h, Option.none_or]
  refuses rest hrest := by
    rw [splitOffset?, offsetForm, follow_refuses _ (hrest.mono fun _ => And.left),
      follow_refuses _ (hrest.mono fun _ => And.right), Option.none_or]

/-- An offset, if there is one, ends the seconds. -/
theorem endsSecond_offset (cs : List Char) {rest : List Char} (hrest : Behind EndsDate rest) :
    Behind EndsSecond ((optional splitOffset? cs).1 ++ rest) := by
  unfold optional
  cases hs : splitOffset? cs with
  | none => exact hrest.mono fun _ => And.left
  | some r =>
    have hhead : ∃ c ds, r.1 = c :: ds ∧ EndsSecond c := by
      rcases Option.or_eq_some_iff.1 hs with h | ⟨-, h⟩
      · obtain ⟨c, ds, hr, hc⟩ := head_of_follow h
        rw [beq_iff_eq] at hc
        exact ⟨c, ds, hr, hc ▸ by decide⟩
      · obtain ⟨c, ds, hr, hc⟩ := head_of_follow h
        rw [Bool.or_eq_true, beq_iff_eq, beq_iff_eq] at hc
        exact ⟨c, ds, hr, by rcases hc with rfl | rfl <;> decide⟩
    obtain ⟨c, ds, hr, hc⟩ := hhead
    rw [Option.getD_some, hr]
    rintro _ ⟨⟩
    exact hc

theorem settles_clock : Settles EndsDate splitClock? where
  again cs r rest h hrest := by
    obtain ⟨⟨read, behind⟩, hfollow, rfl⟩ := Option.map_eq_some_iff.1 h
    have hoffset := settles_offset.optional (optional splitSecond? behind).2
      (hrest.mono fun _ h => h.2.1)
    have hsecond := settles_second.optional behind
      (endsSecond_offset (optional splitSecond? behind).2 hrest)
    rw [splitClock?, List.append_assoc, List.append_assoc, follow_again hfollow]
    simp only [Option.map_some, hsecond, hoffset, List.append_assoc]
  refuses rest hrest := by
    rw [splitClock?, minuteForm, follow_refuses _ (hrest.mono fun _ h => h.2.2), Option.map_none]

theorem splitDate?_again {cs : List Char} {r : List Char × List Char}
    (h : splitDate? cs = some r) {rest : List Char} (hrest : Behind EndsDate rest) :
    splitDate? (r.1 ++ rest) = some (r.1, rest) := by
  obtain ⟨⟨read, behind⟩, hfollow, rfl⟩ := Option.map_eq_some_iff.1 h
  have hclock := settles_clock.optional behind hrest
  rw [splitDate?, List.append_assoc, follow_again hfollow]
  simp only [Option.map_some, hclock]

end BareDate

/-! ## All tokens -/

theorem scanUnsigned_rescans {cs : List Char} (hcs : startsDigit cs = true) :
    Rescans [] scanUnsigned cs := by
  intro read rest kind h
  unfold scanUnsigned at h
  split at h
  next date behind hdate =>
    obtain ⟨rfl, rfl, l, hvalue⟩ := Scan.eq_of_bounded h
    refine ⟨read, rfl, fun rest' hrest' => ?_⟩
    have hends : BareDate.Behind BareDate.EndsDate rest' :=
      fun c hc => Text.of_isBlank BareDate.EndsDate (hrest' c hc) (by decide +kernel)
    rw [scanUnsigned, BareDate.splitDate?_again hdate hends]
    exact Scan.bounded_of_value hvalue (.of_setOff hrest')
  next =>
    obtain ⟨body, hread, hagain⟩ := scanNumber_again hcs h
    refine ⟨body, hread, fun rest' hrest' => ?_⟩
    obtain ⟨hnumber, -, hnone⟩ := hagain rest' hrest'
    rw [scanUnsigned, hnone]
    exact hnumber

theorem startsInfinity_of_setOff {rest : List Char} (hrest : SetOff rest) :
    startsDigit rest = false ∧ startsInfinity rest = false := by
  cases rest with
  | nil => exact ⟨rfl, rfl⟩
  | cons c rest =>
    have hc := Text.of_isBlank (fun c => Text.isDigit c = false ∧ c ≠ 'I') (hrest c rfl)
      (by decide +kernel)
    refine ⟨hc.1, ?_⟩
    simp [startsInfinity, infinityWord, List.isPrefixOf, hc.2.symm]

theorem scanMinus_rescans (afterOperand : Bool) (cs : List Char) :
    Rescans ['-'] (scanMinus afterOperand) cs := by
  intro read rest kind h
  unfold scanMinus at h
  split at h
  next hdigit =>
    rw [Bool.and_eq_true] at hdigit
    obtain ⟨body, hread, hagain⟩ := scanNumber_again hdigit.2 h
    refine ⟨body, hread, fun rest' hrest' => ?_⟩
    obtain ⟨hnumber, hstarts, -⟩ := hagain rest' hrest'
    rw [scanMinus, hdigit.1, hstarts]
    exact hnumber
  split at h
  next hinfinity =>
    rw [Bool.and_eq_true] at hinfinity
    cases h
    refine ⟨infinityWord, rfl, fun rest' hrest' => ?_⟩
    have hname : rest'.head?.any Text.isNameChar = false := by
      cases rest' with
      | nil => rfl
      | cons d ds => exact (NameEnd.of_setOff hrest' d rfl).1
    have hstarts : startsInfinity (infinityWord ++ rest') = true := by
      simp [startsInfinity, infinityWord, List.isPrefixOf, hname]
    have hdigit : startsDigit (infinityWord ++ rest') = false := rfl
    rw [scanMinus, hdigit, hstarts, hinfinity.1]
    rfl
  next =>
    cases h
    refine ⟨[], rfl, fun rest' hrest' => ?_⟩
    obtain ⟨hdigit, hinfinity⟩ := startsInfinity_of_setOff hrest'
    rw [List.nil_append, scanMinus, hdigit, hinfinity, Bool.and_false]
    rfl

/-- A plus is a token only as the sign of a number. -/
theorem scan_plus_rescans (afterOperand : Bool) (cs : List Char) :
    Rescans ['+'] (scan afterOperand '+') cs := by
  intro read rest kind h
  have hscan : ∀ ds, startsDigit ds = true → scan afterOperand '+' ds = scanNumber ['+'] ds := by
    intro ds hds
    simp [scan, hds]
  cases hdigit : startsDigit cs with
  | false =>
    have hfailed : scan afterOperand '+' cs = .failed [] ('+' :: cs) (.unexpectedChar '+') 0 := by
      rw [scan, hdigit]
      rfl
    rw [hfailed] at h
    cases h
  | true =>
    rw [hscan cs hdigit] at h
    obtain ⟨body, hbody, hagain⟩ := scanNumber_again hdigit h
    refine ⟨body, hbody, fun rest' hrest' => ?_⟩
    obtain ⟨hnumber, hstarts, -⟩ := hagain rest' hrest'
    rw [hscan _ hstarts]
    exact hnumber

/-- What a scanner finds that also passes the first character begins with it. -/
theorem Rescans.first {scanner : List Char → Scan} {c : Char} {cs : List Char}
    (h : Rescans [] scanner (c :: cs)) {read rest : List Char} {kind : Kind}
    (hfound : scanner (c :: cs) = .found read rest kind) (hread : ∃ ds, read = c :: ds) :
    ∃ body, read = [c] ++ body ∧ ∀ rest', SetOff rest' →
      scanner (c :: (body ++ rest')) = .found read rest' kind := by
  obtain ⟨ds, rfl⟩ := hread
  obtain ⟨body, hbody, hagain⟩ := h _ _ _ hfound
  rw [List.nil_append] at hbody
  subst hbody
  exact ⟨ds, rfl, hagain⟩

/-- What is scanned as a token is scanned as the same token in front of a blank, and at the end of
    a text. -/
theorem scan_rescans (afterOperand : Bool) (c : Char) (cs : List Char) :
    Rescans [c] (scan afterOperand c) cs := by
  intro read rest kind h
  have hread : ∃ ds, read = c :: ds := by
    obtain ⟨hcovers, hne⟩ := Lexer.append_eq_of_found h
    obtain ⟨d, ds, rfl⟩ := List.exists_cons_of_ne_nil hne
    exact ⟨ds, by rw [(List.cons.inj hcovers).1]⟩
  by_cases hquote : c = '\''
  · subst hquote
    have hscan : ∀ ds, scan afterOperand '\'' ds = scanString ds := fun ds => rfl
    rw [hscan] at h
    refine scanQuoted_rescans ?_ cs read rest kind h
    rintro read rest body read' rest' kind ⟨⟩
    exact ⟨rfl, fun _ => rfl⟩
  by_cases hminus : c = '-'
  · subst hminus
    exact scanMinus_rescans afterOperand cs read rest kind h
  by_cases hplus : c = '+'
  · subst hplus
    exact scan_plus_rescans afterOperand cs read rest kind h
  by_cases hdigit : Text.isDigit c = true
  · have hscan : ∀ ds, scan afterOperand c ds = scanUnsigned (c :: ds) := by
      intro ds
      simp [scan, hquote, hminus, hplus, hdigit]
    rw [hscan] at h
    have hstarts : startsDigit (c :: cs) = true := hdigit
    obtain ⟨body, hbody, hagain⟩ := (scanUnsigned_rescans hstarts).first h hread
    exact ⟨body, hbody, fun rest' hrest' => (hscan _).trans (hagain rest' hrest')⟩
  by_cases hstart : Text.isNameStart c = true
  · have hscan := scan_of_isNameStart afterOperand hstart
    rw [hscan] at h
    obtain ⟨body, hbody, hagain⟩ := (scanName_rescans (c :: cs)).first h hread
    exact ⟨body, hbody, fun rest' hrest' => (hscan _).trans (hagain rest' hrest')⟩
  · cases hmark : Mark.ofChar? c with
    | none => simp [scan, hquote, hminus, hplus, hdigit, hstart, hmark, Scan.failed, Scan.found] at h
    | some m =>
      have hscan : ∀ ds, scan afterOperand c ds = .found [c] ds (.mark m) := by
        intro ds
        simp [scan, hquote, hminus, hplus, hdigit, hstart, hmark]
      rw [hscan] at h
      cases h
      exact ⟨[], rfl, fun rest' _ => hscan rest'⟩

end Token
end QueryExpr
