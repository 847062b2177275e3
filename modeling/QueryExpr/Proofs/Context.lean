import QueryExpr.Proofs.Rescan

/-!
# Texts in other texts

If a delimiter, and whatever comes behind it, is put behind a text, scanners find the same tokens in
the text as before. What they leave has the delimiter behind it too.

* `Token.carry`: a split text with something behind it.
* `Token.scan_carries`: what a scan finds it finds in front of a delimiter.
* `Lexer.lexed_of_tokenize`: a text is read as its tokens in front of a delimiter.
-/

namespace QueryExpr

/-- A body that ends at its closing quote ends there if something other than a quote is put behind
    the text. -/
theorem Text.Quoted.scan_append {cs tail : List Char} (h : (scan cs).ending = .closed)
    (htail : tail.head? ≠ some '\'') :
    scan (cs ++ tail) = { scan cs with rest := (scan cs).rest ++ tail } := by
  fun_induction scan cs with
  | case1 => cases h
  | case2 cs ih =>
    rw [List.cons_append, List.cons_append, scan, ih h]
    rfl
  | case3 cs hquote =>
    have hne : ∀ ds, cs ++ tail ≠ '\'' :: ds := by
      intro ds hds
      cases cs with
      | nil =>
        rw [List.nil_append] at hds
        rw [hds] at htail
        exact htail rfl
      | cons c cs =>
        rw [(List.cons.inj hds).1] at hquote
        exact hquote cs rfl
    rw [List.cons_append, scan]
    exact hne
  | case4 c cs _ hc hplain ih =>
    rw [List.cons_append, scan, if_pos hplain, ih h]
    · rfl
    · exact fun _ hquote => absurd hquote hc
    · exact hc
  | case5 => cases h

namespace Token

open Number (Digits.run Digits.afterRun)
open Text (isDigit isDecimalDigit)

/-- A split text with more behind it. -/
def carry (tail : List Char) (r : List Char × List Char) : List Char × List Char :=
  (r.1, r.2 ++ tail)

/-- What a scan finds, another one finds with more behind it. -/
def Scan.Carries (tail : List Char) (s s' : Scan) : Prop :=
  ∀ read rest kind, s = .found read rest kind → s' = .found read (rest ++ tail) kind

section

variable {tail : List Char}

/-- What ends in front of `tail` ends there behind any text. -/
theorem takeWhile_append_of_head {p : Char → Bool} (hp : ∀ c ∈ tail.head?, p c = false)
    (cs : List Char) : (cs ++ tail).takeWhile p = cs.takeWhile p ∧
      (cs ++ tail).dropWhile p = cs.dropWhile p ++ tail := by
  induction cs with
  | nil =>
    cases tail with
    | nil => simp
    | cons c tail => simp [hp c rfl]
  | cons c cs ih =>
    by_cases hc : p c = true
    · simp [hc, ih]
    · simp [hc]

variable (h : Delimited tail)

include h

/-- What holds of each delimiter holds of the character at the front. -/
theorem Delimited.head (p : Char → Prop) (hall : p ' ' ∧ p '(' ∧ p ')' ∧ p ',') :
    ∀ c ∈ tail.head?, p c :=
  fun c hc => of_isDelimiter p (h c hc) hall

/-! ## Numbers -/

theorem startsDigit_carry (cs : List Char) : startsDigit (cs ++ tail) = startsDigit cs := by
  cases cs with
  | nil =>
    cases tail with
    | nil => rfl
    | cons c tail => exact h.head (isDigit · = false) (by decide) c rfl
  | cons c cs => rfl

theorem run_carry (cs : List Char) : Digits.run (cs ++ tail) = Digits.run cs ∧
    Digits.afterRun (cs ++ tail) = Digits.afterRun cs ++ tail :=
  takeWhile_append_of_head (h.head (isDigit · = false) (by decide)) cs

theorem splitPlaces_carry (cs : List Char) :
    splitPlaces (cs ++ tail) = carry tail (splitPlaces cs) := by
  fun_cases splitPlaces cs with
  | case1 cs hdigit =>
    obtain ⟨hrun, hafter⟩ := run_carry h cs
    rw [List.cons_append, splitPlaces, startsDigit_carry h, if_pos hdigit, hrun, hafter]
    rfl
  | case2 cs hdigit =>
    rw [List.cons_append, splitPlaces, startsDigit_carry h, if_neg hdigit]
    rfl
  | case3 cs hpoint =>
    cases cs with
    | nil => exact splitPlaces_of_end (.of_delimited h)
    | cons c cs =>
      rw [List.cons_append, splitPlaces]
      · rfl
      · rintro ds ⟨⟩
        exact hpoint cs rfl

theorem splitPower_carry (cs : List Char) :
    splitPower (cs ++ tail) = carry tail (splitPower cs) := by
  match cs with
  | [] => exact splitPower_of_end (.of_delimited h)
  | [e] =>
    cases tail with
    | nil => rfl
    | cons d tail =>
      obtain ⟨hdigit, hplus, hminus⟩ :=
        h.head (fun d => isDigit d = false ∧ d ≠ '+' ∧ d ≠ '-') (by decide) d rfl
      simp [splitPower, carry, hdigit, hplus, hminus]
  | e :: s :: cs =>
    obtain ⟨hrun, hafter⟩ := run_carry h cs
    obtain ⟨hrun', hafter'⟩ := run_carry h (s :: cs)
    rw [List.cons_append] at hrun' hafter'
    rw [List.cons_append, List.cons_append, splitPower, splitPower, startsDigit_carry h, hrun,
      hafter, hrun', hafter']
    split
    · split
      · rfl
      · split <;> rfl
    · rfl

theorem Numeral.ofChars_carry (cs : List Char) :
    ofChars (cs ++ tail) = { ofChars cs with rest := (ofChars cs).rest ++ tail } := by
  obtain ⟨hrun, hafter⟩ := run_carry h cs
  simp only [ofChars, hrun, hafter, splitPlaces_carry h, splitPower_carry h, carry]

omit h in
theorem Scan.literal_carries (read rest : List Char) (raw : Literal.Raw) :
    Carries tail (literal read rest raw) (literal read (rest ++ tail) raw) := by
  intro read' rest' kind hfound
  unfold literal at hfound ⊢
  split at hfound
  · cases hfound
    rfl
  · cases hfound

theorem Scan.bounded_carries (read rest : List Char) (raw : Literal.Raw) :
    Carries tail (bounded read rest raw) (bounded read (rest ++ tail) raw) := by
  intro read' rest' kind hfound
  cases rest with
  | nil =>
    obtain ⟨-, -, l, hvalue⟩ := Scan.eq_of_bounded hfound
    rw [bounded_of_value hvalue (by rintro _ ⟨⟩)] at hfound
    cases hfound
    exact bounded_of_value hvalue (.of_delimited h)
  | cons c rest =>
    rw [bounded] at hfound
    split at hfound
    · cases hfound
    next hc =>
      rw [List.cons_append, bounded, if_neg hc]
      exact literal_carries _ _ _ _ _ _ hfound

theorem scanPlain_carries (sign : List Char) (n : Numeral) :
    Scan.Carries tail (scanPlain sign n) (scanPlain sign { n with rest := n.rest ++ tail }) := by
  intro read rest kind hfound
  unfold scanPlain at hfound ⊢
  dsimp only at hfound ⊢
  by_cases hfractional : n.fractional = true
  · rw [if_pos hfractional] at hfound ⊢
    exact Scan.bounded_carries h _ _ _ _ _ _ hfound
  · rw [if_neg hfractional] at hfound ⊢
    split at hfound
    · exact Scan.bounded_carries h _ _ _ _ _ _ hfound
    · cases hfound

theorem scanNumber_carries (sign cs : List Char) :
    Scan.Carries tail (scanNumber sign cs) (scanNumber sign (cs ++ tail)) := by
  intro read rest kind hfound
  have hplain := scanPlain_carries h sign (Numeral.ofChars cs) read rest kind
  rw [scanNumber] at hfound ⊢
  rw [Numeral.ofChars_carry h]
  cases hrest : (Numeral.ofChars cs).rest with
  | nil =>
    simp only [hrest] at hfound hplain ⊢
    cases tail with
    | nil => exact hplain hfound
    | cons d tail =>
      have hletter : kindOfLetter? (Numeral.ofChars cs).fractional d = none := by
        refine h.head (kindOfLetter? _ · = none) ?_ d rfl
        cases (Numeral.ofChars cs).fractional <;> decide
      rw [List.nil_append] at hplain ⊢
      simp only [hletter]
      exact hplain hfound
  | cons c behind =>
    simp only [hrest] at hfound hplain ⊢
    rw [List.cons_append] at hplain ⊢
    dsimp only
    split
    next letterKind hletter =>
      simp only [hletter] at hfound
      exact Scan.bounded_carries h _ _ _ _ _ _ hfound
    next hletter =>
      simp only [hletter] at hfound
      exact hplain hfound

/-! ## Dates -/

namespace BareDate

/-- Splitting takes the same off a text if something is put behind it. -/
def Carries (tail : List Char) (split : List Char → Option (List Char × List Char)) : Prop :=
  ∀ cs, split (cs ++ tail) = (split cs).map (carry tail)

/-- No condition of the form holds of a delimiter. -/
def refusesDelimiters (form : List (Char → Bool)) : Bool :=
  form.all fun p => !(p ' ' || p '(' || p ')' || p ',')

theorem follow_carries {form : List (Char → Bool)} (hform : refusesDelimiters form = true) :
    Carries tail (follow form) := by
  induction form with
  | nil => exact fun cs => rfl
  | cons p form ih =>
    obtain ⟨hp, hform⟩ := Bool.and_eq_true_iff.1 hform
    simp only [Bool.not_eq_true', Bool.or_eq_false_iff] at hp
    obtain ⟨⟨⟨hblank, hopen⟩, hclose⟩, hcomma⟩ := hp
    intro cs
    cases cs with
    | nil => exact follow_refuses form (h.head (p · = false) ⟨hblank, hopen, hclose, hcomma⟩)
    | cons c cs =>
      rw [List.cons_append, follow, follow, ih hform]
      split
      · rw [Option.map_map, Option.map_map]
        rfl
      · rfl

omit h in
theorem optional_carry {split : List Char → Option (List Char × List Char)}
    (hsplit : Carries tail split) (cs : List Char) :
    optional split (cs ++ tail) = carry tail (optional split cs) := by
  rw [optional, optional, hsplit]
  cases split cs <;> rfl

theorem fraction_carries : Carries tail splitFraction? := by
  intro cs
  rw [splitFraction?, splitFraction?, follow_carries h (by decide)]
  cases follow [(· == '.'), isDecimalDigit] cs with
  | none => rfl
  | some r =>
    obtain ⟨htake, hdrop⟩ :=
      takeWhile_append_of_head (h.head (isDecimalDigit · = false) (by decide)) r.2
    simp [carry, htake, hdrop]

theorem second_carries : Carries tail splitSecond? := by
  intro cs
  rw [splitSecond?, splitSecond?, follow_carries h (by decide), Option.map_map, Option.map_map]
  congr 1
  funext r
  simp [carry, optional_carry (fraction_carries h)]

theorem offset_carries : Carries tail splitOffset? := by
  intro cs
  rw [splitOffset?, splitOffset?, follow_carries h (by decide), follow_carries h (by decide)]
  cases follow [(· == 'Z')] cs <;> rfl

theorem clock_carries : Carries tail splitClock? := by
  intro cs
  rw [splitClock?, splitClock?, follow_carries h (by decide), Option.map_map, Option.map_map]
  congr 1
  funext r
  simp [carry, optional_carry (second_carries h), optional_carry (offset_carries h)]

theorem date_carries : Carries tail splitDate? := by
  intro cs
  rw [splitDate?, splitDate?, follow_carries h (by decide), Option.map_map, Option.map_map]
  congr 1
  funext r
  simp [carry, optional_carry (clock_carries h)]

end BareDate

theorem scanUnsigned_carries (cs : List Char) :
    Scan.Carries tail (scanUnsigned cs) (scanUnsigned (cs ++ tail)) := by
  intro read rest kind hfound
  rw [scanUnsigned] at hfound ⊢
  rw [BareDate.date_carries h]
  cases hdate : BareDate.splitDate? cs with
  | none =>
    rw [hdate] at hfound
    exact scanNumber_carries h [] cs _ _ _ hfound
  | some r =>
    rw [hdate] at hfound
    exact Scan.bounded_carries h _ _ _ _ _ _ hfound

/-! ## Names and quotations -/

theorem startsWord_carry (cs : List Char) : startsWord (cs ++ tail) = startsWord cs := by
  cases cs with
  | nil =>
    cases tail with
    | nil => rfl
    | cons c tail => exact h.head (Text.isNameStart · = false) (by decide) c rfl
  | cons c cs => rfl

theorem splitName_carry (cs : List Char) : splitName (cs ++ tail) = carry tail (splitName cs) := by
  induction cs with
  | nil => exact splitName_append_of_nameEnd rfl (.of_delimited h)
  | cons c cs ih =>
    rw [List.cons_append, splitName, splitName, startsWord_carry h, ih]
    split <;> rfl

theorem Delimited.ne_quote : tail.head? ≠ some '\'' :=
  fun hquote => h.head (· ≠ '\'') (by decide) _ hquote rfl

theorem scanQuoted_carries {lead : List Char} {kind : Literal.Kind}
    {finish : List Char → List Char → List Char → Scan}
    (hfinish : ∀ read rest body,
      Scan.Carries tail (finish read rest body) (finish read (rest ++ tail) body))
    (cs : List Char) : Scan.Carries tail (scanQuoted lead kind finish cs)
      (scanQuoted lead kind finish (cs ++ tail)) := by
  intro read rest kind' hfound
  rw [scanQuoted] at hfound
  split at hfound
  next hclosed =>
    rw [scanQuoted, Text.Quoted.scan_append hclosed h.ne_quote]
    simp only [hclosed]
    exact hfinish _ _ _ _ _ _ hfound
  next => cases hfound
  next => cases hfound

theorem scanTyped_carries (w : TypeWord) (word cs : List Char) :
    Scan.Carries tail (scanTyped w word cs) (scanTyped w word (cs ++ tail)) := by
  refine scanQuoted_carries h (fun read rest body => ?_) cs
  unfold typedLiteral
  split
  · exact Scan.literal_carries _ _ _
  · rintro _ _ _ ⟨⟩

omit h in
/-- What a name is, where no quote follows it. -/
theorem scanName_of_ne_quote {cs behind : List Char} (hrest : (splitName cs).2 = behind)
    (hquote : behind.head? ≠ some '\'') : scanName cs =
      .found (splitName cs).1 behind (kindOfName (String.ofList (splitName cs).1)) := by
  simp only [scanName]
  split
  next quoted hquoted =>
    rw [← hrest, hquoted] at hquote
    exact absurd rfl hquote
  next => rw [hrest]

theorem scanName_carries (cs : List Char) :
    Scan.Carries tail (scanName cs) (scanName (cs ++ tail)) := by
  intro read rest kind hfound
  have hcarry := splitName_carry h cs
  by_cases hquote : (splitName cs).2.head? = some '\''
  · obtain ⟨c, quoted, hquoted⟩ : ∃ c quoted, (splitName cs).2 = c :: quoted :=
      List.exists_cons_of_ne_nil (by rintro hnil; rw [hnil] at hquote; cases hquote)
    obtain rfl : c = '\'' := by simpa [hquoted] using hquote
    simp only [scanName, hquoted] at hfound
    simp only [scanName, hcarry, carry, hquoted, List.cons_append]
    split
    next w hw =>
      simp only [hw] at hfound
      exact scanTyped_carries h w _ quoted _ _ _ hfound
    next hw =>
      simp only [hw] at hfound
      cases hfound
      rfl
  · have hquote' : ((splitName cs).2 ++ tail).head? ≠ some '\'' := by
      cases hrest : (splitName cs).2 with
      | nil => exact h.ne_quote
      | cons c behind => rwa [hrest] at hquote
    rw [scanName_of_ne_quote rfl hquote] at hfound
    cases hfound
    rw [scanName_of_ne_quote (congrArg Prod.snd hcarry) hquote', congrArg Prod.fst hcarry]
    rfl

/-! ## All tokens -/

theorem startsInfinity_carry (cs : List Char) :
    startsInfinity (cs ++ tail) = startsInfinity cs := by
  have hprefix : infinityWord.isPrefixOf (cs ++ tail) = infinityWord.isPrefixOf cs := by
    rw [Bool.eq_iff_iff, List.isPrefixOf_iff_prefix, List.isPrefixOf_iff_prefix]
    constructor
    · exact infinityWord_prefix h
    · intro hp
      exact hp.trans (List.prefix_append cs tail)
  rw [startsInfinity, startsInfinity, hprefix]
  cases hp : infinityWord.isPrefixOf cs with
  | false => rfl
  | true =>
    -- the word is part of `cs`, so what follows it there is in front of `tail`
    obtain ⟨behind, rfl⟩ := List.isPrefixOf_iff_prefix.1 hp
    have hdrop : (infinityWord ++ behind).drop 3 = behind := rfl
    have hdrop' : (infinityWord ++ behind ++ tail).drop 3 = behind ++ tail := rfl
    rw [hdrop, hdrop']
    cases behind with
    | nil =>
      cases tail with
      | nil => rfl
      | cons c tail =>
        have hc := h.head (Text.isNameChar · = false) (by decide) c rfl
        simp [hc]
    | cons c behind => rfl

theorem scanMinus_carries (afterOperand : Bool) (cs : List Char) :
    Scan.Carries tail (scanMinus afterOperand cs) (scanMinus afterOperand (cs ++ tail)) := by
  intro read rest kind hfound
  rw [scanMinus] at hfound ⊢
  rw [startsDigit_carry h, startsInfinity_carry h]
  by_cases hdigit : (!afterOperand && startsDigit cs) = true
  · rw [if_pos hdigit] at hfound ⊢
    exact scanNumber_carries h ['-'] cs _ _ _ hfound
  · rw [if_neg hdigit] at hfound ⊢
    by_cases hinfinity : (!afterOperand && startsInfinity cs) = true
    · rw [if_pos hinfinity] at hfound ⊢
      cases hfound
      rw [Bool.and_eq_true, startsInfinity, Bool.and_eq_true] at hinfinity
      obtain ⟨behind, rfl⟩ := List.isPrefixOf_iff_prefix.1 hinfinity.2.1
      rfl
    · rw [if_neg hinfinity] at hfound ⊢
      cases hfound
      rfl

/-- What is scanned as a token is scanned as the same token in front of a delimiter. -/
theorem scan_carries (afterOperand : Bool) (c : Char) (cs : List Char) :
    Scan.Carries tail (scan afterOperand c cs) (scan afterOperand c (cs ++ tail)) := by
  intro read rest kind hfound
  rw [scan] at hfound ⊢
  rw [startsDigit_carry h]
  split
  next hquote =>
    rw [if_pos hquote] at hfound
    refine scanQuoted_carries h ?_ cs _ _ _ hfound
    rintro read rest body _ _ _ ⟨⟩
    rfl
  next hquote =>
  rw [if_neg hquote] at hfound
  split
  next hminus =>
    rw [if_pos hminus] at hfound
    exact scanMinus_carries h afterOperand cs _ _ _ hfound
  next hminus =>
  rw [if_neg hminus] at hfound
  split
  next hplus =>
    rw [if_pos hplus] at hfound
    exact scanNumber_carries h ['+'] cs _ _ _ hfound
  next hplus =>
  rw [if_neg hplus] at hfound
  split
  next hdigit =>
    rw [if_pos hdigit] at hfound
    exact scanUnsigned_carries h (c :: cs) _ _ _ hfound
  next hdigit =>
  rw [if_neg hdigit] at hfound
  split
  next hstart =>
    rw [if_pos hstart] at hfound
    exact scanName_carries h (c :: cs) _ _ _ hfound
  next hstart =>
  rw [if_neg hstart] at hfound
  cases hmark : Mark.ofChar? c with
  | none =>
    rw [hmark] at hfound
    cases hfound
  | some m =>
    rw [hmark] at hfound
    cases hfound
    rfl

end

end Token

/-! ## Texts -/

namespace Lexer

theorem Lexes.blanks {afterOperand : Bool} {gap rest : List Char} {kinds : List Token.Kind}
    (hgap : Blank gap) (h : Lexes afterOperand rest kinds) :
    Lexes afterOperand (gap ++ rest) kinds := by
  have hfront : (gap ++ rest).dropWhile Text.isBlank = rest.dropWhile Text.isBlank :=
    List.dropWhile_append_of_pos hgap
  cases h with
  | done h => exact .done (hfront.trans h)
  | token h hs hrest more => exact .token (hfront.trans h) hs hrest more

/-- Tokens are found again in front of a delimiter, and whatever is behind it. -/
theorem lexes_of_cuts {afterOperand : Bool} {before cs : List Char} {ts : List Token}
    (h : Cuts afterOperand before cs ts) {tail : List Char} {kinds : List Token.Kind}
    (htail : Token.Delimited tail) (more : ∀ afterOperand, Lexes afterOperand tail kinds) :
    Lexes afterOperand (cs ++ tail) (ts.map Token.kind ++ kinds) := by
  induction h with
  | done hblank => exact (more _).blanks hblank
  | @token afterOperand before gap c cs read rest kind ts hgap hc hscan _ ih =>
    have hfront : (c :: (cs ++ tail)).dropWhile Text.isBlank = c :: (cs ++ tail) := by
      simp [hc]
    have hlength : (rest ++ tail).length ≤ (cs ++ tail).length := by
      obtain ⟨happend, hne⟩ := append_eq_of_found hscan
      have := congrArg List.length happend
      have := List.length_pos_iff.2 hne
      simp only [List.length_append, List.length_cons] at *
      omega
    have htoken : Lexes afterOperand (c :: (cs ++ tail)) (kind :: (ts.map Token.kind ++ kinds)) :=
      .token hfront (Token.scan_carries htail afterOperand c cs _ _ _ hscan) hlength ih
    rw [List.append_assoc]
    exact htoken.blanks hgap

/-- A text is read as its tokens in front of any delimiter. -/
theorem lexed_of_tokenize {text : String} {ts : List Token} (h : tokenize text = .ok ts) :
    Lexed text.toList (ts.map Token.kind) :=
  fun _ _ htail more => lexes_of_cuts (cuts_of_tokenize h) htail more

end Lexer

end QueryExpr
