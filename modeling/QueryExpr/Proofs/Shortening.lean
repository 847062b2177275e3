import QueryExpr.Proofs.Rescan

/-!
# Texts that end earlier

Scanners look ahead, but only to see whether their token goes on. If a text is cut short somewhere
behind a token, there is less to see, and the token is found as before. Only a minus in front of the
word for infinity could be taken for a sign where the word has been cut out of a longer one.

* `CutsShort`, `Shrinks`: what is split off a text is split off if the text ends earlier.
* `Shortens`: what a scanner finds, it finds if the text ends earlier.
* `scan_apart`: no token ends with a character of a name where another one goes on.
* `scan_shortens`: the scan of any token finds it, unless the cut goes through a name.
-/

namespace QueryExpr

/-- What holds of the character at the front of a text holds where the text ends earlier. -/
theorem mem_head?_of_shorter {α : Type} {as bs : List α} (h : as <+: bs) {a : α}
    (ha : a ∈ as.head?) : a ∈ bs.head? := by
  obtain ⟨tail, rfl⟩ := h
  cases as with
  | nil => cases ha
  | cons b as => exact ha

/-- Behind the closing quote of a body there is no other quote. -/
theorem Text.Quoted.head?_rest_ne_quote {cs : List Char} (h : (scan cs).ending = .closed) :
    (scan cs).rest.head? ≠ some '\'' := by
  fun_induction scan cs with
  | case1 => cases h
  | case2 cs ih => exact ih h
  | case3 cs hquote =>
    intro hhead
    obtain ⟨ds, hds⟩ : ∃ ds, cs = '\'' :: ds := by
      cases cs with
      | nil => cases hhead
      | cons c ds => exact ⟨ds, by rw [Option.some.inj hhead]⟩
    exact hquote ds hds
  | case4 c cs _ _ _ ih => exact ih h
  | case5 => cases h

namespace Token

open Number (Digits.run Digits.afterRun)
open Text (isDigit isDecimalDigit)

/-! ## What is always split off -/

/-- What is split off a text is split off it if the text ends earlier. -/
def CutsShort (split : List Char → List Char × List Char) : Prop :=
  ∀ cs rest, rest <+: (split cs).2 → split ((split cs).1 ++ rest) = ((split cs).1, rest)

/-- The two parts of a text are all of it. -/
def Whole (split : List Char → List Char × List Char) : Prop :=
  ∀ cs, (split cs).1 ++ (split cs).2 = cs

theorem Whole.shorter_of_rest {split : List Char → List Char × List Char} (h : Whole split)
    {cs rest : List Char} (hrest : rest <+: (split cs).2) : (split cs).1 ++ rest <+: cs := by
  have := (List.prefix_append_right_inj (split cs).1).2 hrest
  rwa [h cs] at this

/-- Two parts of a text, one behind the other. -/
def splitBoth (f g : List Char → List Char × List Char) (cs : List Char) :
    List Char × List Char :=
  ((f cs).1 ++ (g (f cs).2).1, (g (f cs).2).2)

theorem CutsShort.both {f g : List Char → List Char × List Char} (hf : CutsShort f)
    (hg : CutsShort g) (hwhole : Whole g) : CutsShort (splitBoth f g) := by
  intro cs rest hrest
  have hfirst := hf cs _ (hwhole.shorter_of_rest hrest)
  simp only [splitBoth, List.append_assoc, hfirst, hg _ _ hrest]

theorem cutsShort_takeWhile (p : Char → Bool) :
    CutsShort fun cs => (cs.takeWhile p, cs.dropWhile p) := by
  intro cs rest hrest
  have hall : ∀ c ∈ cs.takeWhile p, p c = true :=
    fun c hc => List.all_eq_true.1 List.all_takeWhile c hc
  have hend : rest.takeWhile p = [] ∧ rest.dropWhile p = rest := by
    cases rest with
    | nil => exact ⟨rfl, rfl⟩
    | cons c rest =>
      have hc := List.head?_dropWhile_not p cs
      rw [Option.mem_def.1 (mem_head?_of_shorter hrest (a := c) rfl)] at hc
      simp [hc]
  simp [List.takeWhile_append_of_pos hall, List.dropWhile_append_of_pos hall, hend]

/-! ## Numbers -/

theorem startsDigit_of_shorter {cs rest : List Char} (h : rest <+: cs)
    (hrest : startsDigit rest = true) : startsDigit cs = true := by
  obtain ⟨tail, rfl⟩ := h
  exact startsDigit_append hrest tail

theorem run_shortens {cs rest : List Char} (h : rest <+: Digits.afterRun cs) :
    Digits.run (Digits.run cs ++ rest) = Digits.run cs ∧
      Digits.afterRun (Digits.run cs ++ rest) = rest :=
  Prod.mk.inj (cutsShort_takeWhile isDigit cs rest h)

theorem cutsShort_splitPlaces : CutsShort splitPlaces := by
  intro cs rest hrest
  fun_cases splitPlaces cs with
  | case1 cs hdigit =>
    rw [splitPlaces, if_pos hdigit] at hrest
    obtain ⟨hrun, hafter⟩ := run_shortens hrest
    rw [List.cons_append, splitPlaces, if_pos (startsDigit_run hdigit rest), hrun, hafter]
  | case2 cs hdigit =>
    rw [splitPlaces, if_neg hdigit] at hrest
    cases rest with
    | nil => rfl
    | cons c rest =>
      obtain ⟨rfl, hshorter⟩ := List.cons_prefix_cons.1 hrest
      have hdigit' : ¬startsDigit rest = true := fun h => hdigit (startsDigit_of_shorter hshorter h)
      rw [List.nil_append, splitPlaces, if_neg hdigit']
  | case3 cs hpoint =>
    rw [splitPlaces] at hrest
    · cases rest with
      | nil => rfl
      | cons c rest =>
        rw [List.nil_append, splitPlaces]
        rintro ds ⟨⟩
        obtain ⟨tail, rfl⟩ := hrest
        exact hpoint _ rfl
    · exact hpoint

theorem cutsShort_splitPower : CutsShort splitPower := by
  intro cs rest hrest
  fun_cases splitPower cs with
  | case1 e s cs he hs =>
    rw [splitPower, if_pos he, if_pos hs] at hrest
    obtain ⟨hrun, hafter⟩ := run_shortens hrest
    have hcons : Digits.run (s :: cs) = s :: Digits.run cs := by simp [Digits.run, hs]
    rw [hcons, List.cons_append] at hrun hafter
    rw [hcons, List.cons_append, List.cons_append, splitPower, if_pos he, if_pos hs, hrun, hafter]
  | case2 e s cs he hs hsign =>
    rw [splitPower, if_pos he, if_neg hs, if_pos hsign] at hrest
    obtain ⟨hrun, hafter⟩ := run_shortens hrest
    rw [Bool.and_eq_true] at hsign
    have hsign' : ((s = '+' || s = '-') && startsDigit (Digits.run cs ++ rest)) = true := by
      rw [Bool.and_eq_true]
      exact ⟨hsign.1, startsDigit_run hsign.2 rest⟩
    rw [List.cons_append, List.cons_append, splitPower, if_pos he, if_neg hs, if_pos hsign', hrun,
      hafter]
  | case3 e s cs he hs hsign =>
    rw [splitPower, if_pos he, if_neg hs, if_neg hsign] at hrest
    rcases rest with _ | ⟨c, _ | ⟨d, rest⟩⟩
    · rfl
    · rfl
    · obtain ⟨rfl, htail⟩ := List.cons_prefix_cons.1 hrest
      obtain ⟨rfl, hshorter⟩ := List.cons_prefix_cons.1 htail
      have hsign' : ¬((d = '+' || d = '-') && startsDigit rest) = true := by
        rw [Bool.and_eq_true] at hsign ⊢
        exact fun h => hsign ⟨h.1, startsDigit_of_shorter hshorter h.2⟩
      rw [List.nil_append, splitPower, if_pos he, if_neg hs, if_neg hsign']
  | case4 e s cs he =>
    rw [splitPower, if_neg he] at hrest
    rcases rest with _ | ⟨c, _ | ⟨d, rest⟩⟩
    · rfl
    · rfl
    · obtain ⟨rfl, -⟩ := List.cons_prefix_cons.1 hrest
      rw [List.nil_append, splitPower, if_neg he]
  | case5 cs hshort =>
    rw [splitPower] at hrest
    · rcases rest with _ | ⟨c, _ | ⟨d, rest⟩⟩
      · rfl
      · rfl
      · obtain ⟨tail, rfl⟩ := hrest
        exact absurd rfl (hshort c d _)
    · exact hshort

/-- The number at the front of a text is there if the text ends earlier. -/
theorem Numeral.ofChars_shortens {cs rest : List Char} (h : rest <+: (ofChars cs).rest) :
    ofChars ((ofChars cs).digits ++ rest) = { ofChars cs with rest := rest } := by
  have hpower := cutsShort_splitPower _ _ h
  have hbehind := Whole.shorter_of_rest splitPower_append h
  have hplaces := cutsShort_splitPlaces _ _ hbehind
  obtain ⟨hrun, hafter⟩ := run_shortens (Whole.shorter_of_rest splitPlaces_append hbehind)
  simp only [ofChars, List.append_assoc, hrun, hafter, hplaces, hpower]

/-- What the scanner finds at the front of `cs`, behind the characters `lead`, it finds if the text
    ends earlier, behind that. -/
def Shortens (lead : List Char) (scanner : List Char → Scan) (cs : List Char) : Prop :=
  ∀ read rest kind, scanner cs = .found read rest kind →
    ∃ body, read = lead ++ body ∧ ∀ rest', rest' <+: rest →
      scanner (body ++ rest') = .found read rest' kind

theorem Scan.literal_shortens {read rest : List Char} {raw : Literal.Raw} {read' rest' : List Char}
    {kind : Kind} (h : literal read rest raw = .found read' rest' kind) :
    read' = read ∧ rest' = rest ∧
      ∀ cut, literal read cut raw = .found read cut kind := by
  unfold literal at h ⊢
  split at h
  · cases h
    exact ⟨rfl, rfl, fun _ => rfl⟩
  · cases h

theorem Scan.bounded_shortens {read rest : List Char} {raw : Literal.Raw} {read' rest' : List Char}
    {kind : Kind} (h : bounded read rest raw = .found read' rest' kind) :
    read' = read ∧ rest' = rest ∧
      ∀ cut, cut <+: rest → bounded read cut raw = .found read cut kind := by
  cases rest with
  | nil =>
    obtain ⟨rfl, rfl, hcut⟩ := literal_shortens h
    refine ⟨rfl, rfl, fun cut hshorter => ?_⟩
    rw [List.prefix_nil.1 hshorter]
    exact hcut []
  | cons c rest =>
    rw [bounded] at h
    split at h
    · cases h
    next hc =>
      obtain ⟨rfl, rfl, hcut⟩ := literal_shortens h
      refine ⟨rfl, rfl, fun cut hshorter => ?_⟩
      cases cut with
      | nil => exact hcut []
      | cons d cut =>
        obtain ⟨rfl, -⟩ := List.cons_prefix_cons.1 hshorter
        rw [bounded, if_neg hc]
        exact hcut (d :: cut)

theorem scanPlain_shortens {sign read rest : List Char} {n : Numeral} {kind : Kind}
    (h : scanPlain sign n = .found read rest kind) :
    read = sign ++ n.digits ∧ rest = n.rest ∧ ∀ cut, cut <+: n.rest →
      scanPlain sign { n with rest := cut } = .found read cut kind := by
  simp only [scanPlain] at h ⊢
  split at h
  next hfractional =>
    obtain ⟨rfl, rfl, hcut⟩ := Scan.bounded_shortens h
    simpa [hfractional] using hcut
  next hfractional =>
    split at h
    next hkind =>
      obtain ⟨rfl, rfl, hcut⟩ := Scan.bounded_shortens h
      simpa [hfractional] using hcut
    next => cases h

theorem scanNumber_shortens (sign cs : List Char) : Shortens sign (scanNumber sign) cs := by
  intro read rest kind h
  have hcut := @Numeral.ofChars_shortens cs
  have hplain : (∀ c ∈ (Numeral.ofChars cs).rest.head?,
        kindOfLetter? (Numeral.ofChars cs).fractional c = none) →
      scanPlain sign (Numeral.ofChars cs) = .found read rest kind →
      ∃ body, read = sign ++ body ∧ ∀ rest', rest' <+: rest →
        scanNumber sign (body ++ rest') = .found read rest' kind := by
    intro hletter h
    obtain ⟨hread, rfl, hplain⟩ := scanPlain_shortens h
    refine ⟨(Numeral.ofChars cs).digits, hread, fun rest' hrest' => ?_⟩
    rw [scanNumber, hcut hrest']
    cases rest' with
    | nil => exact hplain [] hrest'
    | cons c rest' =>
      simp only [hletter c (mem_head?_of_shorter hrest' rfl)]
      exact hplain _ hrest'
  simp only [scanNumber] at h
  split at h
  next c behind hbehind =>
    split at h
    next letterKind hletter =>
      obtain ⟨rfl, rfl, hbounded⟩ := Scan.bounded_shortens h
      refine ⟨(Numeral.ofChars cs).digits ++ [c], List.append_assoc _ _ _, fun rest' hrest' => ?_⟩
      have hshorter : c :: rest' <+: (Numeral.ofChars cs).rest := by
        rw [hbehind]
        exact List.cons_prefix_cons.2 ⟨rfl, hrest'⟩
      rw [List.append_assoc, List.singleton_append, scanNumber, hcut hshorter]
      simp only [hletter]
      exact hbounded rest' hrest'
    next hletter =>
      refine hplain ?_ h
      rw [hbehind]
      rintro _ ⟨⟩
      exact hletter
  next hnil =>
    refine hplain ?_ h
    rw [hnil]
    rintro _ ⟨⟩

/-! ## Dates -/

namespace BareDate

/-- What is split off a text is split off it if the text ends earlier, and if nothing is, then
    nothing is. -/
structure Shrinks (split : List Char → Option (List Char × List Char)) : Prop where
  some : ∀ cs r rest, split cs = some r → rest <+: r.2 → split (r.1 ++ rest) = some (r.1, rest)
  none : ∀ cs rest, split cs = none → rest <+: cs → split rest = none

theorem Shrinks.optional {split : List Char → Option (List Char × List Char)} (h : Shrinks split) :
    CutsShort (optional split) := by
  intro cs rest hrest
  unfold BareDate.optional at hrest ⊢
  cases hs : split cs with
  | none =>
    rw [hs] at hrest
    rw [Option.getD_none, List.nil_append, h.none cs rest hs hrest, Option.getD_none]
  | some r =>
    rw [hs] at hrest
    rw [Option.getD_some, h.some cs r rest hs hrest, Option.getD_some]

theorem follow_shrinks (form : List (Char → Bool)) : Shrinks (follow form) where
  some cs r rest h _ := follow_again h rest
  none cs rest h hrest := by
    induction form generalizing cs rest with
    | nil => cases h
    | cons p form ih =>
      cases rest with
      | nil => rfl
      | cons c rest =>
        obtain ⟨tail, rfl⟩ := hrest
        rw [List.cons_append, follow] at h
        rw [follow]
        split at h
        next hp =>
          rw [if_pos hp, ih _ _ (Option.map_eq_none_iff.1 h) (List.prefix_append rest tail)]
          rfl
        next hp => rw [if_neg hp]

/-- A form, and what is split off behind it. -/
theorem Shrinks.followed (form : List (Char → Bool)) {g : List Char → List Char × List Char}
    (hg : CutsShort g) :
    Shrinks fun cs => (follow form cs).map fun r => (r.1 ++ (g r.2).1, (g r.2).2) where
  some cs r rest h hrest := by
    obtain ⟨t, ht, rfl⟩ := Option.map_eq_some_iff.1 h
    simp only [List.append_assoc, follow_again ht, Option.map_some, hg t.2 rest hrest]
  none cs rest h hrest := by
    rw [Option.map_eq_none_iff] at h ⊢
    exact (follow_shrinks form).none cs rest h hrest

theorem fraction_shrinks : Shrinks splitFraction? := by
  have heq : splitFraction? = fun cs => (follow [(· == '.'), isDecimalDigit] cs).map fun r =>
      (r.1 ++ r.2.takeWhile isDecimalDigit, r.2.dropWhile isDecimalDigit) := by
    funext cs
    rw [splitFraction?]
    cases follow [(· == '.'), isDecimalDigit] cs <;> rfl
  rw [heq]
  exact .followed _ (cutsShort_takeWhile isDecimalDigit)

theorem second_shrinks : Shrinks splitSecond? := .followed secondForm fraction_shrinks.optional

theorem offset_shrinks : Shrinks splitOffset? where
  some cs r rest h hrest := by
    rcases Option.or_eq_some_iff.1 h with h | ⟨hnone, h⟩
    · rw [splitOffset?, follow_again h, Option.some_or]
    · have hshorter : r.1 ++ rest <+: cs := by
        rw [← splits_follow _ cs r h]
        exact (List.prefix_append_right_inj r.1).2 hrest
      rw [splitOffset?, (follow_shrinks _).none cs _ hnone hshorter, follow_again h, Option.none_or]
  none cs rest h hrest := by
    obtain ⟨hzone, hoffset⟩ := Option.or_eq_none_iff.1 h
    rw [splitOffset?, (follow_shrinks _).none cs rest hzone hrest,
      (follow_shrinks _).none cs rest hoffset hrest, Option.or_none]

theorem clock_shrinks : Shrinks splitClock? := by
  have heq : splitClock? = fun cs => (follow minuteForm cs).map fun r =>
      (r.1 ++ (splitBoth (optional splitSecond?) (optional splitOffset?) r.2).1,
        (splitBoth (optional splitSecond?) (optional splitOffset?) r.2).2) := by
    funext cs
    simp only [splitClock?, splitBoth, List.append_assoc]
  rw [heq]
  exact .followed _ (second_shrinks.optional.both offset_shrinks.optional
    (optional_append splits_offset))

theorem date_shrinks : Shrinks splitDate? := .followed dayForm clock_shrinks.optional

end BareDate

theorem scanUnsigned_shortens (cs : List Char) : Shortens [] scanUnsigned cs := by
  intro read rest kind h
  unfold scanUnsigned at h
  split at h
  next date behind hdate =>
    obtain ⟨rfl, rfl, hcut⟩ := Scan.bounded_shortens h
    refine ⟨read, rfl, fun rest' hrest' => ?_⟩
    rw [scanUnsigned, BareDate.date_shrinks.some cs _ rest' hdate hrest']
    exact hcut rest' hrest'
  next hdate =>
    obtain ⟨body, hread, hcut⟩ := scanNumber_shortens [] cs read rest kind h
    have hcovers := scanNumber_covers [] cs
    rw [h, hread] at hcovers
    refine ⟨body, hread, fun rest' hrest' => ?_⟩
    have hshorter : body ++ rest' <+: cs := by
      have hcs : body ++ rest = cs := hcovers
      rw [← hcs]
      exact (List.prefix_append_right_inj body).2 hrest'
    rw [scanUnsigned, BareDate.date_shrinks.none cs _ hdate hshorter]
    exact hcut rest' hrest'

/-! ## Names and quotations -/

theorem cutsShort_splitName : CutsShort splitName := by
  intro cs
  induction cs with
  | nil =>
    intro rest hrest
    rw [splitName] at hrest
    rw [List.prefix_nil.1 hrest]
    rfl
  | cons c cs ih =>
    intro rest hrest
    by_cases hc : (Text.isNameChar c || isJoint c && startsWord cs) = true
    · have hsplit : splitName (c :: cs) = (c :: (splitName cs).1, (splitName cs).2) := by
        rw [splitName, if_pos hc]
      rw [hsplit] at hrest ⊢
      -- a character that begins a word is part of the name itself
      have hword : startsWord cs = true → startsWord ((splitName cs).1 ++ rest) = true := by
        intro hw
        cases cs with
        | nil => cases hw
        | cons d ds => simpa [splitName, Text.isNameChar_of_isNameStart hw, startsWord] using hw
      have hc' :
          (Text.isNameChar c || isJoint c && startsWord ((splitName cs).1 ++ rest)) = true := by
        rw [Bool.or_eq_true, Bool.and_eq_true] at hc ⊢
        exact hc.imp id (And.imp id hword)
      rw [List.cons_append, splitName, if_pos hc', ih rest hrest]
    · have hsplit : splitName (c :: cs) = ([], c :: cs) := by rw [splitName, if_neg hc]
      rw [hsplit] at hrest ⊢
      cases rest with
      | nil => rfl
      | cons d rest =>
        obtain ⟨rfl, hshorter⟩ := List.cons_prefix_cons.1 hrest
        have hword : startsWord rest = true → startsWord cs = true := by
          intro hw
          obtain ⟨tail, rfl⟩ := hshorter
          cases rest with
          | nil => cases hw
          | cons e rest => exact hw
        have hd : ¬(Text.isNameChar d || isJoint d && startsWord rest) = true := by
          rw [Bool.or_eq_true, Bool.and_eq_true] at hc ⊢
          exact fun h => hc (h.imp id (And.imp id hword))
        rw [List.nil_append, splitName, if_neg hd]

theorem scanQuoted_shortens {lead : List Char} {kind : Literal.Kind}
    {finish : List Char → List Char → List Char → Scan}
    (hfinish : ∀ read rest body read' rest' kind, finish read rest body = .found read' rest' kind →
      read' = read ∧ rest' = rest ∧ ∀ cut, finish read cut body = .found read cut kind)
    (cs : List Char) : Shortens lead (scanQuoted lead kind finish) cs := by
  intro read rest kind h
  simp only [scanQuoted] at h
  split at h
  next hclosed =>
    obtain ⟨rfl, rfl, hcut⟩ := hfinish _ _ _ _ _ _ h
    refine ⟨(Text.Quoted.scan cs).read, rfl, fun rest' hrest' => ?_⟩
    have hquote : rest'.head? ≠ some '\'' := fun hq =>
      Text.Quoted.head?_rest_ne_quote hclosed (mem_head?_of_shorter hrest' hq)
    simp only [scanQuoted, Text.Quoted.scan_closed hclosed hquote, hclosed]
    exact hcut rest'
  next => cases h
  next => cases h

theorem scanString_shortens (cs : List Char) : Shortens ['\''] scanString cs := by
  refine scanQuoted_shortens ?_ cs
  rintro read rest body _ _ _ ⟨⟩
  exact ⟨rfl, rfl, fun _ => rfl⟩

theorem scanTyped_shortens (w : TypeWord) (word cs : List Char) :
    Shortens (word ++ ['\'']) (scanTyped w word) cs := by
  refine scanQuoted_shortens ?_ cs
  intro read rest body read' rest' kind h
  unfold typedLiteral at h ⊢
  split at h
  · exact Scan.literal_shortens h
  · cases h

theorem scanName_shortens (cs : List Char) : Shortens [] scanName cs := by
  have hname : ∀ rest', rest' <+: (splitName cs).2 →
      splitName ((splitName cs).1 ++ rest') = ((splitName cs).1, rest') := cutsShort_splitName cs
  have hplain : (∀ quoted, (splitName cs).2 = '\'' :: quoted →
        TypeWord.ofWord? (String.ofList (splitName cs).1) = none) →
      ∀ rest', rest' <+: (splitName cs).2 → scanName ((splitName cs).1 ++ rest') =
        .found (splitName cs).1 rest' (kindOfName (String.ofList (splitName cs).1)) := by
    intro hword rest' hrest'
    simp only [scanName, hname rest' hrest']
    split
    next quoted =>
      obtain ⟨tail, htail⟩ := hrest'
      rw [hword _ htail.symm]
    next => rfl
  intro read rest kind h
  simp only [scanName] at h
  split at h
  next quoted hquoted =>
    split at h
    next w hw =>
      obtain ⟨body, rfl, hcut⟩ := scanTyped_shortens w _ _ _ _ _ h
      have hcovers : (splitName cs).1 ++ ['\''] ++ body ++ rest =
          (splitName cs).1 ++ '\'' :: quoted := by
        have := scanTyped_covers w (splitName cs).1 quoted
        rwa [h] at this
      have hquoted' : body ++ rest = quoted := by simpa using hcovers
      refine ⟨(splitName cs).1 ++ ['\''] ++ body, rfl, fun rest' hrest' => ?_⟩
      have hshorter : '\'' :: (body ++ rest') <+: (splitName cs).2 := by
        rw [hquoted, ← hquoted', List.cons_prefix_cons]
        exact ⟨rfl, (List.prefix_append_right_inj body).2 hrest'⟩
      rw [List.append_assoc, List.append_assoc, List.singleton_append]
      simp only [scanName, hname _ hshorter, hw]
      exact hcut rest' hrest'
    next hw =>
      cases h
      exact ⟨_, rfl, hplain fun _ _ => hw⟩
  next hquoted =>
    cases h
    exact ⟨_, rfl, hplain fun quoted hq => absurd hq (hquoted quoted)⟩

/-! ## Names that touch -/

/-- No name goes on from the one text to the other. -/
def Apart (front behind : List Char) : Prop :=
  ∀ c ∈ front.getLast?, ∀ d ∈ behind.head?,
    ¬(Text.isNameChar c = true ∧ Text.isNameChar d = true)

theorem Apart.of_last {front behind : List Char}
    (h : ∀ c ∈ front.getLast?, Text.isNameChar c = false) : Apart front behind := by
  rintro c hc d - ⟨hname, -⟩
  rw [h c hc] at hname
  cases hname

theorem Apart.of_head {front behind : List Char}
    (h : ∀ d ∈ behind.head?, Text.isNameChar d = false) : Apart front behind := by
  rintro c - d hd ⟨-, hname⟩
  rw [h d hd] at hname
  cases hname

theorem Apart.append {front behind : List Char} (h : Apart front behind) (before : List Char)
    (hne : front ≠ []) : Apart (before ++ front) behind := by
  intro c hc
  cases hlast : front.getLast? with
  | none => exact absurd (List.getLast?_eq_none_iff.1 hlast) hne
  | some d =>
    rw [List.getLast?_append, hlast, Option.some_or] at hc
    exact h c (hlast ▸ hc)

/-- What the scan finds does not end within a name. -/
def Scan.EndsApart (s : Scan) : Prop :=
  ∀ read rest kind, s = .found read rest kind → Apart read rest

theorem Scan.bounded_endsApart (read rest : List Char) (raw : Literal.Raw) :
    (bounded read rest raw).EndsApart := by
  intro read' rest' kind h
  obtain ⟨rfl, rfl, -⟩ := bounded_shortens h
  refine .of_head fun d hd => ?_
  cases rest' with
  | nil => cases hd
  | cons c rest' =>
    cases hd
    cases hname : Text.isNameChar d with
    | false => rfl
    | true =>
      rw [bounded, if_pos hname] at h
      cases h

theorem scanPlain_endsApart (sign : List Char) (n : Numeral) : (scanPlain sign n).EndsApart := by
  unfold scanPlain
  dsimp only
  split
  · exact Scan.bounded_endsApart _ _ _
  · split
    · exact Scan.bounded_endsApart _ _ _
    · rintro _ _ _ ⟨⟩

theorem scanNumber_endsApart (sign cs : List Char) : (scanNumber sign cs).EndsApart := by
  unfold scanNumber
  dsimp only
  split
  · split
    · exact Scan.bounded_endsApart _ _ _
    · exact scanPlain_endsApart _ _
  · exact scanPlain_endsApart _ _

/-- The last character that is passed in quotes is the closing quote, or the one that may not stand
    there. -/
theorem getLast?_quoted {cs : List Char} {c : Char}
    (h : (Text.Quoted.scan cs).ending = .closed ∧ c = '\'' ∨
      (Text.Quoted.scan cs).ending = .stray c) :
    (Text.Quoted.scan cs).read.getLast? = some c := by
  fun_induction Text.Quoted.scan cs with
  | case1 =>
    rcases h with ⟨hclosed, -⟩ | hstray
    · cases hclosed
    · cases hstray
  | case2 cs ih =>
    show (['\'', '\''] ++ (Text.Quoted.scan cs).read).getLast? = _
    rw [List.getLast?_append, ih h, Option.some_or]
  | case3 =>
    rcases h with ⟨-, rfl⟩ | hstray
    · rfl
    · cases hstray
  | case4 d cs _ _ _ ih =>
    show ([d] ++ (Text.Quoted.scan cs).read).getLast? = _
    rw [List.getLast?_append, ih h, Option.some_or]
  | case5 =>
    rcases h with ⟨hclosed, -⟩ | hstray
    · cases hclosed
    · cases hstray
      rfl

theorem scanQuoted_endsApart {lead : List Char} {kind : Literal.Kind}
    {finish : List Char → List Char → List Char → Scan}
    (hfinish : ∀ read rest body read' rest' kind, finish read rest body = .found read' rest' kind →
      read' = read) (cs : List Char) : (scanQuoted lead kind finish cs).EndsApart := by
  intro read rest kind h
  simp only [scanQuoted] at h
  split at h
  next hclosed =>
    obtain rfl := hfinish _ _ _ _ _ _ h
    refine .of_last fun c hc => ?_
    rw [List.getLast?_append, getLast?_quoted (.inl ⟨hclosed, rfl⟩)] at hc
    cases hc
    decide
  next => cases h
  next => cases h

theorem scanTyped_endsApart (w : TypeWord) (word cs : List Char) :
    (scanTyped w word cs).EndsApart := by
  refine scanQuoted_endsApart ?_ cs
  intro read rest body read' rest' kind h
  unfold typedLiteral at h
  split at h
  · exact (Scan.literal_shortens h).1
  · cases h

/-- Behind a name there is no character that continues it. -/
theorem isNameChar_behind_name (cs : List Char) :
    ∀ d ∈ (splitName cs).2.head?, Text.isNameChar d = false := by
  induction cs with
  | nil => simp [splitName]
  | cons c cs ih =>
    rw [splitName]
    split
    next => exact ih
    next hc =>
      rintro _ ⟨⟩
      simp only [Bool.or_eq_true, not_or] at hc
      simpa using hc.1

theorem scanName_endsApart (cs : List Char) : (scanName cs).EndsApart := by
  unfold scanName
  dsimp only
  split
  next =>
    split
    · exact scanTyped_endsApart _ _ _
    next hrest _ _ =>
      rintro _ _ _ ⟨⟩
      exact .of_head (isNameChar_behind_name cs)
  next =>
    rintro _ _ _ ⟨⟩
    exact .of_head (isNameChar_behind_name cs)

theorem scanMinus_endsApart (afterOperand : Bool) (cs : List Char) :
    (scanMinus afterOperand cs).EndsApart := by
  unfold scanMinus
  split
  · exact scanNumber_endsApart _ _
  split
  next hinfinity =>
    rintro _ _ _ ⟨⟩
    refine .of_head fun d hd => ?_
    rw [Bool.and_eq_true, startsInfinity, Bool.and_eq_true, Option.mem_def.1 hd] at hinfinity
    simpa using hinfinity.2.2
  next =>
    rintro _ _ _ ⟨⟩
    refine .of_last ?_
    rintro _ ⟨⟩
    decide

/-- A token does not end within a name. -/
theorem scan_apart (afterOperand : Bool) (c : Char) (cs : List Char) :
    (scan afterOperand c cs).EndsApart := by
  unfold scan
  split
  · refine scanQuoted_endsApart ?_ cs
    rintro read rest body _ _ _ ⟨⟩
    rfl
  split
  · exact scanMinus_endsApart _ _
  split
  · exact scanNumber_endsApart _ _
  split
  · unfold scanUnsigned
    split
    · exact Scan.bounded_endsApart _ _ _
    · exact scanNumber_endsApart _ _
  split
  · exact scanName_endsApart _
  split
  next m hm =>
    rintro _ _ _ ⟨⟩
    refine .of_last ?_
    rintro _ ⟨⟩
    unfold Mark.ofChar? at hm
    split at hm <;> first | decide | cases hm
  next => rintro _ _ _ ⟨⟩

/-! ## All tokens -/

/-- What begins with the word for infinity does so if the text ends later, unless a name goes on
    there. -/
theorem startsInfinity_of_apart {front behind : List Char} (h : Apart front behind)
    (hfront : startsInfinity front = true) : startsInfinity (front ++ behind) = true := by
  rw [startsInfinity, Bool.and_eq_true, List.isPrefixOf_iff_prefix] at hfront ⊢
  obtain ⟨⟨tail, rfl⟩, hname⟩ := hfront
  refine ⟨⟨tail ++ behind, by rw [List.append_assoc]⟩, ?_⟩
  cases tail with
  | cons c tail => exact hname
  | nil =>
    cases behind with
    | nil => rfl
    | cons d behind =>
      have hd : ¬Text.isNameChar d = true := fun hd => h 'F' rfl d rfl ⟨by decide, hd⟩
      simpa [infinityWord] using hd

/-- A number behind its sign begins with a digit. -/
theorem scanNumber_startsDigit {sign cs read rest : List Char} {kind : Kind}
    (hcs : startsDigit cs = true) (h : scanNumber sign cs = .found read rest kind) :
    ∃ body, read = sign ++ body ∧ startsDigit body = true ∧ ∀ rest', rest' <+: rest →
      scanNumber sign (body ++ rest') = .found read rest' kind := by
  obtain ⟨body, rfl, hcut⟩ := scanNumber_shortens sign cs read rest kind h
  have hread := scanNumber_read sign cs
  rw [h] at hread
  have hdigits : (Numeral.ofChars cs).digits <+: body := (List.prefix_append_right_inj sign).1 hread
  exact ⟨body, rfl, startsDigit_of_shorter hdigits (Numeral.written_ofChars hcs).starts, hcut⟩

theorem scanMinus_shortens (afterOperand : Bool) {cs read rest : List Char} {kind : Kind}
    (h : scanMinus afterOperand cs = .found read rest kind) :
    ∃ body, read = '-' :: body ∧ ∀ rest' tail, rest = rest' ++ tail → Apart rest' tail →
      scanMinus afterOperand (body ++ rest') = .found read rest' kind := by
  unfold scanMinus at h
  split at h
  next hdigit =>
    rw [Bool.and_eq_true] at hdigit
    obtain ⟨body, hread, hbody, hcut⟩ := scanNumber_startsDigit hdigit.2 h
    refine ⟨body, hread, fun rest' tail hrest _ => ?_⟩
    rw [scanMinus, hdigit.1, startsDigit_append hbody]
    exact hcut rest' ⟨tail, hrest.symm⟩
  split at h
  next hinfinity =>
    rw [Bool.and_eq_true] at hinfinity
    cases h
    refine ⟨infinityWord, rfl, fun rest' tail hrest _ => ?_⟩
    have hname : rest'.head?.any Text.isNameChar = false := by
      have hcs := hinfinity.2
      rw [startsInfinity, Bool.and_eq_true, hrest] at hcs
      cases rest' with
      | nil => rfl
      | cons c rest' => simpa using hcs.2
    have hstarts : startsInfinity (infinityWord ++ rest') = true := by
      simp [startsInfinity, infinityWord, List.isPrefixOf, hname]
    have hdigit : startsDigit (infinityWord ++ rest') = false := rfl
    rw [scanMinus, hdigit, hstarts, hinfinity.1]
    rfl
  next hdigit hinfinity =>
    cases h
    refine ⟨[], rfl, fun rest' tail hrest hapart => ?_⟩
    subst hrest
    have hdigit' : ¬(!afterOperand && startsDigit rest') = true := by
      rw [Bool.and_eq_true] at hdigit ⊢
      exact fun h => hdigit ⟨h.1, startsDigit_append h.2 tail⟩
    have hinfinity' : ¬(!afterOperand && startsInfinity rest') = true := by
      rw [Bool.and_eq_true] at hinfinity ⊢
      exact fun h => hinfinity ⟨h.1, startsInfinity_of_apart hapart h.2⟩
    rw [List.nil_append, scanMinus, if_neg hdigit', if_neg hinfinity']

/-- What a scanner finds that also passes the first character begins with it. -/
theorem Shortens.first {scanner : List Char → Scan} {c : Char} {cs read rest : List Char}
    {kind : Kind} (h : Shortens [] scanner (c :: cs))
    (hfound : scanner (c :: cs) = .found read rest kind)
    (hread : ∃ ds, read = c :: ds) :
    ∃ body, read = c :: body ∧ ∀ rest', rest' <+: rest →
      scanner (c :: (body ++ rest')) = .found read rest' kind := by
  obtain ⟨ds, rfl⟩ := hread
  obtain ⟨body, hbody, hcut⟩ := h _ _ _ hfound
  rw [List.nil_append] at hbody
  subst hbody
  exact ⟨ds, rfl, hcut⟩

/-- What is scanned as a token is scanned as the same token if the text ends earlier, and not within
    a name. -/
theorem scan_shortens (afterOperand : Bool) {c : Char} {cs read rest : List Char} {kind : Kind}
    (h : scan afterOperand c cs = .found read rest kind) :
    ∃ body, read = c :: body ∧ ∀ rest' tail, rest = rest' ++ tail → Apart rest' tail →
      scan afterOperand c (body ++ rest') = .found read rest' kind := by
  have hread : ∃ ds, read = c :: ds := by
    obtain ⟨hcovers, hne⟩ := Lexer.append_eq_of_found h
    obtain ⟨d, ds, rfl⟩ := List.exists_cons_of_ne_nil hne
    exact ⟨ds, by rw [(List.cons.inj hcovers).1]⟩
  have hshorter : ∀ {body : List Char} {scanner : List Char → Scan},
      (∀ rest', rest' <+: rest → scanner (body ++ rest') = .found read rest' kind) →
      ∀ rest' tail, rest = rest' ++ tail → Apart rest' tail →
        scanner (body ++ rest') = .found read rest' kind :=
    fun hcut rest' tail hrest _ => hcut rest' ⟨tail, hrest.symm⟩
  by_cases hquote : c = '\''
  · subst hquote
    have hscan : ∀ ds, scan afterOperand '\'' ds = scanString ds := fun _ => rfl
    rw [hscan] at h
    obtain ⟨body, hbody, hcut⟩ := scanString_shortens cs read rest kind h
    exact ⟨body, hbody, hshorter hcut⟩
  by_cases hminus : c = '-'
  · subst hminus
    exact scanMinus_shortens afterOperand h
  by_cases hplus : c = '+' ∧ startsDigit cs = true
  · obtain ⟨rfl, hdigit⟩ := hplus
    have hscan : ∀ ds, startsDigit ds = true → scan afterOperand '+' ds = scanNumber ['+'] ds := by
      intro ds hds
      simp [scan, hds]
    rw [hscan cs hdigit] at h
    obtain ⟨body, hbody, hstarts, hcut⟩ := scanNumber_startsDigit hdigit h
    refine ⟨body, hbody, fun rest' tail hrest _ => ?_⟩
    rw [hscan _ (startsDigit_append hstarts rest')]
    exact hcut rest' ⟨tail, hrest.symm⟩
  by_cases hdigit : Text.isDigit c = true
  · have hplus' : c ≠ '+' := by rintro rfl; exact absurd hdigit (by decide)
    have hscan : ∀ ds, scan afterOperand c ds = scanUnsigned (c :: ds) := by
      intro ds
      simp [scan, hquote, hminus, hplus', hdigit]
    rw [hscan] at h
    obtain ⟨body, hbody, hcut⟩ := (scanUnsigned_shortens (c :: cs)).first h hread
    exact ⟨body, hbody, hshorter fun rest' hrest' => (hscan _).trans (hcut rest' hrest')⟩
  by_cases hstart : Text.isNameStart c = true
  · have hscan := scan_of_isNameStart afterOperand hstart
    rw [hscan] at h
    obtain ⟨body, hbody, hcut⟩ := (scanName_shortens (c :: cs)).first h hread
    exact ⟨body, hbody, hshorter fun rest' hrest' => (hscan _).trans (hcut rest' hrest')⟩
  · have hplus' : c ≠ '+' := by
      rintro rfl
      have : startsDigit cs = false := by simpa using hplus
      simp [scan, this, hdigit, hstart, Mark.ofChar?, Scan.failed, Scan.found] at h
    cases hmark : Mark.ofChar? c with
    | none =>
      simp [scan, hquote, hminus, hplus', hdigit, hstart, hmark, Scan.failed, Scan.found] at h
    | some m =>
      have hscan : ∀ ds, scan afterOperand c ds = .found [c] ds (.mark m) := by
        intro ds
        simp [scan, hquote, hminus, hplus', hdigit, hstart, hmark]
      rw [hscan] at h
      cases h
      exact ⟨[], rfl, fun rest' _ _ _ => hscan rest'⟩

end Token

end QueryExpr
