import QueryExpr.Proofs.Lexing

/-!
# Quoted tokens

* `scan_enclose`, `lexeme_string`: strings are read back.
* `lexeme_body`, `lexeme_typed`: so is a body between quotes behind the word for its type.
* `lexeme_binary`, `lexeme_guid`: the two types that are written in hexadecimal digits.
-/

namespace QueryExpr

namespace Bytes

/-! ## Hexadecimal digits -/

/-- What holds of all digits holds of the digits of bytes. -/
theorem Hex.of_mem_encode (p : Char → Prop) (case : Hex.Case)
    (hall : ∀ n : Fin 16, p (case.digit n.val)) {bytes : List UInt8} {c : Char}
    (h : c ∈ Hex.encode case bytes) : p c := by
  induction bytes with
  | nil => cases h
  | cons b bytes ih =>
    have hb : b.toNat < 256 := b.toNat_lt
    rw [Hex.encode, List.mem_cons, List.mem_cons] at h
    rcases h with rfl | rfl | h
    · exact hall ⟨b.toNat / 16, by omega⟩
    · exact hall ⟨b.toNat % 16, by omega⟩
    · exact ih h

theorem Hex.length_encode (case : Hex.Case) (bytes : List UInt8) :
    (Hex.encode case bytes).length = 2 * bytes.length := by
  induction bytes with
  | nil => rfl
  | cons b bytes ih =>
    rw [Hex.encode, List.length_cons, List.length_cons, List.length_cons, ih]
    omega

namespace Guid

theorem take_append_drop_add (ds : List Char) (start count : Nat) :
    (ds.drop start).take count ++ ds.drop (start + count) = ds.drop start := by
  rw [← List.drop_drop]
  exact List.take_append_drop count (ds.drop start)

/-- The digits of a GUID are those of its hyphenated form without hyphens. -/
theorem filter_hyphenate {ds : List Char} (h : ∀ c ∈ ds, c ≠ '-') :
    (hyphenate ds).filter (· != '-') = ds := by
  have hfilter : ∀ cs : List Char, (∀ c ∈ cs, c ∈ ds) → cs.filter (· != '-') = cs := by
    intro cs hcs
    rw [List.filter_eq_self]
    intro c hc
    simpa using h c (hcs c hc)
  simp only [hyphenate, List.filter_append, List.filter_cons]
  rw [hfilter _ fun c hc => List.mem_of_mem_take hc,
    hfilter _ fun c hc => List.mem_of_mem_drop (List.mem_of_mem_take hc),
    hfilter _ fun c hc => List.mem_of_mem_drop (List.mem_of_mem_take hc),
    hfilter _ fun c hc => List.mem_of_mem_drop (List.mem_of_mem_take hc),
    hfilter _ fun c hc => List.mem_of_mem_drop hc]
  simp only [bne_self_eq_false, Bool.false_eq_true, if_false]
  rw [take_append_drop_add ds 16 4, take_append_drop_add ds 12 4, take_append_drop_add ds 8 4]
  exact List.take_append_drop 8 ds

/-- A GUID is read back. -/
theorem read_chars (g : Guid) : read g.chars = .ok g := by
  have hdigit : ∀ c ∈ Hex.encode .lower g.bytes, c ≠ '-' :=
    fun c hc => Hex.of_mem_encode (· ≠ '-') .lower (by decide) hc
  have hlen : (Hex.encode .lower g.bytes).length = 32 := by rw [Hex.length_encode, g.size]
  have hread : ofHyphenated? g.chars = some g := by
    rw [ofHyphenated?, chars, filter_hyphenate hdigit]
    simp only [hlen, decide_true, Bool.and_self, if_true]
    rw [ofDigits?, Hex.decode_encode]
    simp [g.size]
  have hsize : g.chars.length = 36 := by
    rw [chars, hyphenate]
    simp [hlen]
  have hfirst : ∃ c cs, g.chars = c :: cs ∧ c ≠ '\x7b' ∧ c.toLower ≠ 'u' := by
    rw [chars]
    cases hcs : Hex.encode .lower g.bytes with
    | nil =>
      rw [hcs] at hlen
      cases hlen
    | cons c cs =>
      have hc : c ≠ '\x7b' ∧ c.toLower ≠ 'u' :=
        Hex.of_mem_encode (fun c => c ≠ '\x7b' ∧ c.toLower ≠ 'u') .lower (by decide)
          (hcs ▸ List.mem_cons_self)
      exact ⟨c, _, rfl, hc⟩
  obtain ⟨c, cs, hcs, hbrace, hlead⟩ := hfirst
  have hbraces : insideBraces? g.chars = none := by
    rw [hcs, insideBraces?]
    rintro ds ⟨⟩
    exact hbrace rfl
  have hurn : behindUrn? g.chars = none := by
    rw [hcs, behindUrn?, if_neg]
    intro h
    exact hlead (List.cons.inj h).1
  rw [read, ofChars?, hbraces, hurn]
  simp [hsize, hread]

end Guid

end Bytes

namespace Token

/-! ## Strings -/

/-- A string of plain characters is found between its quotes, whatever else follows. -/
theorem scan_enclose (afterOperand : Bool) {body rest : List Char}
    (hplain : ∀ c ∈ body, Text.isPlain c = true) (hrest : rest.head? ≠ some '\'') :
    scan afterOperand '\'' (Text.Quoted.double body ++ '\'' :: rest) =
      .found (Text.Quoted.enclose body) rest (.literal ⟨String.ofList body, .string⟩) := by
  show scanString _ = _
  rw [scanString, scanQuoted, Text.Quoted.scan_double body rest hplain hrest]
  rfl

/-- Strings of plain characters are read back. -/
theorem lexeme_string {s : String} (hplain : ∀ c ∈ s.toList, Text.isPlain c = true) :
    LiteralLexeme (Literal.string s).text.toList (.string s) := by
  refine ⟨⟨s, .string⟩, rfl, ?_⟩
  rw [Literal.text, String.toList_ofList]
  refine ⟨'\'', Text.Quoted.double s.toList ++ ['\''], rfl, rfl, ?_⟩
  intro rest hrest
  have hquote : rest.head? ≠ some '\'' := by
    intro h
    exact absurd (hrest '\'' h) (by decide)
  rw [List.append_assoc, List.singleton_append, scan_enclose false hplain hquote,
    String.ofList_toList]

/-! ## Typed literals -/

theorem double_of_no_quote {body : List Char} (h : ∀ c ∈ body, c ≠ '\'') :
    Text.Quoted.double body = body := by
  induction body with
  | nil => rfl
  | cons c body ih =>
    rw [Text.Quoted.double, if_neg (h c List.mem_cons_self),
      ih fun d hd => h d (List.mem_cons_of_mem _ hd)]

/-- Whether a character may stand in the body of a typed literal, and stands there once. -/
def isBodyChar (c : Char) : Bool := Text.isPlain c && c != '\''

theorem nameText_hex : NameText "X" := ⟨⟨'X', _, rfl, rfl, rfl⟩, rfl⟩

theorem nameText_guid : NameText "guid" := ⟨⟨'g', _, rfl, rfl, rfl⟩, rfl⟩

theorem nameText_duration : NameText "duration" := ⟨⟨'d', _, rfl, rfl, rfl⟩, rfl⟩

/-- A body between quotes is scanned as the literal that the word in front of them types. -/
theorem scan_typed {word : String} (hword : NameText word) {w : TypeWord}
    (hw : TypeWord.ofWord? word = some w) {body : List Char}
    (hbody : ∀ c ∈ body, isBodyChar c = true) :
    ∃ c cs, (Literal.typed word (String.ofList body)).toList = c :: cs ∧
      Text.isBlank c = false ∧ ∀ rest, Delimited rest → scan false c (cs ++ rest) =
        typedLiteral w (Literal.typed word (String.ofList body)).toList rest body := by
  obtain ⟨c, cs, hcs, hblank, hstart⟩ := hword.starts
  have htext : (Literal.typed word (String.ofList body)).toList =
      c :: (cs ++ '\'' :: (body ++ ['\''])) := by
    simp [Literal.typed, hcs]
  rw [htext]
  refine ⟨c, _, rfl, hblank, ?_⟩
  intro rest hrest
  have hplain : ∀ d ∈ body, Text.isPlain d = true ∧ d ≠ '\'' := by
    intro d hd
    simpa [isBodyChar] using hbody d hd
  have hquote : rest.head? ≠ some '\'' := by
    intro h
    exact absurd (hrest '\'' h) (by decide)
  have hscan := Text.Quoted.scan_double body rest (fun d hd => (hplain d hd).1) hquote
  rw [double_of_no_quote fun d hd => (hplain d hd).2] at hscan
  have hnameEnd : NameEnd ('\'' :: (body ++ '\'' :: rest)) := by
    rintro _ ⟨⟩
    exact ⟨rfl, rfl⟩
  have hname := splitName_append_of_nameEnd hword.splits hnameEnd
  rw [hcs] at hname
  rw [scan_of_isNameStart false hstart, scanName]
  have hassoc : c :: (cs ++ '\'' :: (body ++ ['\'']) ++ rest) =
      c :: cs ++ '\'' :: (body ++ '\'' :: rest) := by simp
  rw [hassoc, hname, ← hcs]
  simp only [String.ofList_toList, hw]
  rw [scanTyped, scanQuoted, hscan]
  simp [hcs]

/-- A body that a type admits is read as a literal of the kind that the type gives it. -/
theorem lexeme_body {word : String} (hword : NameText word) {w : TypeWord}
    (hw : TypeWord.ofWord? word = some w) {body : List Char}
    (hbody : ∀ c ∈ body, isBodyChar c = true) {kind : Literal.Kind}
    (hkind : w.kindOf body = .ok kind) {l : Literal}
    (hvalue : Literal.Raw.value ⟨String.ofList body, kind⟩ = .ok l) :
    Lexeme false (Literal.typed word (String.ofList body)).toList
      (.literal ⟨String.ofList body, kind⟩) := by
  obtain ⟨c, cs, hcs, hblank, hscan⟩ := scan_typed hword hw hbody
  refine ⟨c, cs, hcs, hblank, fun rest hrest => ?_⟩
  rw [hscan rest hrest]
  simp only [typedLiteral, hkind, Scan.literal, hvalue]

/-- A body that a type admits is read back. -/
theorem lexeme_typed {word : String} (hword : NameText word) {w : TypeWord}
    (hw : TypeWord.ofWord? word = some w) {body : List Char}
    (hbody : ∀ c ∈ body, isBodyChar c = true) {kind : Literal.Kind}
    (hkind : w.kindOf body = .ok kind) {l : Literal}
    (hvalue : Literal.Raw.value ⟨String.ofList body, kind⟩ = .ok l) :
    LiteralLexeme (Literal.typed word (String.ofList body)).toList l :=
  ⟨_, hvalue, lexeme_body hword hw hbody hkind hvalue⟩

/-- Bytes are read back. -/
theorem lexeme_binary (bytes : List UInt8) :
    LiteralLexeme (Literal.binary bytes).text.toList (.binary bytes) := by
  have hdecode := Bytes.Hex.decode_encode .upper bytes
  have hbody : ∀ c ∈ Bytes.Hex.encode .upper bytes, isBodyChar c = true :=
    fun c hc => Bytes.Hex.of_mem_encode (isBodyChar · = true) .upper (by decide) hc
  have hkind : TypeWord.hex.kindOf (Bytes.Hex.encode .upper bytes) = .ok .binary := by
    rw [TypeWord.kindOf, hdecode]
    rfl
  apply lexeme_typed nameText_hex rfl hbody hkind
  simp only [Literal.Raw.value, String.toList_ofList, Literal.Raw.readBinary, hdecode,
    Option.some_or]

/-- GUIDs are read back. -/
theorem lexeme_guid (g : Bytes.Guid) : LiteralLexeme (Literal.guid g).text.toList (.guid g) := by
  have hbody : ∀ c ∈ g.chars, isBodyChar c = true := by
    intro c hc
    by_cases hdash : c = '-'
    · subst hdash
      decide
    · have hmem : c ∈ g.chars.filter (· != '-') := by simpa [hc] using hdash
      rw [Bytes.Guid.chars, Bytes.Guid.filter_hyphenate] at hmem
      · exact Bytes.Hex.of_mem_encode (isBodyChar · = true) .lower (by decide) hmem
      · exact fun d hd => Bytes.Hex.of_mem_encode (· ≠ '-') .lower (by decide) hd
  have hkind : TypeWord.guid.kindOf g.chars = .ok .guid := rfl
  apply lexeme_typed nameText_guid rfl hbody hkind
  simp only [Literal.Raw.value, String.toList_ofList, Bytes.Guid.read_chars]

end Token

end QueryExpr
