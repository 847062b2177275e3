import QueryExpr.Token.Lexer

/-!
# Reading tokens back

A text that is written token by token is read as these tokens if what follows each of them is a
blank, a parenthesis or a comma. Only a minus depends on the token in front of it.

* `Lexer.Lexes`: a text consists of tokens of the given kinds.
* `Token.Lexeme`: a text that is read as one token.
* `Lexer.Lexed`: a text that is read as tokens in front of any delimiter.
* `Lexer.tokenize_of_lexes`: the tokens of a text are of these kinds.
-/

namespace QueryExpr

namespace Token

/-! ## Delimiters -/

/-- Whether the character stands between the tokens of an expression. -/
def isDelimiter (c : Char) : Bool := c == ' ' || c == '(' || c == ')' || c == ','

/-- Whatever follows is set off by a delimiter. -/
def Delimited (cs : List Char) : Prop := ∀ c ∈ cs.head?, isDelimiter c = true

theorem delimited_nil : Delimited [] := by rintro _ ⟨⟩

theorem delimited_cons {c : Char} {cs : List Char} :
    Delimited (c :: cs) ↔ isDelimiter c = true := by
  simp [Delimited]

/-- What holds of each delimiter holds of a character that is one. -/
theorem of_isDelimiter (p : Char → Prop) {c : Char} (h : isDelimiter c = true)
    (hall : p ' ' ∧ p '(' ∧ p ')' ∧ p ',') : p c := by
  obtain ⟨hblank, hopen, hclose, hcomma⟩ := hall
  simp only [isDelimiter, Bool.or_eq_true, beq_iff_eq] at h
  rcases h with ((rfl | rfl) | rfl) | rfl
  · exact hblank
  · exact hopen
  · exact hclose
  · exact hcomma

/-! ## Lexemes -/

/-- The text is read as a token of the given kind in front of any delimiter. -/
def Lexeme (afterOperand : Bool) (text : List Char) (kind : Kind) : Prop :=
  ∃ c cs, text = c :: cs ∧ Text.isBlank c = false ∧ ∀ rest, Delimited rest →
    scan afterOperand c (cs ++ rest) = .found text rest kind

/-- The text is read as a literal of the given value. -/
def LiteralLexeme (text : List Char) (l : Literal) : Prop :=
  ∃ raw : Literal.Raw, raw.value = .ok l ∧ Lexeme false text (.literal raw)

/-- Whatever follows is no part of a name. -/
def NameEnd (cs : List Char) : Prop :=
  ∀ c ∈ cs.head?, Text.isNameChar c = false ∧ isJoint c = false

theorem NameEnd.of_delimited {cs : List Char} (h : Delimited cs) : NameEnd cs :=
  fun c hc => of_isDelimiter (fun c => Text.isNameChar c = false ∧ isJoint c = false) (h c hc)
    (by decide)

/-- A name is read to its end. -/
theorem splitName_append_of_nameEnd {cs rest : List Char} (h : (splitName cs).1 = cs)
    (hrest : NameEnd rest) : splitName (cs ++ rest) = (cs, rest) := by
  induction cs with
  | nil =>
    cases rest with
    | nil => rfl
    | cons c rest =>
      obtain ⟨hname, hjoint⟩ := hrest c rfl
      simp [splitName, hname, hjoint]
  | cons c cs ih =>
    simp only [splitName] at h
    split at h
    next hc =>
      have hcs := ih (List.cons.inj h).2
      have hword : startsWord cs = true → startsWord (cs ++ rest) = true := by
        cases cs with
        | nil => intro hw; cases hw
        | cons d ds => exact id
      have hc' : (Text.isNameChar c || isJoint c && startsWord (cs ++ rest)) = true := by
        rw [Bool.or_eq_true, Bool.and_eq_true] at hc ⊢
        exact hc.imp id (And.imp id hword)
      rw [List.cons_append, splitName, if_pos hc', hcs]
    next => cases h

/-- A character that begins a name is no digit. -/
theorem isDigit_of_isNameStart {c : Char} (h : Text.isNameStart c = true) :
    Text.isDigit c = false := by
  cases hd : Text.isDigit c with
  | false => rfl
  | true =>
    rw [Text.of_isDigit (Text.isNameStart · = false) hd (by decide)] at h
    cases h

/-- The scan of what begins like a name is that of a name. -/
theorem scan_of_isNameStart (afterOperand : Bool) {c : Char} (h : Text.isNameStart c = true)
    (cs : List Char) : scan afterOperand c cs = scanName (c :: cs) := by
  have hquote : c ≠ '\'' := by rintro rfl; exact absurd h (by decide)
  have hminus : c ≠ '-' := by rintro rfl; exact absurd h (by decide)
  have hplus : c ≠ '+' := by rintro rfl; exact absurd h (by decide)
  simp [scan, hquote, hminus, hplus, isDigit_of_isNameStart h, h]

/-- A text that is all of a name. -/
structure NameText (word : String) : Prop where
  starts : ∃ c cs, word.toList = c :: cs ∧ Text.isBlank c = false ∧ Text.isNameStart c = true
  splits : (splitName word.toList).1 = word.toList

/-- A name is read as a name or a constant, behind anything. -/
theorem lexeme_word {word : String} (h : NameText word) (afterOperand : Bool) :
    Lexeme afterOperand word.toList (kindOfName word) := by
  obtain ⟨c, cs, hword, hblank, hstart⟩ := h.starts
  refine ⟨c, cs, hword, hblank, ?_⟩
  intro rest hrest
  have hname : splitName (c :: (cs ++ rest)) = (word.toList, rest) := by
    rw [← List.cons_append, ← hword]
    exact splitName_append_of_nameEnd h.splits (.of_delimited hrest)
  have hquote : ∀ quoted, rest ≠ '\'' :: quoted := by
    rintro quoted rfl
    exact absurd (delimited_cons.1 hrest) (by decide)
  rw [scan_of_isNameStart afterOperand hstart, scanName]
  simp only [hname, String.ofList_toList]

/-- A name that is no constant is read as a name. -/
theorem lexeme_name {word : String} (h : NameText word) (hconstant : constant? word = none)
    (afterOperand : Bool) : Lexeme afterOperand word.toList (.name word) := by
  have hkind : kindOfName word = .name word := by rw [kindOfName, hconstant]
  rw [← hkind]
  exact lexeme_word h afterOperand

/-- A name begins with no digit. -/
theorem NameText.not_startsDigit {word : String} (h : NameText word) (rest : List Char) :
    startsDigit (word.toList ++ rest) = false := by
  obtain ⟨c, cs, hword, -, hstart⟩ := h.starts
  rw [hword]
  exact isDigit_of_isNameStart hstart

/-- A joint continues no word. -/
theorem isNameChar_of_isJoint {c : Char} (h : isJoint c = true) : Text.isNameChar c = false := by
  rw [isJoint, Bool.or_eq_true, beq_iff_eq, beq_iff_eq] at h
  rcases h with rfl | rfl <;> decide

/-- A character of a name continues it or is a joint. -/
theorem isNameChar_or_isJoint {before after : List Char} {c : Char}
    (h : (splitName (before ++ c :: after)).1 = before ++ c :: after) :
    Text.isNameChar c = true ∨ isJoint c = true := by
  induction before with
  | nil =>
    simp only [List.nil_append, splitName] at h
    split at h
    next hc =>
      rw [Bool.or_eq_true, Bool.and_eq_true] at hc
      exact hc.imp id And.left
    next => cases h
  | cons d before ih =>
    simp only [List.cons_append, splitName] at h
    split at h
    · exact ih (List.cons.inj h).2
    · cases h

/-- A delimiter is no part of the word for infinity. -/
theorem infinityWord_prefix {text rest : List Char} (hrest : Delimited rest)
    (h : infinityWord <+: text ++ rest) : infinityWord <+: text := by
  obtain ⟨tail, htail⟩ := h
  rcases List.append_eq_append_iff.1 htail with ⟨behind, htext, -⟩ | ⟨inside, hword, hrest'⟩
  · exact ⟨behind, htext.symm⟩
  · cases inside with
    | nil => exact ⟨[], hword.trans (List.append_nil _) ▸ List.append_nil _⟩
    | cons c inside =>
      have hmem : c ∈ infinityWord := by
        rw [hword]
        exact List.mem_append_right _ List.mem_cons_self
      have hdelimiter : isDelimiter c = true := by
        rw [hrest'] at hrest
        exact delimited_cons.1 hrest
      have hall : infinityWord.all (!isDelimiter ·) = true := by decide
      have := List.all_eq_true.1 hall c hmem
      rw [hdelimiter] at this
      cases this

/-- A name that is no constant begins with the word for infinity only if a letter or a joint follows
    it there. -/
theorem NameText.not_startsInfinity {word : String} (h : NameText word)
    (hconstant : constant? word = none)
    (hjoint : ∀ c, isJoint c = true → ¬infinityWord ++ [c] <+: word.toList) {rest : List Char}
    (hrest : Delimited rest) : startsInfinity (word.toList ++ rest) = false := by
  cases hinf : startsInfinity (word.toList ++ rest) with
  | false => rfl
  | true =>
    exfalso
    rw [startsInfinity, Bool.and_eq_true] at hinf
    obtain ⟨behind, hword⟩ := infinityWord_prefix hrest (List.isPrefixOf_iff_prefix.1 hinf.1)
    rw [← hword] at hinf
    cases behind with
    | nil =>
      have hinfinity : word = "INF" := String.toList_inj.1 hword.symm
      rw [hinfinity] at hconstant
      cases hconstant
    | cons c behind =>
      have hsplits := h.splits
      rw [← hword] at hsplits
      rcases isNameChar_or_isJoint hsplits with hname | hc
      · simp [infinityWord, hname] at hinf
      · apply hjoint c hc
        exact ⟨behind, (List.append_assoc _ _ _).trans hword⟩

/-- A minus in front of the text is no part of a number. -/
def Unsigned (text : List Char) : Prop :=
  ∀ rest, Delimited rest →
    startsDigit (text ++ rest) = false ∧ startsInfinity (text ++ rest) = false

theorem NameText.unsigned {word : String} (h : NameText word) (hconstant : constant? word = none)
    (hjoint : ∀ c, isJoint c = true → ¬infinityWord ++ [c] <+: word.toList) :
    Unsigned word.toList :=
  fun rest hrest => ⟨h.not_startsDigit rest, h.not_startsInfinity hconstant hjoint hrest⟩

/-- What a delimiter sets off from a text is not part of a number with the text's minus. -/
theorem Unsigned.append {text behind : List Char} (h : Unsigned text) (hbehind : Delimited behind)
    (hne : behind ≠ []) : Unsigned (text ++ behind) := by
  intro rest _
  rw [List.append_assoc]
  cases behind with
  | nil => exact absurd rfl hne
  | cons c behind => exact h (c :: (behind ++ rest)) (delimited_cons.2 (delimited_cons.1 hbehind))

/-- A parenthesis is no part of a number. -/
theorem unsigned_parens (text : String) : Unsigned ("(" ++ text ++ ")").toList := by
  intro rest _
  have htext : ("(" ++ text ++ ")").toList ++ rest = '(' :: (text.toList ++ ')' :: rest) := by simp
  rw [htext]
  exact ⟨rfl, rfl⟩

/-! ## What a scan finds -/

/-- If the body is that of a string, it is made of plain characters. -/
def PlainBody (raw : Literal.Raw) : Prop :=
  raw.kind = .string → ∀ c ∈ raw.body.toList, Text.isPlain c = true

theorem plainBody_of_ne {raw : Literal.Raw} (h : raw.kind ≠ .string) : PlainBody raw :=
  fun hkind => absurd hkind h

/-- A token at the front of `cs`: a literal that has a value, the name that is there, or a mark. -/
inductive Found (cs : List Char) : Kind → Prop where
  | literal {raw : Literal.Raw} {l : Literal} (value : raw.value = .ok l) (plain : PlainBody raw) :
      Found cs (.literal raw)
  | name {word : String} (starts : startsWord cs = true) (chars : word.toList = (splitName cs).1)
      (hconstant : constant? word = none) : Found cs (.name word)
  | mark (m : Mark) : Found cs (.mark m)

/-- What the scan gives, if it gives a token, satisfies the condition. -/
def Scan.Gives (P : Kind → Prop) (s : Scan) : Prop := ∀ kind, s.outcome = .ok kind → P kind

/-- Whatever the scan gives is a token at the front of `cs`. -/
def Scan.Finds (s : Scan) (cs : List Char) : Prop := ∀ kind, s.outcome = .ok kind → Found cs kind

section

variable {P : Kind → Prop} {read rest cs : List Char} {raw : Literal.Raw}

theorem Scan.gives_failed {fault : LexFault} {offset : Nat} :
    (failed read rest fault offset).Gives P := by
  rintro kind ⟨⟩

theorem Scan.gives_found {kind : Kind} (h : P kind) : (found read rest kind).Gives P := by
  rintro _ ⟨⟩
  exact h

theorem Scan.gives_literal (h : ∀ l, raw.value = .ok l → P (.literal raw)) :
    (literal read rest raw).Gives P := by
  unfold literal
  split
  next hvalue => exact gives_found (h _ hvalue)
  next => exact gives_failed

theorem Scan.gives_bounded (h : ∀ l, raw.value = .ok l → P (.literal raw)) :
    (bounded read rest raw).Gives P := by
  rw [bounded.eq_def]
  split
  · split
    · exact gives_failed
    · exact gives_literal h
  · exact gives_literal h

theorem Scan.finds_literal (hplain : PlainBody raw) : (literal read rest raw).Finds cs :=
  gives_literal fun _ hvalue => .literal hvalue hplain

theorem Scan.finds_bounded (hplain : PlainBody raw) : (bounded read rest raw).Finds cs :=
  gives_bounded fun _ hvalue => .literal hvalue hplain

theorem isNumeric_of_integerKind? {body : List Char} {kind : Literal.Kind}
    (h : integerKind? body = some kind) : kind.isNumeric = true := by
  unfold integerKind? at h
  split at h
  · cases h
    rfl
  split at h
  · cases h
    rfl
  split at h
  · cases h
    rfl
  · cases h

theorem isNumeric_of_kindOfLetter? {fractional : Bool} {c : Char} {kind : Literal.Kind}
    (h : kindOfLetter? fractional c = some kind) : kind.isNumeric = true := by
  unfold kindOfLetter? at h
  split at h
  · split at h <;> cases h
    rfl
  all_goals cases h <;> rfl

/-- No number is a string. -/
theorem plainBody_of_isNumeric {raw : Literal.Raw} (h : raw.kind.isNumeric = true) :
    PlainBody raw := by
  refine plainBody_of_ne fun hkind => ?_
  rw [hkind] at h
  cases h

theorem finds_scanPlain (sign : List Char) (n : Numeral) : (scanPlain sign n).Finds cs := by
  rw [scanPlain]
  split
  · exact Scan.finds_bounded (plainBody_of_ne (by rintro ⟨⟩))
  · split
    next hkind =>
      exact Scan.finds_bounded (plainBody_of_isNumeric (isNumeric_of_integerKind? hkind))
    next => exact Scan.gives_failed

theorem finds_scanNumber (sign ds : List Char) : (scanNumber sign ds).Finds cs := by
  rw [scanNumber]
  split
  · split
    next hkind =>
      exact Scan.finds_bounded (plainBody_of_isNumeric (isNumeric_of_kindOfLetter? hkind))
    next => exact finds_scanPlain sign _
  · exact finds_scanPlain sign _

/-- Between quotes there are plain characters only. -/
theorem isPlain_of_mem_body (ds : List Char) :
    ∀ c ∈ (Text.Quoted.scan ds).body, Text.isPlain c = true := by
  fun_induction Text.Quoted.scan ds with
  | case1 | case3 | case5 => simp
  | case2 ds ih => exact List.forall_mem_cons.2 ⟨by decide, ih⟩
  | case4 c ds _ _ hplain ih => exact List.forall_mem_cons.2 ⟨hplain, ih⟩

theorem gives_scanQuoted {lead : List Char} {kind : Literal.Kind}
    {finish : List Char → List Char → List Char → Scan}
    (hfinish : ∀ read rest body, (∀ c ∈ body, Text.isPlain c = true) →
      (finish read rest body).Gives P) (ds : List Char) :
    (scanQuoted lead kind finish ds).Gives P := by
  rw [scanQuoted]
  split
  · exact hfinish _ _ _ (isPlain_of_mem_body ds)
  · exact Scan.gives_failed
  · exact Scan.gives_failed

/-- No word types a string. -/
theorem TypeWord.ne_string_of_kindOf {w : TypeWord} {body : List Char} {kind : Literal.Kind}
    (h : w.kindOf body = .ok kind) : kind ≠ .string := by
  unfold kindOf at h
  rintro rfl
  repeat' split at h
  all_goals cases h

theorem finds_scanTyped (w : TypeWord) (word ds : List Char) : (scanTyped w word ds).Finds cs := by
  refine gives_scanQuoted (fun read rest body _ => ?_) ds
  unfold typedLiteral
  split
  next hkind => exact Scan.finds_literal (plainBody_of_ne (TypeWord.ne_string_of_kindOf hkind))
  next => exact Scan.gives_failed

/-- A constant has a value and is no string. -/
theorem found_of_constant? {word : String} {raw : Literal.Raw} (h : constant? word = some raw) :
    Found cs (.literal raw) := by
  unfold constant? at h
  split at h <;> cases h <;> exact .literal rfl (plainBody_of_ne nofun)

/-- A name is found where a text begins with one that is no constant. -/
theorem finds_scanName (hstart : startsWord cs = true) : (scanName cs).Finds cs := by
  have hkind : Found cs (kindOfName (String.ofList (splitName cs).1)) := by
    unfold kindOfName
    split
    next hconstant => exact found_of_constant? hconstant
    next hconstant => exact .name hstart String.toList_ofList hconstant
  rw [scanName]
  split
  · split
    · exact finds_scanTyped _ _ _
    · exact Scan.gives_found hkind
  · exact Scan.gives_found hkind

theorem finds_scan (afterOperand : Bool) (c : Char) (cs : List Char) :
    (scan afterOperand c cs).Finds (c :: cs) := by
  unfold scan
  split
  · refine gives_scanQuoted (fun read rest body hplain => ?_) cs
    refine Scan.gives_found (.literal rfl fun _ => ?_)
    rw [String.toList_ofList]
    exact hplain
  split
  · unfold scanMinus
    split
    · exact finds_scanNumber _ _
    split
    · exact Scan.gives_found (.literal rfl (plainBody_of_ne nofun))
    · exact Scan.gives_found (.mark _)
  split
  · exact finds_scanNumber _ _
  split
  · unfold scanUnsigned
    split
    · exact Scan.finds_bounded (plainBody_of_ne nofun)
    · exact finds_scanNumber _ _
  split
  next hstart => exact finds_scanName hstart
  split
  · exact Scan.gives_found (.mark _)
  · exact Scan.gives_failed

theorem name_of_scan {afterOperand : Bool} {c : Char} {cs : List Char} {word : String}
    (h : (scan afterOperand c cs).outcome = .ok (.name word)) :
    Text.isNameStart c = true ∧ word.toList = (splitName (c :: cs)).1 ∧ constant? word = none := by
  cases finds_scan afterOperand c cs _ h with
  | name starts chars hconstant => exact ⟨starts, chars, hconstant⟩

theorem value_of_scan {afterOperand : Bool} {c : Char} {cs : List Char} {raw : Literal.Raw}
    (h : (scan afterOperand c cs).outcome = .ok (.literal raw)) : ∃ l, raw.value = .ok l := by
  cases finds_scan afterOperand c cs _ h with
  | literal value _ => exact ⟨_, value⟩

theorem plainBody_of_scan {afterOperand : Bool} {c : Char} {cs : List Char} {raw : Literal.Raw}
    (h : (scan afterOperand c cs).outcome = .ok (.literal raw)) : PlainBody raw := by
  cases finds_scan afterOperand c cs _ h with
  | literal _ plain => exact plain

end

end Token

namespace Lexer

open Token (Delimited Lexeme)

/-- The text consists of blanks and tokens of the given kinds. -/
inductive Lexes : Bool → List Char → List Token.Kind → Prop where
  | done {afterOperand cs} (h : cs.dropWhile Text.isBlank = []) : Lexes afterOperand cs []
  | token {afterOperand cs c ds read rest kind kinds}
      (h : cs.dropWhile Text.isBlank = c :: ds)
      (hs : Token.scan afterOperand c ds = .found read rest kind) (hrest : rest.length ≤ ds.length)
      (more : Lexes kind.endsOperand rest kinds) : Lexes afterOperand cs (kind :: kinds)

theorem map_eq_ok {ε α β : Type} {g : α → β} {x : Except ε α} {b : β} :
    x.map g = .ok b ↔ ∃ a, x = .ok a ∧ g a = b := by
  cases x <;> simp [Except.map]

theorem length_dropWhile_le (p : Char → Bool) (cs : List Char) :
    (cs.dropWhile p).length ≤ cs.length := (List.dropWhile_suffix p).length_le

/-- The lexer finds the tokens that a text consists of. -/
theorem upTo_of_lexes {afterOperand : Bool} {cs : List Char} {kinds : List Token.Kind}
    (h : Lexes afterOperand cs kinds) {l : Lexer} (ha : l.afterOperand = afterOperand)
    (hc : l.cursor.ahead = cs) {limit : Nat} (hl : cs.length ≤ limit) :
    ∃ ts, upTo limit l = .ok ts ∧ ts.map Token.kind = kinds := by
  induction h generalizing l limit with
  | @done afterOperand cs h =>
    refine ⟨[], ?_, rfl⟩
    cases limit with
    | zero => rfl
    | succ limit =>
      have hahead : l.cursor.skipBlank.ahead = [] := by
        show l.cursor.ahead.dropWhile Text.isBlank = []
        rw [hc, h]
      simp [upTo, next, hahead]
  | @token afterOperand cs c ds read rest kind kinds h hs hrest more ih =>
    have hlen := length_dropWhile_le Text.isBlank cs
    rw [h, List.length_cons] at hlen
    cases limit with
    | zero => omega
    | succ limit =>
      have hahead : l.cursor.skipBlank.ahead = c :: ds := by
        show l.cursor.ahead.dropWhile Text.isBlank = c :: ds
        rw [hc, h]
      let stop := l.cursor.skipBlank.advance read rest
      have hrest' : rest.length ≤ limit := by omega
      obtain ⟨ts, hts, hkinds⟩ := ih (l := ⟨stop, kind.endsOperand⟩) rfl rfl hrest'
      refine ⟨⟨kind, ⟨l.cursor.skipBlank.pos, stop.pos⟩⟩ :: ts, ?_, ?_⟩
      · simp only [upTo, next, hahead, ha, hs, Token.Scan.found]
        show (upTo limit ⟨stop, kind.endsOperand⟩).map _ = _
        rw [hts]
        rfl
      · rw [List.map_cons, hkinds]

/-- The tokens of a text are those that it consists of. -/
theorem tokenize_of_lexes {text : String} {kinds : List Token.Kind}
    (h : Lexes false text.toList kinds) :
    ∃ ts, tokenize text = .ok ts ∧ ts.map Token.kind = kinds :=
  upTo_of_lexes h rfl rfl (Nat.le_succ _)

/-- A text has at most one token more than characters. -/
theorem length_upTo_le {limit : Nat} {l : Lexer} {ts : List Token} (h : upTo limit l = .ok ts) :
    ts.length ≤ limit := by
  induction limit generalizing l ts with
  | zero =>
    cases h
    exact Nat.le_refl _
  | succ limit ih =>
    simp only [upTo] at h
    split at h
    · cases h
      exact Nat.zero_le _
    · obtain ⟨ts', hts', rfl⟩ := map_eq_ok.1 h
      exact Nat.succ_le_succ (ih hts')
    · cases h

/-- The first token of a text is what is scanned behind blanks. -/
theorem scan_of_tokenize {text : String} {t : Token} {ts : List Token}
    (h : tokenize text = .ok (t :: ts)) :
    ∃ c cs, text.toList.dropWhile Text.isBlank = c :: cs ∧
      (Token.scan false c cs).outcome = .ok t.kind := by
  rw [tokenize, upTo] at h
  have hafter : (ofText text).afterOperand = false := rfl
  cases hahead : (ofText text).cursor.skipBlank.ahead with
  | nil =>
    simp only [next, hahead] at h
    cases h
  | cons c cs =>
    refine ⟨c, cs, hahead, ?_⟩
    cases hscan : (Token.scan false c cs).outcome with
    | error flaw =>
      simp only [next, hahead, hafter, hscan] at h
      cases h
    | ok kind =>
      simp only [next, hahead, hafter, hscan] at h
      obtain ⟨_, -, hts⟩ := map_eq_ok.1 h
      exact congrArg Except.ok (congrArg Token.kind (List.cons.inj hts).1)

/-- A text whose first token is a name that is all of the text. -/
theorem nameText_of_tokenize {word : String} {t : Token} {ts : List Token}
    (h : tokenize word = .ok (t :: ts)) (ht : t.kind = .name word) :
    Token.NameText word ∧ Token.constant? word = none := by
  obtain ⟨c, cs, hdrop, hscan⟩ := scan_of_tokenize h
  rw [ht] at hscan
  obtain ⟨hstart, hword, hconstant⟩ := Token.name_of_scan hscan
  have hsplit := Token.splitName_append (c :: cs)
  have hlen := length_dropWhile_le Text.isBlank word.toList
  -- the name is as long as the text, so nothing is in front of it or behind it
  have hcs : word.toList = c :: cs := by
    have hbehind : (Token.splitName (c :: cs)).2 = [] := by
      rw [hdrop, ← hsplit, List.length_append, ← hword] at hlen
      exact List.eq_nil_of_length_eq_zero (by omega)
    rw [hword]
    rwa [hbehind, List.append_nil] at hsplit
  have hblank : Text.isBlank c = false := by
    have := List.head?_dropWhile_not Text.isBlank word.toList
    rw [hdrop] at this
    simpa using this
  exact ⟨⟨⟨c, cs, hcs, hblank, hstart⟩, by rw [hcs, ← hword, hcs]⟩, hconstant⟩

/-! ## Putting texts together -/

/-- A relation between texts and kinds of tokens that holds of a text if it holds of what stands
    behind a blank or a token at its front. -/
structure TokenByToken (L : Bool → List Char → List Token.Kind → Prop) : Prop where
  blank {afterOperand rest kinds} (h : L afterOperand rest kinds) :
    L afterOperand (' ' :: rest) kinds
  token {afterOperand cs c ds read rest kind kinds}
    (h : cs.dropWhile Text.isBlank = c :: ds)
    (hs : Token.scan afterOperand c ds = .found read rest kind) (hrest : rest.length ≤ ds.length)
    (more : L kind.endsOperand rest kinds) : L afterOperand cs (kind :: kinds)

theorem tokenByToken_lexes : TokenByToken Lexes where
  blank h := by
    cases h with
    | done h => exact .done h
    | token h hs hrest more => exact .token h hs hrest more
  token := .token

section

variable {L : Bool → List Char → List Token.Kind → Prop} {afterOperand : Bool}
  {text text' rest : List Char} {kind : Token.Kind} {kinds kinds' : List Token.Kind}

namespace TokenByToken

variable (hL : TokenByToken L)

include hL

theorem lexeme (more : L kind.endsOperand rest kinds)
    (h : Lexeme afterOperand text kind) (hrest : Delimited rest) :
    L afterOperand (text ++ rest) (kind :: kinds) := by
  obtain ⟨c, cs, rfl, hblank, hscan⟩ := h
  have hfront : (c :: cs ++ rest).dropWhile Text.isBlank = c :: (cs ++ rest) := by simp [hblank]
  exact hL.token hfront (hscan rest hrest) (by simp) more

theorem mark {m : Mark} (hm : m ≠ .minus)
    (more : L (Token.Kind.mark m).endsOperand rest kinds) :
    L afterOperand (m.char :: rest) (.mark m :: kinds) := by
  have hfront : (m.char :: rest).dropWhile Text.isBlank = m.char :: rest := by
    cases m <;> rfl
  have hscan : Token.scan afterOperand m.char rest = .found [m.char] rest (.mark m) := by
    cases m with
    | minus => exact absurd rfl hm
    | _ => rfl
  exact hL.token hfront hscan (Nat.le_refl _) more

/-- A minus in front of what is no number and does not begin with the word for infinity. -/
theorem minus (hdigit : Token.startsDigit rest = false)
    (hinfinity : Token.startsInfinity rest = false) (more : L false rest kinds) :
    L false ('-' :: rest) (.mark .minus :: kinds) := by
  have hscan : Token.scan false '-' rest = .found ['-'] rest (.mark .minus) := by
    show Token.scanMinus false rest = _
    simp [Token.scanMinus, hdigit, hinfinity]
  exact hL.token rfl hscan (Nat.le_refl _) more

end TokenByToken

/-- Wherever the relation holds of some kinds behind the text, whatever token is in front of them,
    it holds of the text with its own kinds in front. -/
def LexedBy (L : Bool → List Char → List Token.Kind → Prop) (text : List Char)
    (kinds : List Token.Kind) : Prop :=
  ∀ rest more, Delimited rest → (∀ afterOperand, L afterOperand rest more) →
    L false (text ++ rest) (kinds ++ more)

namespace LexedBy

theorem nil : LexedBy L [] [] := fun _ _ _ hmore => hmore false

variable {text text' word : String} (hL : TokenByToken L)

include hL

theorem lexeme {text : List Char} (h : Lexeme false text kind) : LexedBy L text [kind] :=
  fun _ _ hrest hmore => hL.lexeme (hmore _) h hrest

theorem parens (h : LexedBy L text.toList kinds) :
    LexedBy L ("(" ++ text ++ ")").toList
      (.mark .parenOpen :: (kinds ++ [.mark .parenClose])) := by
  intro rest more _ hmore
  have hclose : L false (text.toList ++ ')' :: rest) (kinds ++ .mark .parenClose :: more) :=
    h _ _ (Token.delimited_cons.2 rfl) fun _ => hL.mark (m := .parenClose) nofun (hmore _)
  have hopen : L false ('(' :: (text.toList ++ ')' :: rest))
      (.mark .parenOpen :: (kinds ++ .mark .parenClose :: more)) :=
    hL.mark (m := .parenOpen) nofun hclose
  simpa using hopen

theorem comma (h : LexedBy L text.toList kinds) (h' : LexedBy L text'.toList kinds') :
    LexedBy L (text ++ "," ++ text').toList (kinds ++ .mark .comma :: kinds') := by
  intro rest more hrest hmore
  have := h (',' :: (text'.toList ++ rest)) (.mark .comma :: (kinds' ++ more))
    (Token.delimited_cons.2 rfl) fun _ => hL.mark (m := .comma) nofun (h' rest more hrest hmore)
  simpa using this

/-- A word in front of a text from which a blank sets it off. -/
theorem behindWord (hword : ∀ afterOperand, Lexeme afterOperand word.toList (.name word))
    (hends : (Token.Kind.name word).endsOperand = false) (h : LexedBy L text.toList kinds) :
    LexedBy L (word ++ " " ++ text).toList (.name word :: kinds) := by
  intro rest more hrest hmore
  have htext := hL.blank (h rest more hrest hmore)
  rw [← hends] at htext
  have := hL.lexeme htext (hword false) (Token.delimited_cons.2 rfl)
  simpa using this

/-- A word between two texts from which blanks set it off. -/
theorem between (hword : ∀ afterOperand, Lexeme afterOperand word.toList (.name word))
    (hends : (Token.Kind.name word).endsOperand = false) (h : LexedBy L text.toList kinds)
    (h' : LexedBy L text'.toList kinds') :
    LexedBy L (text ++ " " ++ word ++ " " ++ text').toList (kinds ++ .name word :: kinds') := by
  intro rest more hrest hmore
  have htext := hL.blank (h' rest more hrest hmore)
  rw [← hends] at htext
  have := h (' ' :: (word.toList ++ ' ' :: (text'.toList ++ rest)))
    (.name word :: (kinds' ++ more)) (Token.delimited_cons.2 rfl) fun _ =>
      hL.blank (hL.lexeme htext (hword _) (Token.delimited_cons.2 rfl))
  simpa using this

theorem minus (hsign : Token.Unsigned text.toList) (h : LexedBy L text.toList kinds) :
    LexedBy L ("-" ++ text).toList (.mark .minus :: kinds) := by
  intro rest more hrest hmore
  obtain ⟨hdigit, hinfinity⟩ := hsign rest hrest
  simpa using hL.minus hdigit hinfinity (h rest more hrest hmore)

/-- A name in front of a list in parentheses. -/
theorem call (hword : Lexeme false word.toList (.name word)) (h : LexedBy L text.toList kinds) :
    LexedBy L (word ++ "(" ++ text ++ ")").toList
      (.name word :: .mark .parenOpen :: (kinds ++ [.mark .parenClose])) := by
  intro rest more _ hmore
  have hclose : L false (text.toList ++ ')' :: rest) (kinds ++ .mark .parenClose :: more) :=
    h _ _ (Token.delimited_cons.2 rfl) fun _ => hL.mark (m := .parenClose) nofun (hmore _)
  have hopen : L (Token.Kind.name word).endsOperand ('(' :: (text.toList ++ ')' :: rest))
      (.mark .parenOpen :: (kinds ++ .mark .parenClose :: more)) :=
    hL.mark (m := .parenOpen) nofun hclose
  have := hL.lexeme hopen hword (Token.delimited_cons.2 rfl)
  simpa using this

end LexedBy

/-- The text is read as tokens of the given kinds in front of any delimiter. -/
def Lexed (text : List Char) (kinds : List Token.Kind) : Prop :=
  ∀ rest more, Delimited rest → (∀ afterOperand, Lexes afterOperand rest more) →
    Lexes false (text ++ rest) (kinds ++ more)

theorem Lexed.lexes (h : Lexed text kinds) : Lexes false text kinds := by
  have := h [] [] Token.delimited_nil fun _ => .done rfl
  rwa [List.append_nil, List.append_nil] at this

end

end Lexer

end QueryExpr
