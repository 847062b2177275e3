import QueryExpr.Proofs.Kinds
import QueryExpr.Proofs.Rescan

/-!
# Blanks between tokens

How many blanks stand between two tokens, and which, means nothing, as long as there are some. In
front of the first token and behind the last one there may be none.

* `Spacing`: blanks in front of tokens, between them and behind them.
* `respace`: the tokens of a text with other blanks.
* `lexes_spaced`: they are tokens of the same kinds.
* `agree_respace`: so the text is read as before.
-/

namespace QueryExpr

/-- The characters of a token are those that its scan passes. -/
theorem Lexer.slice_of_scan {text : String} {afterOperand : Bool} {before cs read rest : List Char}
    {c : Char} {kind : Token.Kind} (htext : text.toList = before ++ c :: cs)
    (hscan : Token.scan afterOperand c cs = .found read rest kind) :
    Span.slice ⟨Text.Utf8.size before, Text.Utf8.size (before ++ read)⟩ text =
      String.ofList read := by
  have hwhole : text.toList = before ++ read ++ rest := by
    rw [htext, ← (append_eq_of_found hscan).1, List.append_assoc]
  rw [Span.slice, hwhole, Text.Utf8.slice_append]

open Lexer (Blank Cuts Lexes)

/-- Blanks around `count` tokens, some between any two of them. -/
structure Spacing (count : Nat) where
  /-- In front of the first token. -/
  first : String
  /-- Behind each token. -/
  behind : List String
  length_behind : behind.length = count
  blank_first : Blank first.toList
  blank_behind : ∀ gap ∈ behind, Blank gap.toList
  apart : ∀ gap ∈ behind.dropLast, gap ≠ ""

/-- The tokens `ts` of a text, each with the blanks behind it. -/
def spaced (text : String) : List Token → List String → String
  | t :: ts, gap :: gaps => t.span.slice text ++ gap ++ spaced text ts gaps
  | _, _ => ""

/-- The tokens `ts` of a text with other blanks around them. -/
def respace (text : String) (ts : List Token) (gaps : Spacing ts.length) : String :=
  gaps.first ++ spaced text ts gaps.behind

/-- Blanks are followed by the end of the text, or there are some. -/
theorem setOff_spaced (text : String) {gap : String} {ts : List Token} {gaps : List String}
    (hgap : Blank gap.toList) (hlength : gaps.length = ts.length)
    (hapart : ∀ g ∈ (gap :: gaps).dropLast, g ≠ "") :
    Token.SetOff (gap.toList ++ (spaced text ts gaps).toList) := by
  intro c hc
  cases hchars : gap.toList with
  | cons d ds =>
    rw [hchars, List.cons_append, List.head?_cons, Option.mem_some_iff] at hc
    exact hc ▸ hgap d (by rw [hchars]; exact List.mem_cons_self)
  | nil =>
    -- only the last token has nothing behind it
    have hlast : gaps = [] := by
      cases gaps with
      | nil => rfl
      | cons g gaps =>
        have hne := hapart gap (by simp)
        exact absurd (String.toList_eq_nil_iff.1 hchars) hne
    subst hlast
    cases ts with
    | nil => simp [hchars, spaced] at hc
    | cons t ts => cases hlength

theorem dropWhile_blank {gap : List Char} (h : Blank gap) (cs : List Char) :
    (gap ++ cs).dropWhile Text.isBlank = cs.dropWhile Text.isBlank :=
  List.dropWhile_append_of_pos h

/-- With other blanks between them, tokens are found again. -/
theorem lexes_spaced {text : String} {afterOperand : Bool} {before cs : List Char}
    {ts : List Token} (h : Cuts afterOperand before cs ts) (htext : text.toList = before ++ cs)
    {gap : List Char} (hgap : Blank gap) {gaps : List String} (hlength : gaps.length = ts.length)
    (hblank : ∀ g ∈ gaps, Blank g.toList) (hapart : ∀ g ∈ gaps.dropLast, g ≠ "") :
    Lexes afterOperand (gap ++ (spaced text ts gaps).toList) (ts.map Token.kind) := by
  induction h generalizing gap gaps with
  | done =>
    refine .done ?_
    rw [dropWhile_blank hgap]
    rfl
  | @token afterOperand before front c cs read rest kind ts _ hc hscan more ih =>
    cases gaps with
    | nil => cases hlength
    | cons g gaps =>
      obtain ⟨happend, -⟩ := Lexer.append_eq_of_found hscan
      have hwhole : text.toList = before ++ front ++ read ++ rest := by
        rw [htext, ← happend]
        simp
      have hslice : Span.slice ⟨Text.Utf8.size (before ++ front),
          Text.Utf8.size (before ++ front ++ read)⟩ text = String.ofList read :=
        Lexer.slice_of_scan (by rw [htext, List.append_assoc]) hscan
      obtain ⟨body, rfl, hagain⟩ := Token.scan_rescans _ _ _ _ _ _ hscan
      have hset := setOff_spaced text (hblank g List.mem_cons_self)
        (Nat.succ.inj hlength) hapart
      have hapart' : ∀ g' ∈ gaps.dropLast, g' ≠ "" := by
        intro g' hg'
        refine hapart g' ?_
        rw [List.dropLast_cons_of_ne_nil (List.ne_nil_of_mem (List.dropLast_subset gaps hg'))]
        exact List.mem_cons_of_mem g hg'
      have hmore := ih hwhole (hblank g List.mem_cons_self) (Nat.succ.inj hlength)
        (fun g' hg' => hblank g' (List.mem_cons_of_mem _ hg')) hapart'
      have hfront : (gap ++ c :: (body ++ (g.toList ++ (spaced text ts gaps).toList))).dropWhile
          Text.isBlank = c :: (body ++ (g.toList ++ (spaced text ts gaps).toList)) := by
        rw [dropWhile_blank hgap, List.dropWhile_cons_of_neg (by simp [hc])]
      have hchars : (spaced text (⟨kind, ⟨Text.Utf8.size (before ++ front),
          Text.Utf8.size (before ++ front ++ ([c] ++ body))⟩⟩ :: ts) (g :: gaps)).toList =
          c :: (body ++ (g.toList ++ (spaced text ts gaps).toList)) := by
        rw [spaced, hslice]
        simp
      rw [hchars]
      exact .token hfront (hagain _ hset) (by simp) hmore

/-- The literals among the tokens of a text have values. -/
theorem value_of_cuts {afterOperand : Bool} {before cs : List Char} {ts : List Token}
    (h : Cuts afterOperand before cs ts) :
    ∀ t ∈ ts, ∀ raw, t.kind = .literal raw → ∃ l, raw.value = .ok l := by
  induction h with
  | done => simp
  | token _ _ hscan _ ih =>
    refine List.forall_mem_cons.2 ⟨?_, ih⟩
    rintro raw rfl
    exact Token.value_of_scan (congrArg Token.Scan.outcome hscan)

theorem sameKind_of_map_eq {ts ts' : List Token} (h : ts'.map Token.kind = ts.map Token.kind)
    (hvalue : ∀ t ∈ ts, ∀ raw, t.kind = .literal raw → ∃ l, raw.value = .ok l) :
    List.Forall₂ Reading.SameKind ts ts' := by
  induction ts generalizing ts' with
  | nil =>
    rw [List.map_nil, List.map_eq_nil_iff] at h
    subst h
    exact .nil
  | cons t ts ih =>
    obtain ⟨t', ts', rfl, hkind, hkinds⟩ := List.map_eq_cons_iff.1 h
    obtain ⟨ht, hts⟩ := List.forall_mem_cons.1 hvalue
    exact .cons ⟨hkind.symm, ht⟩ (ih hkinds hts)

/-- Other blanks between the tokens of a text, some where there are to be some, do not change what
    the text means: it has tokens of the same kinds, so that within the limit of the length it is
    the same filter, ordering and selection, with the same requests. -/
theorem agree_respace {text : String} {ts : List Token} (h : Lexer.tokenize text = .ok ts)
    (gaps : Spacing ts.length) :
    (∃ ts', Lexer.tokenize (respace text ts gaps) = .ok ts' ∧
      ts'.map Token.kind = ts.map Token.kind) ∧
    ∀ p : Parser, text.toList.length ≤ p.limits.maxLength →
      (respace text ts gaps).toList.length ≤ p.limits.maxLength →
        p.Agree text (respace text ts gaps) := by
  have hcuts := Lexer.cuts_of_tokenize h
  have hlexes : Lexes false (respace text ts gaps).toList (ts.map Token.kind) := by
    rw [respace, String.toList_append]
    exact lexes_spaced hcuts rfl gaps.blank_first gaps.length_behind gaps.blank_behind gaps.apart
  obtain ⟨ts', hts', hkinds⟩ := Lexer.tokenize_of_lexes hlexes
  refine ⟨⟨ts', hts', hkinds⟩, fun p hlength hlength' => ?_⟩
  have htokens : p.tokens text = .ok ts := by
    rw [Parser.tokens, if_neg (Nat.not_lt.2 hlength), h]
  have htokens' : p.tokens (respace text ts gaps) = .ok ts' := by
    rw [Parser.tokens, if_neg (Nat.not_lt.2 hlength'), hts']
  exact Parser.agree_of_kinds htokens htokens' (sameKind_of_map_eq hkinds (value_of_cuts hcuts))

/-- A minus behind a name stays subtraction, and a minus in front of a number its sign. -/
theorem agree_respace_minus :
    let text := "a -1 in('b',-2)"
    let tokens : List Token := [⟨.name "a", ⟨0, 1⟩⟩, ⟨.mark .minus, ⟨2, 3⟩⟩,
      ⟨.literal ⟨"1", .int⟩, ⟨3, 4⟩⟩, ⟨.name "in", ⟨5, 7⟩⟩, ⟨.mark .parenOpen, ⟨7, 8⟩⟩,
      ⟨.literal ⟨"b", .string⟩, ⟨8, 11⟩⟩, ⟨.mark .comma, ⟨11, 12⟩⟩,
      ⟨.literal ⟨"-2", .int⟩, ⟨12, 14⟩⟩, ⟨.mark .parenClose, ⟨14, 15⟩⟩]
    let gaps : Spacing tokens.length := ⟨"\n", [" ", "  ", "\t", " ", " ", " ", " ", " ", ""], rfl,
      by decide, by decide, by decide⟩
    Lexer.tokenize text = .ok tokens ∧
      respace text tokens gaps = "\na -  1\tin ( 'b' , -2 )" ∧
      Parser.standard.Agree text "\na -  1\tin ( 'b' , -2 )" :=
  have h : Lexer.tokenize "a -1 in('b',-2)" = .ok _ := rfl
  ⟨h, rfl, (agree_respace h ⟨"\n", [" ", "  ", "\t", " ", " ", " ", " ", " ", ""], rfl,
    by decide, by decide, by decide⟩).2 Parser.standard (by decide) (by decide)⟩

end QueryExpr
