import QueryExpr.Token.TypeWord

/-!
# Quoted literals as tokens

A quoted body is scanned first, then typed, then given its value (specification, 4.2).

* `scanString`: a string, behind its opening quote.
* `scanTyped`: a literal typed by the word before its quotes.
-/

namespace QueryExpr.Token

/-- A quoted body of a literal of the given kind (`scan_quoted`). The characters `lead`, the last of
    them the opening quote, are passed already; `finish` gives the token of a body and of what was
    passed. -/
def scanQuoted (lead : List Char) (kind : Literal.Kind)
    (finish : List Char → List Char → List Char → Scan) (cs : List Char) : Scan :=
  let s := Text.Quoted.scan cs
  let read := lead ++ s.read
  match s.ending with
  | .closed => finish read s.rest s.body
  | .stray c => .failed read s.rest (.unexpectedChar c) (read.length - 1)
  | .unclosed => .failed read s.rest (.unterminated kind) 0

/-- A string, behind its opening quote (`scan_string`). -/
def scanString (cs : List Char) : Scan :=
  scanQuoted ['\''] .string
    (fun read rest body => .found read rest (.literal ⟨String.ofList body, .string⟩)) cs

/-- The literal with the given body, typed by a word. -/
def typedLiteral (w : TypeWord) (read rest body : List Char) : Scan :=
  match w.kindOf body with
  | .ok kind => .literal read rest ⟨String.ofList body, kind⟩
  | .error reason => .failed read rest (.malformed ⟨String.ofList body, w.kind⟩ reason) 0

/-- The literal typed by the word `word`, behind its opening quote (`scan_typed_literal`). -/
def scanTyped (w : TypeWord) (word cs : List Char) : Scan :=
  scanQuoted (word ++ ['\'']) w.kind (typedLiteral w) cs

/-! ## The scan loses nothing -/

theorem scanQuoted_covers {lead : List Char} {kind : Literal.Kind}
    {finish : List Char → List Char → List Char → Scan} {cs : List Char}
    (h : ∀ read rest body, (finish read rest body).Covers (read ++ rest)) :
    (scanQuoted lead kind finish cs).Covers (lead ++ cs) := by
  have hs : lead ++ (Text.Quoted.scan cs).read ++ (Text.Quoted.scan cs).rest = lead ++ cs := by
    rw [List.append_assoc, Text.Quoted.scan_read_append_rest]
  simp only [scanQuoted]
  split
  · rw [← hs]
    exact h _ _ _
  · exact Scan.failed_covers hs
  · exact Scan.failed_covers hs

theorem scanString_covers (cs : List Char) : (scanString cs).Covers ('\'' :: cs) :=
  scanQuoted_covers fun _ _ _ => Scan.found_covers rfl

theorem typedLiteral_covers (w : TypeWord) (read rest body : List Char) :
    (typedLiteral w read rest body).Covers (read ++ rest) := by
  simp only [typedLiteral]
  split
  · exact Scan.literal_covers rfl
  · exact Scan.failed_covers rfl

theorem scanTyped_covers (w : TypeWord) (word cs : List Char) :
    (scanTyped w word cs).Covers (word ++ '\'' :: cs) := by
  have h : (scanTyped w word cs).Covers (word ++ ['\''] ++ cs) :=
    scanQuoted_covers (typedLiteral_covers w)
  rwa [List.append_assoc, List.singleton_append] at h

end QueryExpr.Token
