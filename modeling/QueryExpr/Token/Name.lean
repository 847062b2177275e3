import QueryExpr.Token.Quotation

/-!
# Names as tokens

A name is words joined by slashes and points, each joint followed by a character
that may begin a word. Some names are constants, and some type the quoted literal
behind them (specification, 4.2).

* `splitName`: the name at the front of a text.
* `scanName`: the token that begins with a name.
-/

namespace QueryExpr.Token

/-- Whether a text begins with a character that may begin a word. -/
def startsWord : List Char → Bool
  | c :: _ => Text.isNameStart c
  | [] => false

/-- Whether the character joins the words of a name. -/
def isJoint (c : Char) : Bool := c == '/' || c == '.'

/-- The name at the front of a text, and the text behind it (the loop of `scan_identifier`). -/
def splitName : List Char → List Char × List Char
  | [] => ([], [])
  | c :: cs =>
    if Text.isNameChar c || (isJoint c && startsWord cs) then
      (c :: (splitName cs).1, (splitName cs).2)
    else ([], c :: cs)

/-- The constant that a word stands for (those of `LiteralToken`). -/
def constant? (word : String) : Option Literal.Raw :=
  match word with
  | "true" => some ⟨word, .boolean⟩
  | "false" => some ⟨word, .boolean⟩
  | "null" => some ⟨word, .null⟩
  | "NaN" => some ⟨word, .double⟩
  | "INF" => some ⟨word, .double⟩
  | _ => none

/-- The kind of a name that types no quoted literal. -/
def kindOfName (word : String) : Kind :=
  match constant? word with
  | some raw => .literal raw
  | none => .name word

/-- The token that begins with the name at the front of a text (`scan_identifier`). -/
def scanName (cs : List Char) : Scan :=
  let name := splitName cs
  let word := String.ofList name.1
  match name.2 with
  | '\'' :: quoted =>
    match TypeWord.ofWord? word with
    | some w => scanTyped w name.1 quoted
    | none => .found name.1 name.2 (kindOfName word)
  | _ => .found name.1 name.2 (kindOfName word)

/-! ## The scan loses nothing -/

theorem splitName_append (cs : List Char) : (splitName cs).1 ++ (splitName cs).2 = cs := by
  induction cs with
  | nil => rfl
  | cons c cs ih =>
    simp only [splitName]
    split
    · simpa using ih
    · rfl

theorem scanName_covers (cs : List Char) : (scanName cs).Covers cs := by
  have h := splitName_append cs
  simp only [scanName]
  split
  next quoted hq =>
    split
    next w _ =>
      have ht := scanTyped_covers w (splitName cs).1 quoted
      rwa [← hq, h] at ht
    · exact Scan.found_covers h
  · exact Scan.found_covers h

end QueryExpr.Token
