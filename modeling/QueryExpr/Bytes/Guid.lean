import QueryExpr.Bytes.Hex
import QueryExpr.Number.Digits
import QueryExpr.Text.Utf8

/-!
# Globally unique identifiers

Sixteen bytes, written as 32 hexadecimal digits in groups of 8, 4, 4, 4 and 12
with hyphens between them. The groups may also stand in braces or behind
`urn:uuid:`, and the 32 digits may stand without hyphens. The forms, and which fault
is named first, are those of the library `uuid`.

* `Guid.read`: reads any of the four forms.
* `Guid.chars`: writes the hyphenated form in lower case.
* `Guid.Fault`: the first thing wrong with a text that has none of the forms.
-/

namespace QueryExpr.Bytes

/-- Sixteen bytes that name something (`Uuid`). -/
structure Guid where
  bytes : List UInt8
  size : bytes.length = 16
  deriving DecidableEq

namespace Guid

instance : Inhabited Guid := ⟨⟨List.replicate 16 0, by decide⟩⟩

/-! ## Writing -/

/-- The digits with hyphens between the groups. -/
def hyphenate (ds : List Char) : List Char :=
  ds.take 8 ++ '-' :: ((ds.drop 8).take 4 ++ '-' :: ((ds.drop 12).take 4 ++ '-' ::
    ((ds.drop 16).take 4 ++ '-' :: ds.drop 20)))

/-- The hyphenated form in lower case. -/
def chars (g : Guid) : List Char := hyphenate (Hex.encode .lower g.bytes)

/-- The hyphenated form in lower case (the `Display` of `Uuid`). -/
def text (g : Guid) : String := String.ofList g.chars

/-! ## Reading -/

/-- The GUID of exactly 32 digits. -/
def ofDigits? (ds : List Char) : Option Guid := do
  let bytes ← Hex.decode ds
  if h : bytes.length = 16 then some ⟨bytes, h⟩ else none

/-- The GUID in hyphenated form. -/
def ofHyphenated? (cs : List Char) : Option Guid :=
  let ds := cs.filter (· != '-')
  if ds.length = 32 && hyphenate ds = cs then ofDigits? ds else none

/-- The letters before the hyphenated form in a name of a resource. -/
def urnLead : List Char := ['u', 'r', 'n', ':', 'u', 'u', 'i', 'd', ':']

/-- What stands behind the resource lead, whose letters may have either case. -/
def behindUrn? (cs : List Char) : Option (List Char) :=
  if (cs.take urnLead.length).map Char.toLower = urnLead then some (cs.drop urnLead.length)
  else none

/-- What stands between braces. -/
def insideBraces? : List Char → Option (List Char)
  | '\x7b' :: cs => if cs.getLast? = some '\x7d' then some cs.dropLast else none
  | _ => none

/-- The GUID written in any of the forms. -/
def ofChars? (cs : List Char) : Option Guid :=
  match insideBraces? cs with
  | some inside => ofHyphenated? inside
  | none =>
    match behindUrn? cs with
    | some behind => ofHyphenated? behind
    | none => if cs.length = 32 then ofDigits? cs else ofHyphenated? cs

/-! ## What is wrong with other texts -/

/-- Why a text is no GUID (the error of `Uuid.parse_str`). -/
inductive Fault where
  /-- Digits without hyphens, but not 32 of them. -/
  | length (found : Nat)
  /-- A character that has no place in a GUID, at a byte offset. -/
  | character (c : Char) (index : Nat)
  | groupCount (found : Nat)
  | groupLength (group expected found : Nat)
  deriving DecidableEq, Repr

/-- What is wrong, in words. -/
def Fault.message : Fault → String
  | .length n => s!"invalid length: found {n}"
  | .character c i => s!"invalid character: found `{c}` at {i}"
  | .groupCount n => s!"invalid group count: expected 5, found {n}"
  | .groupLength k e n => s!"invalid group length in group {k}: expected {e}, found {n}"

/-- The most bytes a GUID is written in. -/
def maxSize : Nat := 45

/-- The first character that is neither a digit nor a hyphen, with its offset, where the text starts
    at byte `index`. -/
def firstStray (index : Nat) : List Char → Option (Char × Nat)
  | [] => none
  | c :: cs =>
    if Hex.isDigit c || c == '-' then firstStray (index + c.utf8Size) cs else some (c, index)

/-- The places of the hyphens, where the text starts at place `index`. -/
def hyphenPlaces (index : Nat) : List Char → List Nat
  | [] => []
  | c :: cs => if c == '-' then index :: hyphenPlaces (index + 1) cs else hyphenPlaces (index + 1) cs

/-- The first of the groups but the last that has a wrong length, given the places of the hyphens
    that end them, the number and the start of the first one, and their lengths. -/
def firstWrongGroup (group start : Nat) : List Nat → List Nat → Option Fault
  | place :: places, expected :: lengths =>
    if place = start + expected then firstWrongGroup (group + 1) (place + 1) places lengths
    else some (.groupLength group expected (place - start))
  | _, _ => none

/-- The number of bytes of the hyphenated form. -/
def hyphenatedSize : Nat := 36

/-- A text that is searched for faults. -/
structure Suspect where
  text : List Char
  /-- The byte offset at which the text starts. -/
  offset : Nat
  /-- The number of bytes by which the length of the last group is judged. -/
  size : Nat
  /-- Whether the text may have been meant to be digits without hyphens. -/
  plain : Bool
  deriving DecidableEq, Repr

/-- What of a text is searched: what has the size of the hyphenated form, alone, in braces or behind
    the resource lead, as a text of its own; otherwise the text without braces or resource lead,
    if there are any. -/
def suspectOf (cs : List Char) : Suspect :=
  let size := Text.Utf8.size cs
  let own (core : List Char) : Suspect := ⟨core, 0, hyphenatedSize, false⟩
  let sized (core : List Char) : Bool := Text.Utf8.size core = hyphenatedSize
  if sized cs then own cs
  else
    match insideBraces? cs with
    | some inside => if sized inside then own inside else ⟨inside, 1, size, false⟩
    | none =>
      match behindUrn? cs with
      | some behind => if sized behind then own behind else ⟨behind, urnLead.length, size, false⟩
      | none => ⟨cs, 0, size, true⟩

/-- The first thing wrong with the form of a text. -/
def Suspect.fault (s : Suspect) : Fault :=
  match firstStray s.offset s.text with
  | some (c, i) => .character c i
  | none =>
    let places := hyphenPlaces 0 s.text
    if places.isEmpty && s.plain then .length s.size
    else if places.length ≠ 4 then .groupCount (places.length + 1)
    else
      match firstWrongGroup 0 0 places [8, 4, 4, 4] with
      | some fault => fault
      | none => .groupLength 4 12 (s.size - 24)

/-- The first thing wrong with a text that is no GUID. -/
def faultOf (cs : List Char) : Fault :=
  let size := Text.Utf8.size cs
  if size = 0 || maxSize < size then .length size else (suspectOf cs).fault

/-- Reads a GUID in any of its forms (`Uuid.parse_str`). -/
def read (cs : List Char) : Except Fault Guid :=
  match ofChars? cs with
  | some g => .ok g
  | none => .error (faultOf cs)

end Guid

end QueryExpr.Bytes
