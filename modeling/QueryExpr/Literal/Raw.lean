import QueryExpr.Bytes.Base64
import QueryExpr.Literal
import QueryExpr.Literal.Kind
import QueryExpr.Literal.Reason
import QueryExpr.Number.Decimal.Reader
import QueryExpr.Temporal.Moment.Reader

/-!
# Literals as they are written

A literal is written as a body, and quotes, a word or a suffix around it that
tell its kind (specification, 3). What a body stands for is the documented behaviour
of a library: `from_str` of the integers and of `f32` and `f64`, `from_str` and
`from_scientific` of `Decimal`, `hex`, `base64`, `uuid`, and `chrono`.

* `Literal.Raw.value`: the literal that a body of a kind stands for.
* `Literal.Raw.text`: the body with what tells its kind.
-/

namespace QueryExpr

open Number (Decimal Floating Integer.readSigned)

/-- The body of a literal and its kind (`LiteralToken`). -/
structure Literal.Raw where
  body : String
  kind : Literal.Kind
  deriving DecidableEq, Repr, Inhabited

namespace Literal.Raw

/-! ## The value -/

/-- The floating-point values that are not written in digits (`special_float`). -/
def word? (body : String) : Option Floating :=
  match body with
  | "NaN" => some .nan
  | "INF" => some (.infinite false)
  | "-INF" => some (.infinite true)
  | _ => none

/-- Reads a floating-point number, which has to be finite unless it is one of the words. -/
def readFloating (f : Floating.Format) (beyond : Reason) (body : String) :
    Except Reason Floating :=
  match word? body with
  | some v => .ok v
  | none =>
    match Floating.read f body.toList with
    | .ok v => if v.isFinite then .ok v else .error beyond
    | .error fault => .error (.notFloating fault)

/-- Bytes in hexadecimal or, if the body is not, in base 64 (`decode_binary`). -/
def readBinary (body : List Char) : Option (List UInt8) :=
  (Bytes.Hex.decode body).or (Bytes.Base64.decode body)

/-- The literal that the body stands for (`LiteralToken.value`). -/
def value (raw : Raw) : Except Reason Literal :=
  let cs := raw.body.toList
  match raw.kind with
  | .null => .ok .null
  | .string => .ok (.string raw.body)
  | .boolean =>
    match raw.body with
    | "true" => .ok (.boolean true)
    | "false" => .ok (.boolean false)
    | _ => .error .notBoolean
  | .int =>
    match Integer.readSigned 32 cs with
    | .ok n => .ok (.int (Int32.ofInt n))
    | .error fault => .error (.notInteger fault)
  | .long =>
    match Integer.readSigned 64 cs with
    | .ok n => .ok (.long (Int64.ofInt n))
    | .error fault => .error (.notInteger fault)
  | .single => (readFloating .single .singleOutOfRange raw.body).map .single
  | .double => (readFloating .double .doubleOutOfRange raw.body).map .double
  | .decimal =>
    match Decimal.read cs with
    | some d => .ok (.decimal d)
    | none => .error .notDecimal
  | .binary =>
    match readBinary cs with
    | some bytes => .ok (.binary bytes)
    | none => .error .notBinary
  | .dateTime =>
    match Temporal.Moment.read cs with
    | some m => .ok (.dateTime m)
    | none => .error .notMoment
  | .guid =>
    match Bytes.Guid.read cs with
    | .ok g => .ok (.guid g)
    | .error fault => .error (.notGuid fault)
  | .duration =>
    match Temporal.Duration.read cs with
    | some d => .ok (.duration d)
    | none => .error (.notDuration raw.body)

/-! ## The notation -/

/-- Whether a body without suffix is read as a number of double precision. -/
def looksDouble (body : List Char) : Bool :=
  body.any (fun c => c == '.' || c == 'e' || c == 'E') ||
    ['N', 'a', 'N'].isSuffixOf body || ['I', 'N', 'F'].isSuffixOf body

/-- The body with what tells its kind (the `Display` of `LiteralToken`). -/
def text (raw : Raw) : String :=
  match raw.kind with
  | .string => String.ofList (Text.Quoted.enclose raw.body.toList)
  | .guid => typed "guid" raw.body
  | .binary => typed "binary" raw.body
  | .dateTime => typed "datetime" raw.body
  | .duration => typed "duration" raw.body
  | .long => raw.body ++ "L"
  | .decimal => raw.body ++ "m"
  | .single => raw.body ++ "f"
  | .double => if looksDouble raw.body.toList then raw.body else raw.body ++ "d"
  | .null | .boolean | .int => raw.body

/-- Whether the literal is a number with a minus sign (`is_negative`). -/
def isNegative (raw : Raw) : Bool := raw.kind.isNumeric && raw.body.toList.head? == some '-'

end Literal.Raw

end QueryExpr
