import QueryExpr.Bytes.Guid
import QueryExpr.Number.Floating.Reader
import QueryExpr.Number.Integer
import QueryExpr.Temporal.Duration

/-!
# Why a literal has no value

The reasons that the lexer gives, and those of the libraries that read a body
(specification, 7).
-/

namespace QueryExpr

/-- Why the body of a literal is none of its kind (the `reason` of a `MalformedLiteral`). -/
inductive Literal.Reason where
  | notBoolean
  | notInteger (fault : Number.IntegerFault)
  /-- An integer without suffix that no numeric type holds. -/
  | integerOutOfRange
  | notFloating (fault : Number.Floating.Fault)
  | singleOutOfRange
  | doubleOutOfRange
  | notDecimal
  | notBinary
  | notHex
  | notMoment
  | notDate
  | notCivil
  | notZoned
  | notTime
  | notGuid (fault : Bytes.Guid.Fault)
  | notDuration (body : String)
  deriving DecidableEq, Repr

/-- What is wrong, in words. -/
def Literal.Reason.message : Literal.Reason → String
  | notBoolean => "expected true or false"
  | notInteger fault => fault.message
  | integerOutOfRange => "integer out of range"
  | notFloating fault => fault.message
  | singleOutOfRange => "single out of range"
  | doubleOutOfRange => "double out of range"
  | notDecimal => "not a decimal number"
  | notBinary => "expected hex or base64 data"
  | notHex => "expected an even number of hex digits"
  | notMoment => "expected an ISO 8601 date or time"
  | notDate => "expected a date"
  | notCivil => "expected a date and time"
  | notZoned => "expected a date and time with offset"
  | notTime => "expected a time of day or duration"
  | notGuid fault => fault.message
  | notDuration body => Temporal.Duration.invalidMessage body

end QueryExpr
