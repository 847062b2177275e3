import QueryExpr.Bytes.Guid
import QueryExpr.Bytes.Hex
import QueryExpr.Number.Floating.Shortest
import QueryExpr.Number.Integer
import QueryExpr.Temporal.Duration
import QueryExpr.Temporal.Moment
import QueryExpr.Text.Quoted

/-!
# Literals

The typed values of the specification (3).

* `Literal.text`: the literal as it is written in a query.
* `Literal.same`: equality, where decimals are compared by value, moments with an
  offset as points in time, and a floating-point number that is none differs from
  itself.
-/

namespace QueryExpr

open Number (Decimal Floating)
open Temporal (Duration Moment)

/-- A constant of a query (`Literal`). -/
inductive Literal where
  | null
  | string (s : String)
  | boolean (b : Bool)
  | single (v : Floating)
  | double (v : Floating)
  | decimal (d : Decimal)
  | int (n : Int32)
  | long (n : Int64)
  | binary (bytes : List UInt8)
  | dateTime (m : Moment)
  | guid (g : Bytes.Guid)
  | duration (d : Duration)
  deriving DecidableEq

namespace Literal

/-- A body between quotes, behind the word that tells its kind. -/
def typed (word : String) (body : String) : String := word ++ "'" ++ body ++ "'"

/-- The literal as it is written in a query (the `Display` of `Literal`). -/
def text : Literal → String
  | null => "null"
  | string s => String.ofList (Text.Quoted.enclose s.toList)
  | boolean b => if b then "true" else "false"
  | single v =>
    if v.isFinite then Floating.text .single v ++ "f" else Floating.text .single v
  | double v => Floating.text .double v
  | decimal d => d.text ++ "m"
  | int n => Number.Integer.text n.toInt
  | long n => Number.Integer.text n.toInt ++ "L"
  | binary bytes => typed "X" (String.ofList (Bytes.Hex.encode .upper bytes))
  | dateTime m => m.text
  | guid g => typed "guid" g.text
  | duration d => typed "duration" d.text

/-- Equality of literals (the `PartialEq` of `Literal`). -/
def same : Literal → Literal → Bool
  | null, null => true
  | string a, string b => a == b
  | boolean a, boolean b => a == b
  | single a, single b => a.same b
  | double a, double b => a.same b
  | decimal a, decimal b => a.same b
  | int a, int b => a == b
  | long a, long b => a == b
  | binary a, binary b => a == b
  | dateTime a, dateTime b => a.same b
  | guid a, guid b => a == b
  | duration a, duration b => a.same b
  | _, _ => false

end Literal

end QueryExpr
