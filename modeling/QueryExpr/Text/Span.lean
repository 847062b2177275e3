import QueryExpr.Text.Utf8

/-!
# Spans

A span is a range of byte offsets in a text.
-/

namespace QueryExpr

/-- The bytes from `start` up to, but not including, `stop` (`Span`). -/
structure Span where
  start : Nat
  stop : Nat
  deriving DecidableEq, Repr, Inhabited

namespace Span

/-- The number of bytes covered (`len`); zero if the ends are out of order. -/
def length (s : Span) : Nat := s.stop - s.start

/-- Whether both ends are the same offset (`is_empty`). -/
def isEmpty (s : Span) : Bool := s.start == s.stop

/-- The part of `text` that the span covers (`Span.slice`); empty unless both ends are character
    boundaries of `text`, in order. -/
def slice (s : Span) (text : String) : String :=
  String.ofList (Text.Utf8.slice text.toList s.start s.stop)

/-- The number of characters of `text` before the span (`char_start`). -/
def charStart (s : Span) (text : String) : Nat := Text.Utf8.charsBefore text.toList s.start

end Span

end QueryExpr
