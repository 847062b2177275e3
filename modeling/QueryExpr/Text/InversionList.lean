/-!
# Sets of code points as inversion lists

An inversion list holds, in ascending order, the code points at which membership
in a set changes: the set is everything from the first point up to the second,
from the third up to the fourth, and so on.
-/

namespace QueryExpr.Text.InversionList

/-- Whether `n` is in the set whose membership changes at the given ascending points. -/
def contains : List Nat → Nat → Bool
  | [], _ => false
  | [first], n => first ≤ n
  | first :: past :: bounds, n =>
    if n < first then false else if n < past then true else contains bounds n

end QueryExpr.Text.InversionList
