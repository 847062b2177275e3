/-!
# Lists with a key

Elements are told apart by a key, and the order of the list is the order in which
keys were first put in. Tables of methods and field maps are looked up by their keys
only; the order is that of the strategies of a registry.

* `put`: replaces the element of the same key in its place, or appends.
* `get?`, `erase`: the element of a key, and the list without it.
-/

namespace QueryExpr.Keyed

variable {α : Type}

/-- Replaces the first element with the key of `a` in its place, or appends `a`. -/
def put (key : α → String) (a : α) : List α → List α
  | [] => [a]
  | b :: bs => if key b = key a then a :: bs else b :: put key a bs

/-- The first element with key `k`. -/
def get? (key : α → String) (k : String) (as : List α) : Option α := as.find? (key · == k)

/-- The list without the first element with key `k`. -/
def erase (key : α → String) (k : String) : List α → List α
  | [] => []
  | a :: as => if key a = k then as else a :: erase key k as

/-! ## Looking up behind a change -/

theorem get?_put_self (key : α → String) (a : α) (as : List α) :
    get? key (key a) (put key a as) = some a := by
  induction as with
  | nil => simp [put, get?]
  | cons b bs ih =>
    by_cases h : key b = key a
    · simp [put, get?, h]
    · simpa [put, get?, h] using ih

theorem get?_put_of_ne (key : α → String) {a : α} {k : String} (h : key a ≠ k) (as : List α) :
    get? key k (put key a as) = get? key k as := by
  induction as with
  | nil => simp [put, get?, h]
  | cons b bs ih =>
    by_cases hb : key b = key a
    · have hk : key b ≠ k := fun e => h (hb ▸ e)
      simp [put, get?, hb, h]
    · simp only [get?] at ih
      simp only [put, if_neg hb, get?, List.find?_cons, ih]

end QueryExpr.Keyed
