/-!
# Byte offsets in a text

Offsets count the bytes of the UTF-8 form, so an offset may fall inside a
character. A cut at such an offset, or past the end, does not exist.

* `drop?`, `take?`: the text from a byte offset on, and up to it.
* `slice`: what lies between two offsets, empty if either cut does not exist.
* `charsBefore`: the number of characters before an offset.
* `take?_size_append`, `drop?_size_append`, `slice_append`, `charsBefore_size_append`: between the
  parts of a text, all of these give the parts back.
-/

namespace QueryExpr.Text.Utf8

/-- The number of bytes of a text. -/
def size : List Char → Nat
  | [] => 0
  | c :: cs => c.utf8Size + size cs

/-- The text from byte offset `n` on. -/
def drop? : List Char → Nat → Option (List Char)
  | cs, 0 => some cs
  | [], _ + 1 => none
  | c :: cs, n + 1 => if c.utf8Size ≤ n + 1 then drop? cs (n + 1 - c.utf8Size) else none

/-- The text before byte offset `n`. -/
def take? : List Char → Nat → Option (List Char)
  | _, 0 => some []
  | [], _ + 1 => none
  | c :: cs, n + 1 =>
    if c.utf8Size ≤ n + 1 then (take? cs (n + 1 - c.utf8Size)).map (c :: ·) else none

/-- The text between byte offsets `start` and `stop`; empty if the offsets are out of order or
    either of them is not the boundary of a character. -/
def slice (cs : List Char) (start stop : Nat) : List Char :=
  if start ≤ stop then ((drop? cs start).bind (take? · (stop - start))).getD [] else []

/-- The number of characters before byte offset `n`, if it is the boundary of a character; `seen`
    characters have been counted. -/
def count? (seen : Nat) : List Char → Nat → Option Nat
  | _, 0 => some seen
  | [], _ + 1 => none
  | c :: cs, n + 1 => if c.utf8Size ≤ n + 1 then count? (seen + 1) cs (n + 1 - c.utf8Size) else none

/-- The number of characters before byte offset `n`; the offset itself if it is not the boundary
    of a character. -/
def charsBefore (cs : List Char) (n : Nat) : Nat := (count? 0 cs n).getD n

/-! ## Cuts at character boundaries -/

@[simp] theorem size_nil : size [] = 0 := rfl

@[simp] theorem size_cons (c : Char) (cs : List Char) : size (c :: cs) = c.utf8Size + size cs := rfl

/-- The size is that of the text as a string. -/
theorem size_eq_utf8ByteSize (cs : List Char) : size cs = (String.ofList cs).utf8ByteSize := by
  induction cs with
  | nil => rfl
  | cons c cs ih =>
    rw [size_cons, String.ofList_cons, String.utf8ByteSize_append, String.utf8ByteSize_singleton,
      ih]

@[simp] theorem size_append (as bs : List Char) : size (as ++ bs) = size as + size bs := by
  induction as with
  | nil => simp
  | cons a as ih => simp [ih]; omega

theorem drop?_size_append (as bs : List Char) : drop? (as ++ bs) (size as) = some bs := by
  induction as with
  | nil => simp [drop?]
  | cons a as ih =>
    have ha := Char.utf8Size_pos a
    obtain ⟨k, hk⟩ : ∃ k, a.utf8Size + size as = k + 1 := ⟨_, (Nat.succ_pred_eq_of_pos (by omega)).symm⟩
    simp only [size_cons, List.cons_append, hk, drop?]
    rw [if_pos (by omega), ← hk, Nat.add_sub_cancel_left, ih]

theorem take?_size_append (as bs : List Char) : take? (as ++ bs) (size as) = some as := by
  induction as with
  | nil => simp [take?]
  | cons a as ih =>
    have ha := Char.utf8Size_pos a
    obtain ⟨k, hk⟩ : ∃ k, a.utf8Size + size as = k + 1 := ⟨_, (Nat.succ_pred_eq_of_pos (by omega)).symm⟩
    simp only [size_cons, List.cons_append, hk, take?]
    rw [if_pos (by omega), ← hk, Nat.add_sub_cancel_left, ih, Option.map_some]

/-- The characters between two parts of a text. -/
theorem slice_append (front cs back : List Char) :
    slice (front ++ cs ++ back) (size front) (size (front ++ cs)) = cs := by
  have hdrop := drop?_size_append front (cs ++ back)
  have hle : size front ≤ size (front ++ cs) := by
    rw [size_append]
    omega
  have hsub : size (front ++ cs) - size front = size cs := by
    rw [size_append]
    omega
  rw [List.append_assoc, slice, if_pos hle, hsub, hdrop, Option.bind_some, take?_size_append,
    Option.getD_some]

/-- Counting up to an offset finds the length of the text before it. -/
theorem count?_eq (seen : Nat) (cs : List Char) (n : Nat) :
    count? seen cs n = (take? cs n).map (seen + ·.length) := by
  fun_induction take? cs n generalizing seen with
  | case1 cs => simp [count?]
  | case2 n => simp [count?]
  | case3 c cs n h ih =>
    have hlen : ∀ before : List Char, seen + 1 + before.length = seen + (c :: before).length := by
      intro before
      simp only [List.length_cons]
      omega
    rw [count?, if_pos h, ih (seen + 1), Option.map_map]
    exact congrArg (fun f => Option.map f _) (funext hlen)
  | case4 c cs n h => rw [count?, if_neg h, Option.map_none]

theorem charsBefore_size_append (as bs : List Char) : charsBefore (as ++ bs) (size as) = as.length := by
  simp [charsBefore, count?_eq, take?_size_append]

end QueryExpr.Text.Utf8
