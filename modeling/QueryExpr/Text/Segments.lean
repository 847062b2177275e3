/-!
# Segments of a path

* `split`: the segments between the occurrences of a separator, always at least one.
* `join`: the segments with the separator between them.
* `join_split`: splitting loses nothing.
-/

namespace QueryExpr.Text.Segments

/-- The parts of a text between the occurrences of `sep`. -/
def splitChars (sep : Char) : List Char → List (List Char)
  | [] => [[]]
  | c :: cs =>
    if c = sep then [] :: splitChars sep cs
    else
      match splitChars sep cs with
      | [] => [[c]]
      | first :: others => (c :: first) :: others

/-- The parts, with `sep` between neighbours. -/
def joinChars (sep : Char) : List (List Char) → List Char
  | [] => []
  | [last] => last
  | first :: next :: others => first ++ sep :: joinChars sep (next :: others)

/-- The segments of `text` between the occurrences of `sep`. -/
def split (sep : Char) (text : String) : List String :=
  (splitChars sep text.toList).map String.ofList

/-- The segments, with `sep` between neighbours. -/
def join (sep : Char) (segments : List String) : String :=
  String.ofList (joinChars sep (segments.map String.toList))

/-- The segment after the last occurrence of `sep`: the whole text if there is none. -/
def last (sep : Char) (text : String) : String :=
  String.ofList ((splitChars sep text.toList).getLastD [])

/-! ## Splitting and joining -/

theorem splitChars_ne_nil (sep : Char) (cs : List Char) : splitChars sep cs ≠ [] := by
  cases cs with
  | nil => simp [splitChars]
  | cons c cs =>
    simp only [splitChars]
    split
    · simp
    · split <;> simp

theorem joinChars_splitChars (sep : Char) (cs : List Char) :
    joinChars sep (splitChars sep cs) = cs := by
  induction cs with
  | nil => rfl
  | cons c cs ih =>
    simp only [splitChars]
    split
    next h =>
      cases hs : splitChars sep cs with
      | nil => exact absurd hs (splitChars_ne_nil sep cs)
      | cons first others => rw [hs] at ih; simp [joinChars, ih, h]
    next h =>
      cases hs : splitChars sep cs with
      | nil => exact absurd hs (splitChars_ne_nil sep cs)
      | cons first others =>
        rw [hs] at ih
        cases others with
        | nil => simpa [joinChars] using ih
        | cons next others => simpa [joinChars] using ih

/-- Splitting loses nothing. -/
theorem join_split (sep : Char) (text : String) : join sep (split sep text) = text := by
  simp only [join, split, List.map_map]
  rw [show String.toList ∘ String.ofList = id from by funext l; simp, List.map_id,
    joinChars_splitChars, String.ofList_toList]

end QueryExpr.Text.Segments
