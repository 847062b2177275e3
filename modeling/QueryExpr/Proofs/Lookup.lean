import Mathlib.Data.List.Basic
import QueryExpr.Proofs.Shapes
import QueryExpr.Resolve.Method

/-!
# Finding what was added to a table

A name is looked up by its last segment in lower case, but added under all of it in lower case. The
two agree on names without a point and on no others: a name that is added with a qualifier is found
under no name at all, not even under itself.

* `MethodTable.SameMethod`: names that differ in the case of letters and in their qualifiers only.
* `MethodTable.get?_insertAll`: a function is found under all spellings of its unqualified names.
* `MethodTable.get?_afterAdditions`: after any additions, the last one that has the name counts.
* `MethodTable.get?_qualified`: a name is looked up without its qualifier, whatever was added.
* `MethodTable.get?_math_round`: the qualified name that is not found.
-/

namespace QueryExpr

/-! ## The last segment -/

namespace Text.Segments

theorem splitChars_append (sep : Char) (front back : List Char) :
    splitChars sep (front ++ sep :: back) = splitChars sep front ++ splitChars sep back := by
  induction front with
  | nil => simp [splitChars]
  | cons c front ih =>
    by_cases hc : c = sep
    · simp only [List.cons_append, splitChars, if_pos hc, ih]
    · obtain ⟨first, others, hfront⟩ := List.exists_cons_of_ne_nil (splitChars_ne_nil sep front)
      have hall : splitChars sep (front ++ sep :: back) =
          first :: (others ++ splitChars sep back) := by rw [ih, hfront, List.cons_append]
      rw [splitChars_of_ne hc hfront, List.cons_append, List.cons_append, splitChars_of_ne hc hall]

theorem splitChars_of_not_mem {sep : Char} {cs : List Char} (h : sep ∉ cs) :
    splitChars sep cs = [cs] := by
  induction cs with
  | nil => rfl
  | cons c cs ih =>
    rw [List.mem_cons, not_or] at h
    exact splitChars_of_ne (Ne.symm h.1) (ih h.2)

/-- A text without the separator is its own last segment. -/
theorem last_of_not_mem {sep : Char} {text : String} (h : sep ∉ text.toList) :
    last sep text = text := by
  rw [last, splitChars_of_not_mem h, List.getLastD_cons, List.getLastD_nil, String.ofList_toList]

/-- What stands in front of a separator has no part in the last segment. -/
theorem last_append (sep : Char) (front back : String) :
    last sep (front ++ String.singleton sep ++ back) = last sep back := by
  have hback := splitChars_ne_nil sep back.toList
  simp only [last, String.toList_append, String.toList_singleton, List.append_assoc,
    List.singleton_append, splitChars_append, List.getLastD_eq_getLast?,
    List.getLast?_append_of_ne_nil _ hback]

/-- The separator is not in the last segment. -/
theorem not_mem_last (sep : Char) (text : String) : sep ∉ (last sep text).toList := by
  rw [last, String.toList_ofList, List.getLastD_eq_getLast?,
    List.getLast?_eq_getLast_of_ne_nil (splitChars_ne_nil sep _)]
  exact not_mem_of_mem_splitChars _ (List.getLast_mem _)

end Text.Segments

namespace MethodTable

open Text (Segments.last)

/-! ## Spellings of a name -/

/-- Names that are equal but for the case of ASCII letters. -/
def SameButCase (a b : String) : Prop := a.toList.map Char.toLower = b.toList.map Char.toLower

instance : DecidableRel SameButCase := fun a b =>
  inferInstanceAs (Decidable (a.toList.map Char.toLower = b.toList.map Char.toLower))

/-- Names that are equal but for the case of ASCII letters and for a qualifier. -/
def SameMethod (a b : String) : Prop :=
  SameButCase (Text.Segments.last '.' a) (Text.Segments.last '.' b)

instance : DecidableRel SameMethod := fun a b =>
  inferInstanceAs (Decidable (SameButCase (Text.Segments.last '.' a) (Text.Segments.last '.' b)))

/-- A name without a qualifier. -/
def Unqualified (name : String) : Prop := '.' ∉ name.toList

instance : DecidablePred Unqualified := fun name =>
  inferInstanceAs (Decidable ('.' ∉ name.toList))

theorem lower_eq_lower {a b : String} : lower a = lower b ↔ SameButCase a b := by
  rw [lower, lower, SameButCase, String.ofList_inj]

/-- No letter is the lower case of a point. -/
theorem toLower_eq_point {c : Char} (h : c.toLower = '.') : c = '.' := by
  delta Char.toLower at h
  split at h
  next hletter =>
    have hval : c.val + 32 = 46 := congrArg Char.val h
    rw [UInt32.eq_sub_iff_add_eq.2 hval] at hletter
    exact absurd hletter (by decide)
  next => exact h

theorem point_mem_lower {name : String} : '.' ∈ (lower name).toList ↔ '.' ∈ name.toList := by
  rw [lower, String.toList_ofList, List.mem_map]
  constructor
  · rintro ⟨c, hc, hlower⟩
    exact toLower_eq_point hlower ▸ hc
  · exact fun h => ⟨'.', h, rfl⟩

/-- The key of an addition is the key of a lookup exactly if what is added has no qualifier and is
    the name that is looked up. -/
theorem lower_eq_lookupKey {source name : String} :
    lower source = lookupKey name ↔ Unqualified source ∧ SameMethod name source := by
  constructor
  · intro h
    have hsource : Unqualified source := by
      rw [Unqualified, ← point_mem_lower, h, lookupKey, point_mem_lower]
      exact Text.Segments.not_mem_last '.' name
    refine ⟨hsource, ?_⟩
    rw [SameMethod, Text.Segments.last_of_not_mem hsource, ← lower_eq_lower]
    exact h.symm
  · rintro ⟨hsource, hname⟩
    rw [SameMethod, Text.Segments.last_of_not_mem hsource] at hname
    exact (lower_eq_lower.2 hname).symm

/-! ## Additions -/

/-- Some names that are added for one function. -/
structure Addition where
  sources : List String
  spec : MethodSpec

/-- Whether an addition has a name without a qualifier that is `name`. -/
def Addition.Names (a : Addition) (name : String) : Prop :=
  ∃ source ∈ a.sources, Unqualified source ∧ SameMethod name source

instance (a : Addition) : DecidablePred a.Names := fun name =>
  inferInstanceAs (Decidable (∃ source ∈ a.sources, Unqualified source ∧ SameMethod name source))

/-- The table after some additions, the first one first. -/
def afterAdditions (t : MethodTable) (additions : List Addition) : MethodTable :=
  additions.foldl (fun t a => t.insertAll a.sources a.spec) t

theorem get?_insert (t : MethodTable) (source : String) (spec : MethodSpec) (name : String) :
    (t.insert source spec).get? name =
      if Unqualified source ∧ SameMethod name source then some spec else t.get? name := by
  rw [get?, insert]
  split
  next h =>
    rw [← lower_eq_lookupKey.2 h]
    exact congrArg _ (Keyed.get?_put_self Entry.key ⟨lower source, spec⟩ t.entries)
  next h =>
    have hkey : lower source ≠ lookupKey name := fun e => h (lower_eq_lookupKey.1 e)
    exact congrArg _ (Keyed.get?_put_of_ne Entry.key hkey t.entries)

theorem get?_insertAll (t : MethodTable) (sources : List String) (spec : MethodSpec)
    (name : String) :
    (t.insertAll sources spec).get? name =
      if Addition.Names ⟨sources, spec⟩ name then some spec else t.get? name := by
  induction sources generalizing t with
  | nil => simp [insertAll, Addition.Names]
  | cons source sources ih =>
    have hcons : (t.insertAll (source :: sources) spec).get? name =
        ((t.insert source spec).insertAll sources spec).get? name := rfl
    rw [hcons, ih, get?_insert]
    by_cases hsource : Unqualified source ∧ SameMethod name source
    · simp [Addition.Names, hsource]
    · simp [Addition.Names, hsource]

/-- Behind any additions a name is that of the function for which it was last added without a
    qualifier, in whatever case and whatever qualifier the name has. Additions of names with a
    qualifier, and of other names, make no difference to it. -/
theorem get?_afterAdditions (t : MethodTable) (additions : List Addition) (name : String) :
    (t.afterAdditions additions).get? name =
      match additions.reverse.find? (·.Names name) with
      | some a => some a.spec
      | none => t.get? name := by
  induction additions generalizing t with
  | nil => rfl
  | cons a additions ih =>
    have hcons : (t.afterAdditions (a :: additions)).get? name =
        ((t.insertAll a.sources a.spec).afterAdditions additions).get? name := rfl
    rw [hcons, ih, List.reverse_cons, List.find?_append]
    cases additions.reverse.find? (·.Names name) with
    | some b => rfl
    | none =>
      rw [Option.none_or, get?_insertAll]
      by_cases ha : a.Names name
      · simp [ha]
      · simp [ha]

/-- Whatever has been added, a qualifier makes no difference to what a name stands for. -/
theorem get?_qualified (t : MethodTable) (qualifier name : String) :
    t.get? (qualifier ++ "." ++ name) = t.get? name := by
  have hkey : lookupKey (qualifier ++ "." ++ name) = lookupKey name := by
    rw [lookupKey, lookupKey, show ("." : String) = String.singleton '.' from rfl,
      Text.Segments.last_append]
  rw [get?, get?, hkey]

/-- The name that is added is the name that is looked up, and it is not found. -/
theorem get?_math_round :
    SameMethod "Math.round" "Math.round" ∧
      ((empty "t").insert "Math.round" (.exact "round" 1)).get? "Math.round" = none := by
  decide

end MethodTable

end QueryExpr
