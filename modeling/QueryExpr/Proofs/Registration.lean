import QueryExpr.Proofs.Methods

/-!
# What a registry holds

A registry is a list, but it is used as a map from names to strategies whose names have an order.
What it holds is told by the changes that have been made to it, from the first one on: which
strategies were registered, and which names were removed.

* `Registry.Current`: the strategy that the changes leave under a name.
* `Registry.LastAdded`: the change that gave a name its place.
* `Registry.Answers`: the answer for a call, by names and strategies alone.
* `Registry.Refines`: the registry is the map that the changes make, and answers as the map does.
* `Registry.refines_afterChanges`: after any changes it is, empty or standard at the start.
-/

namespace QueryExpr

/-! ## The keys of a list -/

namespace Keyed

variable {α : Type} (key : α → String)

theorem keys_put (a : α) (as : List α) : (put key a as).map key =
    if key a ∈ as.map key then as.map key else as.map key ++ [key a] := by
  induction as with
  | nil => simp [put]
  | cons b bs ih =>
    by_cases hb : key b = key a
    · simp [put, hb]
    · have hne : key a ≠ key b := fun h => hb h.symm
      simp only [put, if_neg hb, List.map_cons, ih, List.mem_cons, hne, false_or, List.cons_append]
      split <;> rfl

theorem keys_erase (k : String) (as : List α) :
    (erase key k as).map key = (as.map key).erase k := by
  induction as with
  | nil => rfl
  | cons a as ih =>
    by_cases ha : key a = k
    · simp [erase, ha]
    · simp [erase, ha, ih]

/-- There is an element of every key in the list, and of no other. -/
theorem isSome_get? (k : String) (as : List α) : (get? key k as).isSome ↔ k ∈ as.map key := by
  simp [get?, List.mem_map]

theorem get?_eq_none {k : String} {as : List α} (h : k ∉ as.map key) : get? key k as = none := by
  rwa [← isSome_get?, Option.not_isSome_iff_eq_none] at h

theorem get?_erase_self {k : String} {as : List α} (h : (as.map key).Nodup) :
    get? key k (erase key k as) = none := by
  apply get?_eq_none
  rw [keys_erase]
  exact h.not_mem_erase

theorem get?_erase_of_ne {k k' : String} (h : k ≠ k') (as : List α) :
    get? key k' (erase key k as) = get? key k' as := by
  induction as with
  | nil => rfl
  | cons a as ih =>
    by_cases ha : key a = k
    · have hk : key a ≠ k' := fun e => h (ha ▸ e)
      simp [erase, get?, ha, h]
    · simp only [get?] at ih
      simp only [erase, if_neg ha, get?, List.find?_cons, ih]

end Keyed

namespace Registry

/-! ## Changes -/

/-- A change to a registry. Strategies that are shared, and registries that are built up, are
    registered like all others. -/
inductive Change where
  | register (s : Strategy)
  | remove (name : String)

namespace Change

/-- The name that the change is about. -/
def name : Change → String
  | register s => s.name
  | remove name => name

/-- The registry with the change. -/
def apply (r : Registry) : Change → Registry
  | register s => r.register s
  | remove name => r.remove name

end Change

/-- The registry with all of the changes, the first one first. -/
def afterChanges (r : Registry) (changes : List Change) : Registry := changes.foldl Change.apply r

/-- The changes that make the standard registry of the empty one. -/
def standardChanges : List Change :=
  MethodTable.standardTables.map fun t => .register t.toStrategy

/-! ## What the changes tell -/

section

variable {changes : List Change} {c : Change} {n : String} {s : Strategy} {i : Nat}

/-- The strategy is the last one that was registered under the name, and the name has not been
    removed since. -/
def Current (changes : List Change) (n : String) (s : Strategy) : Prop :=
  ∃ earlier later, changes = earlier ++ .register s :: later ∧ s.name = n ∧ ∀ c ∈ later, c.name ≠ n

/-- There is a strategy of the name. -/
def Present (changes : List Change) (n : String) : Prop := ∃ s, Current changes n s

/-- The change with the number `i` adds the name: it registers a strategy under it where there is
    none. -/
def AddedAt (changes : List Change) (n : String) (i : Nat) : Prop :=
  ∃ earlier s later, changes = earlier ++ .register s :: later ∧ earlier.length = i ∧
    s.name = n ∧ ¬Present earlier n

/-- The change with the number `i` is the last one that adds the name. -/
def LastAdded (changes : List Change) (n : String) (i : Nat) : Prop :=
  AddedAt changes n i ∧ ∀ j, AddedAt changes n j → j ≤ i

/-- The name `n` was last added before the name `m` was. -/
def AddedBefore (changes : List Change) (n m : String) : Prop :=
  ∃ i j, LastAdded changes n i ∧ LastAdded changes m j ∧ i < j

/-! ### One change more -/

/-- A list that ends with `a` and contains `b` ends with `b`, or `b` is in front of its end. -/
theorem concat_eq_append_cons {α : Type} {as earlier later : List α} {a b : α}
    (h : as ++ [a] = earlier ++ b :: later) :
    as = earlier ∧ a = b ∧ later = [] ∨
      ∃ rest, as = earlier ++ b :: rest ∧ later = rest ++ [a] := by
  rcases List.eq_nil_or_concat later with rfl | ⟨rest, d, rfl⟩
  · obtain ⟨has, ha⟩ := List.append_inj' h rfl
    exact .inl ⟨has, (List.cons.inj ha).1, rfl⟩
  · rw [List.concat_eq_append, ← List.cons_append, ← List.append_assoc] at h
    obtain ⟨has, ha⟩ := List.append_inj' h rfl
    exact .inr ⟨rest, has, by rw [List.concat_eq_append, ha]⟩

theorem current_concat : Current (changes ++ [c]) n s ↔
    c = .register s ∧ s.name = n ∨ c.name ≠ n ∧ Current changes n s := by
  constructor
  · rintro ⟨earlier, later, h, hn, hlater⟩
    rcases concat_eq_append_cons h with ⟨-, hc, -⟩ | ⟨rest, hchanges, rfl⟩
    · exact .inl ⟨hc, hn⟩
    · refine .inr ⟨hlater c (by simp), earlier, rest, hchanges, hn, fun d hd => ?_⟩
      exact hlater d (List.mem_append_left _ hd)
  · rintro (⟨rfl, hn⟩ | ⟨hc, earlier, later, rfl, hn, hlater⟩)
    · exact ⟨changes, [], rfl, hn, by simp⟩
    · refine ⟨earlier, later ++ [c], by simp, hn, fun d hd => ?_⟩
      rcases List.mem_append.1 hd with hd | hd
      · exact hlater d hd
      · rwa [List.mem_singleton.1 hd]

theorem addedAt_concat : AddedAt (changes ++ [c]) n i ↔
    (i = changes.length ∧ (∃ s, c = .register s ∧ s.name = n) ∧ ¬Present changes n) ∨
      AddedAt changes n i := by
  constructor
  · rintro ⟨earlier, s, later, h, rfl, hn, habsent⟩
    rcases concat_eq_append_cons h with ⟨rfl, hc, -⟩ | ⟨rest, hchanges, rfl⟩
    · exact .inl ⟨rfl, ⟨s, hc, hn⟩, habsent⟩
    · exact .inr ⟨earlier, s, rest, hchanges, rfl, hn, habsent⟩
  · rintro (⟨rfl, ⟨s, rfl, hn⟩, habsent⟩ | ⟨earlier, s, later, rfl, rfl, hn, habsent⟩)
    · exact ⟨changes, s, [], rfl, rfl, hn, habsent⟩
    · exact ⟨earlier, s, later ++ [c], by simp, rfl, hn, habsent⟩

theorem AddedAt.lt_length (h : AddedAt changes n i) : i < changes.length := by
  obtain ⟨earlier, s, later, rfl, rfl, -, -⟩ := h
  simp

/-- A change that does not add the name leaves its place. -/
theorem lastAdded_concat (h : (∃ s, c = .register s ∧ s.name = n) → Present changes n) :
    LastAdded (changes ++ [c]) n i ↔ LastAdded changes n i := by
  have hadded : ∀ j, AddedAt (changes ++ [c]) n j ↔ AddedAt changes n j := by
    intro j
    rw [addedAt_concat, or_iff_right]
    rintro ⟨-, hadds, habsent⟩
    exact habsent (h hadds)
  simp only [LastAdded, hadded]

/-- A change that adds the name gives it the last place. -/
theorem lastAdded_register (h : ¬Present changes s.name) :
    LastAdded (changes ++ [.register s]) s.name changes.length := by
  refine ⟨addedAt_concat.2 (.inl ⟨rfl, ⟨s, rfl, rfl⟩, h⟩), fun j hj => ?_⟩
  rcases addedAt_concat.1 hj with ⟨rfl, -, -⟩ | hj
  · exact Nat.le_refl _
  · exact Nat.le_of_lt hj.lt_length

/-! ## What the registry is -/

/-- The answer for a call, as the names and their strategies tell it: that of the first strategy in
    the order of the names that recognizes the method, or that the method is unknown to all. -/
inductive Answers (r : Registry) (method : String) (args : List Expr) :
    Except MethodError Call → Prop where
  | chosen {front name behind s} (names : r.names = front ++ name :: behind)
      (get : r.get? name = some s) (recognizes : s.recognizes method = true)
      (first : ∀ n ∈ front, ∀ s', r.get? n = some s' → s'.recognizes method = false) :
      Answers r method args (s.resolve method args)
  | unknown (h : ∀ n s, r.get? n = some s → s.recognizes method = false) :
      Answers r method args (.error (.unknown ⟨method, r.names⟩))

/-- The registry is the map with an order that the changes make: a name stands for the strategy that
    the changes leave under it, no name is there twice, and names that were added earlier come
    first. It answers as this map does. -/
structure Refines (r : Registry) (changes : List Change) : Prop where
  nodup : r.names.Nodup
  get?_eq_some : ∀ n s, r.get? n = some s ↔ Current changes n s
  mem_names : ∀ n, n ∈ r.names ↔ Present changes n
  added : ∀ n ∈ r.names, ∃ i, LastAdded changes n i
  ordered : r.names.Pairwise (AddedBefore changes)
  answers : ∀ method args, r.Answers method args (r.resolve method args)

variable {r : Registry}

theorem isSome_get?_iff : (r.get? n).isSome ↔ n ∈ r.names := Keyed.isSome_get? Strategy.name n _

/-- Where no name is there twice, each strategy is found under its name. -/
theorem get?_of_mem (hnodup : r.names.Nodup) (hs : s ∈ r.strategies) : r.get? s.name = some s := by
  obtain ⟨strategies⟩ := r
  simp only [names, get?] at *
  induction strategies with
  | nil => cases hs
  | cons t strategies ih =>
    rw [List.map_cons, List.nodup_cons] at hnodup
    rcases List.mem_cons.1 hs with rfl | hs
    · simp [Keyed.get?]
    · have hne : t.name ≠ s.name := fun h => hnodup.1 (h ▸ List.mem_map_of_mem hs)
      simpa [Keyed.get?, hne] using ih hnodup.2 hs

theorem answers_resolve (hnodup : r.names.Nodup) (method : String) (args : List Expr) :
    r.Answers method args (r.resolve method args) := by
  rw [resolve]
  cases hchoose : r.choose? method with
  | none =>
    refine .unknown fun n s hs => ?_
    have hmem : s ∈ r.strategies := List.mem_of_find?_eq_some hs
    simpa using List.find?_eq_none.1 hchoose s hmem
  | some s =>
    obtain ⟨hrecognizes, front, behind, hstrategies, hfront⟩ :=
      List.find?_eq_some_iff_append.1 hchoose
    have hs : s ∈ r.strategies := by simp [hstrategies]
    have hnames : r.names = front.map Strategy.name ++ s.name :: behind.map Strategy.name := by
      simp [names, hstrategies]
    refine .chosen hnames (get?_of_mem hnodup hs) hrecognizes fun n hn s' hs' => ?_
    obtain ⟨t, ht, rfl⟩ := List.mem_map.1 hn
    have htr : t ∈ r.strategies := by simp [hstrategies, ht]
    rw [get?_of_mem hnodup htr, Option.some_inj] at hs'
    simpa [← hs'] using hfront t ht

/-! ### One change more -/

theorem names_register (s : Strategy) : (r.register s).names =
    if s.name ∈ r.names then r.names else r.names ++ [s.name] :=
  Keyed.keys_put Strategy.name s r.strategies

theorem names_remove (n : String) : (r.remove n).names = r.names.erase n :=
  Keyed.keys_erase Strategy.name n r.strategies

theorem nodup_apply (h : r.names.Nodup) (c : Change) : (c.apply r).names.Nodup := by
  cases c with
  | remove n =>
    rw [Change.apply, names_remove]
    exact h.erase n
  | register s =>
    rw [Change.apply, names_register]
    split
    · exact h
    next hs =>
      refine List.nodup_append.2 ⟨h, by simp, fun n hn m hm hnm => hs ?_⟩
      rwa [← List.mem_singleton.1 hm, ← hnm]

theorem get?_apply (hnodup : r.names.Nodup) (h : ∀ n s, r.get? n = some s ↔ Current changes n s)
    (c : Change) (n : String) (s : Strategy) :
    (c.apply r).get? n = some s ↔ Current (changes ++ [c]) n s := by
  rw [current_concat, ← h]
  cases c with
  | register t =>
    by_cases hn : t.name = n
    · subst hn
      have hself : (r.register t).get? t.name = some t := Keyed.get?_put_self Strategy.name t _
      simp only [Change.apply, hself, Change.name]
      grind
    · have hother : (r.register t).get? n = r.get? n := Keyed.get?_put_of_ne Strategy.name hn _
      simp only [Change.apply, hother, Change.name]
      grind
  | remove m =>
    by_cases hm : m = n
    · subst hm
      have hself : (r.remove m).get? m = none := Keyed.get?_erase_self Strategy.name hnodup
      simp [Change.apply, hself, Change.name]
    · have hother : (r.remove m).get? n = r.get? n := Keyed.get?_erase_of_ne Strategy.name hm _
      simp [Change.apply, hother, Change.name, hm]

/-- Names that were there before the change keep their order. -/
theorem AddedBefore.concat {m : String} (h : AddedBefore changes n m) (hn : Present changes n)
    (hm : Present changes m) : AddedBefore (changes ++ [c]) n m := by
  obtain ⟨i, j, hi, hj, hij⟩ := h
  exact ⟨i, j, (lastAdded_concat fun _ => hn).2 hi, (lastAdded_concat fun _ => hm).2 hj, hij⟩

theorem Refines.apply (h : r.Refines changes) (c : Change) :
    (c.apply r).Refines (changes ++ [c]) := by
  have hnodup := nodup_apply h.nodup c
  have hget := get?_apply h.nodup h.get?_eq_some c
  have hmem : ∀ n, n ∈ (c.apply r).names ↔ Present (changes ++ [c]) n := by
    intro n
    rw [← isSome_get?_iff, Option.isSome_iff_exists, Present]
    simp only [hget]
  have hpresent : ∀ n ∈ r.names, Present changes n := fun n => (h.mem_names n).1
  have hkept : ∀ n ∈ r.names, ∃ i, LastAdded (changes ++ [c]) n i := by
    intro n hn
    obtain ⟨i, hi⟩ := h.added n hn
    exact ⟨i, (lastAdded_concat fun _ => hpresent n hn).2 hi⟩
  have hordered : r.names.Pairwise (AddedBefore (changes ++ [c])) :=
    h.ordered.imp_of_mem fun hn hm hnm => hnm.concat (hpresent _ hn) (hpresent _ hm)
  suffices hadded : (∀ n ∈ (c.apply r).names, ∃ i, LastAdded (changes ++ [c]) n i) ∧
      (c.apply r).names.Pairwise (AddedBefore (changes ++ [c])) from
    ⟨hnodup, hget, hmem, hadded.1, hadded.2, answers_resolve hnodup⟩
  cases c with
  | remove m =>
    rw [Change.apply, names_remove]
    exact ⟨fun n hn => hkept n (List.mem_of_mem_erase hn), hordered.sublist List.erase_sublist⟩
  | register s =>
    rw [Change.apply, names_register]
    split
    · exact ⟨hkept, hordered⟩
    next hs =>
      -- the new name was added by this change, all others by earlier ones
      have hlast := lastAdded_register fun hp => hs ((h.mem_names s.name).2 hp)
      refine ⟨?_, List.pairwise_append.2 ⟨hordered, by simp, ?_⟩⟩
      · simp only [List.forall_mem_append, List.forall_mem_singleton]
        exact ⟨hkept, _, hlast⟩
      · simp only [List.forall_mem_singleton]
        intro n hn
        obtain ⟨i, hi⟩ := h.added n hn
        exact ⟨i, changes.length, (lastAdded_concat fun _ => hpresent n hn).2 hi, hlast,
          hi.1.lt_length⟩

theorem refines_empty : empty.Refines [] where
  nodup := .nil
  get?_eq_some n s := by simp [Current, get?, Keyed.get?, empty]
  mem_names n := by simp [Present, Current, names, empty]
  added n hn := by cases hn
  ordered := .nil
  answers := answers_resolve .nil

theorem Refines.afterChanges (h : r.Refines changes) (later : List Change) :
    (r.afterChanges later).Refines (changes ++ later) := by
  induction later generalizing r changes with
  | nil => rwa [List.append_nil]
  | cons c later ih =>
    have := ih (h.apply c)
    rwa [List.append_assoc, List.singleton_append] at this

/-- Whatever has been registered and removed, an empty registry has become the map that these
    changes make, and the standard registry the one that they make of the standard tables. -/
theorem refines_afterChanges (changes : List Change) :
    (empty.afterChanges changes).Refines changes ∧
      (standard.afterChanges changes).Refines (standardChanges ++ changes) := by
  have hstandard : standard.Refines standardChanges := refines_empty.afterChanges standardChanges
  exact ⟨refines_empty.afterChanges changes, hstandard.afterChanges changes⟩

/-- A table that is replaced keeps its place; one that is removed first comes last. -/
example : (standard.afterChanges [.register MethodTable.string.toStrategy, .remove "math",
    .register MethodTable.math.toStrategy]).names = ["string", "date", "math"] := rfl

end

end Registry

end QueryExpr
