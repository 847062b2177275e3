import QueryExpr.Number.Floating.Shortest
import QueryExpr.Proofs.Numerals

/-!
# Floating-point numbers as they are written

The text of a finite value is a number with a fraction or a power of ten. Its digits do not vanish
when the zeros at their end are dropped, since there is one that is not zero.

* `Interval.Reaches`: the middle is at least a power of ten.
* `shortest_ne_zero`: the shortest digits of a positive value are not all zeros.
* `Numeral.written_power`: digits with a power of ten behind them are read as a number.
* `written_magnitude`: so is the magnitude of a finite value.
-/

namespace QueryExpr.Number

open Text (isDigit)

namespace Digits

theorem lt_pow_length_toChars (n : Nat) : n < Nat.pow 10 (toChars n).length :=
  (Nat.length_toDigits_le_iff (by decide) Nat.length_toDigits_pos).1 (Nat.le_refl _)

theorem pow_length_toChars_le {n : Nat} (h : n ≠ 0) : Nat.pow 10 ((toChars n).length - 1) ≤ n := by
  rcases Nat.eq_zero_or_pos ((toChars n).length - 1) with hzero | hpos
  · rw [hzero]
    exact Nat.pos_of_ne_zero h
  · apply Nat.le_of_not_lt
    intro hlt
    have hle := (Nat.length_toDigits_le_iff (by decide) hpos).2 hlt
    have : (toChars n).length ≤ (toChars n).length - 1 := hle
    omega

/-- The digits of a positive number are not all zeros. -/
theorem exists_ne_zero_of_toChars {n : Nat} (h : n ≠ 0) : ∃ c ∈ toChars n, c ≠ '0' := by
  apply Classical.byContradiction
  intro hall
  have hzeros : toChars n = List.replicate (toChars n).length '0' := by
    refine List.eq_replicate_of_mem fun c hc => Classical.byContradiction fun hne => ?_
    exact hall ⟨c, hc, hne⟩
  have hvalue := ofChars_toChars n
  rw [hzeros, ofChars, Nat.ofDigitChars_replicate_zero, Nat.mul_zero] at hvalue
  exact h hvalue.symm

end Digits

namespace Floating

/-! ## Shortest digits -/

namespace Interval

/-- The middle is at least `10 ^ power`. -/
def Reaches (i : Interval) (power : Int) : Prop :=
  i.den * Nat.pow 10 power.toNat ≤ i.mid * Nat.pow 10 (-power).toNat

variable {i : Interval} {power : Int}

theorem floorAt_ne_zero (h : i.Reaches power) (hden : 0 < i.den) : i.floorAt power ≠ 0 := by
  have hpow : ∀ n, 0 < Nat.pow 10 n := fun n => Nat.pow_pos (by decide)
  unfold floorAt
  unfold Reaches at h
  split
  next hpower =>
    rw [show (-power).toNat = 0 by omega] at h
    exact Nat.ne_of_gt (Nat.div_pos (by simpa using h) (Nat.mul_pos hden (hpow _)))
  next hpower =>
    rw [show power.toNat = 0 by omega] at h
    exact Nat.ne_of_gt (Nat.div_pos (by simpa using h) hden)

theorem Reaches.pred (h : i.Reaches power) : i.Reaches (power - 1) := by
  have hpow : ∀ {m n : Nat}, m ≤ n → Nat.pow 10 m ≤ Nat.pow 10 n :=
    fun hmn => Nat.pow_le_pow_right (by decide) hmn
  calc i.den * Nat.pow 10 (power - 1).toNat
      ≤ i.den * Nat.pow 10 power.toNat := Nat.mul_le_mul_left _ (hpow (by omega))
    _ ≤ i.mid * Nat.pow 10 (-power).toNat := h
    _ ≤ i.mid * Nat.pow 10 (-(power - 1)).toNat := Nat.mul_le_mul_left _ (hpow (by omega))

theorem reaches_leading (hden : 0 < i.den) (hmid : 0 < i.mid) : i.Reaches i.leading := by
  unfold leading Reaches
  split
  next hle =>
    have hquotient : i.mid / i.den ≠ 0 := Nat.ne_of_gt (Nat.div_pos hle hden)
    have hpos : 0 < (Digits.toChars (i.mid / i.den)).length := Nat.length_toDigits_pos
    have hdigits := (Nat.le_div_iff_mul_le hden).1 (Digits.pow_length_toChars_le hquotient)
    have hfront : (((Digits.toChars (i.mid / i.den)).length : Int) - 1).toNat =
        (Digits.toChars (i.mid / i.den)).length - 1 := by omega
    have hback : (-(((Digits.toChars (i.mid / i.den)).length : Int) - 1)).toNat = 0 := by omega
    rw [hfront, hback, Nat.mul_comm]
    simpa using hdigits
  next hlt =>
    dsimp only
    have hpos : 0 < (Digits.toChars (i.den / i.mid)).length := Nat.length_toDigits_pos
    generalize hplaces : (Digits.toChars (i.den / i.mid)).length = places at hpos ⊢
    split
    next heq =>
      rw [show (-((places : Int) - 1)).toNat = 0 by omega,
        show (- -((places : Int) - 1)).toNat = places - 1 by omega]
      simpa using Nat.le_of_eq heq.symm
    next =>
      rw [show (-(places : Int)).toNat = 0 by omega,
        show (- -(places : Int)).toNat = places by omega]
      have hdigits := Digits.lt_pow_length_toChars (i.den / i.mid)
      rw [hplaces] at hdigits
      have := (Nat.div_lt_iff_lt_mul hmid).1 hdigits
      rw [Nat.mul_comm] at this
      simpa using Nat.le_of_lt this

theorem holds_zero (hlow : 0 < i.low) (power : Int) : i.holds 0 power = false := by
  have hscale : 0 < if 0 ≤ power then 1 else Nat.pow 10 (-power).toNat := by
    split
    · exact Nat.one_pos
    · exact Nat.pow_pos (by decide)
  have hpos := Nat.mul_pos hlow hscale
  simp only [holds, Nat.zero_mul, ite_self]
  split
  · rw [Bool.and_eq_false_iff]
    exact .inl (by simpa using Nat.not_le.2 hpos)
  · rw [Bool.and_eq_false_iff]
    exact .inl (by simp)

theorem nearestAt_ne_zero (hlow : 0 < i.low) {n : Nat} (h : i.nearestAt power = some n) :
    n ≠ 0 := by
  rintro rfl
  have hzero := holds_zero hlow power
  unfold nearestAt at h
  simp only at h
  split at h
  · split at h
    · cases h
    next hholds _ _ =>
      rw [Option.some.inj h, hzero] at hholds
      cases hholds
  next hholds _ =>
    rw [Option.some.inj h, hzero] at hholds
    cases hholds
  · cases h
  · cases h

theorem search_ne_zero (hlow : 0 < i.low) (hden : 0 < i.den) (fuel : Nat)
    (h : i.Reaches power) : (i.search fuel power).1 ≠ 0 := by
  induction fuel generalizing power with
  | zero => exact floorAt_ne_zero h hden
  | succ fuel ih =>
    unfold search
    split
    next n hn => exact nearestAt_ne_zero hlow hn
    next => exact ih h.pred

end Interval

theorem shortest_ne_zero (f : Format) {significand : Nat} (h : significand ≠ 0) (exponent : Int) :
    (shortest f significand exponent).1 ≠ 0 := by
  have hup : 0 < if 0 ≤ exponent then Nat.pow 2 exponent.toNat else 1 := by
    split
    · exact Nat.pow_pos (by decide)
    · exact Nat.one_pos
  have hden : 0 < (Interval.around f significand exponent).den := by
    show 0 < if 0 ≤ exponent then 4 else 4 * Nat.pow 2 (-exponent).toNat
    split
    · decide
    · exact Nat.mul_pos (by decide) (Nat.pow_pos (by decide))
  have hmid : 0 < (Interval.around f significand exponent).mid :=
    Nat.mul_pos (Nat.mul_pos (by decide) (Nat.pos_of_ne_zero h)) hup
  have hlow : 0 < (Interval.around f significand exponent).low := by
    refine Nat.mul_pos ?_ hup
    split <;> omega
  exact Interval.search_ne_zero hlow hden _ (Interval.reaches_leading hden hmid)

theorem dropTrailingZeros_ne_nil {ds : List Char} (h : ∃ c ∈ ds, c ≠ '0') :
    dropTrailingZeros ds ≠ [] := by
  obtain ⟨c, hc, hne⟩ := h
  rw [dropTrailingZeros, ne_eq, List.reverse_eq_nil_iff]
  intro hnil
  have hzeros := List.takeWhile_append_dropWhile (p := (· == '0')) (l := ds.reverse)
  rw [hnil, List.append_nil] at hzeros
  have hall := List.all_takeWhile (p := (· == '0')) (l := ds.reverse)
  rw [hzeros, List.all_eq_true] at hall
  exact hne (by simpa using hall c (List.mem_reverse.2 hc))

theorem mem_of_mem_dropTrailingZeros {ds : List Char} {c : Char} (h : c ∈ dropTrailingZeros ds) :
    c ∈ ds := by
  rw [dropTrailingZeros, List.mem_reverse] at h
  exact List.mem_reverse.1 ((List.dropWhile_suffix _).mem h)

end Floating

end QueryExpr.Number

namespace QueryExpr.Token

open Number (Floating Digits.run Digits.afterRun Digits.toChars)
open Number.Floating (positional scientific magnitudeChars)
open Text (isDigit isDecimalDigit)

/-! ## Powers of ten -/

/-- The places of a number with the point in front of them, if there are any. -/
def Places (places : List Char) : Prop :=
  places = [] ∨ ∃ c cs, places = '.' :: c :: cs ∧ ∀ d ∈ c :: cs, isDigit d = true

section

variable {places power sign rest : List Char}

/-- Neither the point nor the letter in front of a power of ten is part of a number or a date. -/
theorem Places.head (h : Places places) (behind : List Char) :
    ∀ c ∈ (places ++ 'e' :: behind).head?,
      isDigit c = false ∧ isDecimalDigit c = false ∧ c ≠ '-' := by
  rcases h with rfl | ⟨c, cs, rfl, -⟩ <;>
  · rintro _ ⟨⟩
    decide

theorem splitPlaces_of_places (h : Places places) (behind : List Char) :
    splitPlaces (places ++ 'e' :: behind) = (places, 'e' :: behind) := by
  rcases h with rfl | ⟨c, cs, rfl, hd⟩
  · rfl
  · have hletter : ∀ d ∈ ('e' :: behind).head?, isDigit d = false := by
      rintro _ ⟨⟩
      rfl
    have hstart : startsDigit (c :: cs ++ 'e' :: behind) = true := hd c List.mem_cons_self
    obtain ⟨hrun, hafter⟩ := run_append hd hletter
    rw [List.cons_append, splitPlaces, if_pos hstart, hrun, hafter]

theorem splitPower_of_digits (hsign : sign = [] ∨ sign = ['-'])
    (hp : ∀ c ∈ power, isDigit c = true) (hne : power ≠ []) (hrest : NumeralEnd rest) :
    splitPower ('e' :: (sign ++ power ++ rest)) = ('e' :: (sign ++ power), rest) := by
  obtain ⟨hrun, hafter⟩ := run_append hp fun c hc => (endsNumeral_spec (hrest c hc)).2.1
  have hstart := startsDigit_of_digits hp hne rest
  rcases hsign with rfl | rfl
  · obtain ⟨c, cs, rfl⟩ := List.exists_cons_of_ne_nil hne
    have hc : isDigit c = true := hp c List.mem_cons_self
    simp only [List.nil_append, List.cons_append] at hrun hafter ⊢
    simp [splitPower, hc, hrun, hafter]
  · have hminus : isDigit '-' = false := rfl
    simp [splitPower, hminus, hstart, hrun, hafter]

end

/-- Digits, places if there are any, and a power of ten with or without a minus. -/
theorem Numeral.written_power {whole places sign power : List Char}
    (hw : ∀ c ∈ whole, isDigit c = true) (hwne : whole ≠ []) (hplaces : Places places)
    (hsign : sign = [] ∨ sign = ['-']) (hp : ∀ c ∈ power, isDigit c = true) (hpne : power ≠ []) :
    Numeral.Written (whole ++ places ++ 'e' :: (sign ++ power)) true where
  starts := by
    rw [List.append_assoc]
    exact startsDigit_of_digits hw hwne _
  splits rest hrest := by
    have hassoc : whole ++ places ++ 'e' :: (sign ++ power) ++ rest =
        whole ++ (places ++ 'e' :: (sign ++ power ++ rest)) := by simp
    obtain ⟨hrun, hafter⟩ := run_append hw fun c hc => (hplaces.head _ c hc).1
    rw [hassoc, Numeral.ofChars, hrun, hafter, splitPlaces_of_places hplaces,
      splitPower_of_digits hsign hp hpne hrest]
    simp
  noDate rest _ := by
    have hassoc : whole ++ places ++ 'e' :: (sign ++ power) ++ rest =
        whole ++ (places ++ 'e' :: (sign ++ power ++ rest)) := by simp
    rw [hassoc]
    exact splitDate?_digits hw fun c hc => (hplaces.head _ c hc).2

/-! ## Magnitudes -/

theorem isDigit_of_mem_zero : ∀ c ∈ ['0'], isDigit c = true := List.forall_mem_singleton.2 rfl

section

variable {ds : List Char} (hd : ∀ c ∈ ds, isDigit c = true) (hne : ds ≠ [])

include hd hne

theorem written_positional (lead : Int) : Numeral.Written (positional ds lead) true := by
  unfold positional
  split
  · have hplaces : ∀ c ∈ List.replicate ((-lead).toNat - 1) '0' ++ ds, isDigit c = true := by
      intro c hc
      rcases List.mem_append.1 hc with hc | hc
      · rw [List.eq_of_mem_replicate hc]
        rfl
      · exact hd c hc
    exact Numeral.written_fraction isDigit_of_mem_zero (List.cons_ne_nil '0' []) hplaces
      (by simp [hne])
  · have hwhole : ∀ c ∈ ds.take (lead.toNat + 1) ++
        List.replicate (lead.toNat + 1 - ds.length) '0', isDigit c = true := by
      intro c hc
      rcases List.mem_append.1 hc with hc | hc
      · exact hd c (List.mem_of_mem_take hc)
      · rw [List.eq_of_mem_replicate hc]
        rfl
    have hwne : ds.take (lead.toNat + 1) ++
        List.replicate (lead.toNat + 1 - ds.length) '0' ≠ [] := by
      simp [hne]
    dsimp only
    split
    · exact Numeral.written_fraction hwhole hwne isDigit_of_mem_zero (List.cons_ne_nil '0' [])
    next hback =>
      refine Numeral.written_fraction hwhole hwne ?_ (by simpa using hback)
      exact fun c hc => hd c (List.mem_of_mem_drop hc)

theorem written_scientific (lead : Int) : Numeral.Written (scientific ds lead) true := by
  obtain ⟨c, cs, rfl⟩ := List.exists_cons_of_ne_nil hne
  have hplaces : Places (if cs.isEmpty then [] else '.' :: cs) := by
    cases cs with
    | nil => exact .inl rfl
    | cons c' cs' => exact .inr ⟨c', cs', rfl, fun d hd' => hd d (List.mem_cons_of_mem _ hd')⟩
  have hsign : (if lead < 0 then ['-'] else []) = [] ∨
      (if lead < 0 then ['-'] else []) = ['-'] := by
    split
    · exact .inr rfl
    · exact .inl rfl
  have hfront : ∀ d ∈ [c], isDigit d = true := by simpa using hd c List.mem_cons_self
  exact Numeral.written_power hfront (List.cons_ne_nil c []) hplaces hsign
    (fun _ => Number.Digits.isDigit_of_mem_toChars) (Number.Digits.toChars_ne_nil lead.natAbs)

end

theorem written_magnitude (f : Floating.Format) (significand : Nat) (exponent : Int) :
    Numeral.Written (magnitudeChars f significand exponent) true := by
  unfold magnitudeChars
  split
  · exact Numeral.written_fraction isDigit_of_mem_zero (List.cons_ne_nil '0' [])
      isDigit_of_mem_zero (List.cons_ne_nil '0' [])
  next hpos =>
    have hne := Floating.dropTrailingZeros_ne_nil
      (Number.Digits.exists_ne_zero_of_toChars (Floating.shortest_ne_zero f hpos exponent))
    have hd : ∀ c ∈ Floating.dropTrailingZeros
        (Digits.toChars (Floating.shortest f significand exponent).1), isDigit c = true :=
      fun c hc => Number.Digits.isDigit_of_mem_toChars (Floating.mem_of_mem_dropTrailingZeros hc)
    dsimp only
    split
    · exact written_positional hd hne _
    · exact written_scientific hd hne _

end QueryExpr.Token
