import QueryExpr.Number.Decimal.Reader

/-!
# Reading numbers back

* `Integer.readSigned_chars`: an integer in range is read back.
* `Integer.readCount_of_digits`: digits are a count, if they are in range.
* `Decimal.read_chars`: a decimal is read back with its scale.
* `Integer.of_mem_of_readCount`, `Decimal.of_mem_of_readPlain`: what counts and decimals are made
  of.
-/

namespace QueryExpr.Number

open Text (isDigit)

namespace Digits

/-! ## Digits -/

/-- What has been taken in is not lost by more digits. -/
theorem le_ofDigitChars (cs : List Char) (n : Nat) : n ≤ Nat.ofDigitChars 10 cs n := by
  induction cs generalizing n with
  | nil => exact Nat.le_of_eq Nat.ofDigitChars_nil.symm
  | cons c cs ih =>
    rw [Nat.ofDigitChars_cons]
    exact Nat.le_trans (by omega) (ih _)

theorem ofDigitChars_cons_value (c : Char) (cs : List Char) (n : Nat) :
    Nat.ofDigitChars 10 (c :: cs) n = Nat.ofDigitChars 10 cs (n * 10 + value c) := by
  rw [Nat.ofDigitChars_cons, Nat.mul_comm, value]

theorem toChars_eq_cons (n : Nat) : ∃ c cs, toChars n = c :: cs ∧ isDigit c = true := by
  cases h : toChars n with
  | nil => exact absurd h (toChars_ne_nil n)
  | cons c cs => exact ⟨c, cs, rfl, isDigit_of_mem_toChars (h ▸ List.mem_cons_self)⟩

theorem isDigit_of_mem_padded {width n : Nat} {c : Char} (h : c ∈ padded width n) :
    isDigit c = true := by
  rcases List.mem_append.1 h with h | h
  · rw [List.eq_of_mem_replicate h]
    rfl
  · exact isDigit_of_mem_toChars h

theorem ofDigitChars_padded (width n : Nat) : Nat.ofDigitChars 10 (padded width n) 0 = n := by
  rw [padded, Nat.ofDigitChars_append, Nat.ofDigitChars_replicate_zero, Nat.mul_zero]
  exact ofChars_toChars n

theorem le_length_padded (width n : Nat) : width ≤ (padded width n).length := by
  rw [padded, List.length_append, List.length_replicate]
  omega

theorem padded_ne_nil {width : Nat} (h : width ≠ 0) (n : Nat) : padded width n ≠ [] := by
  intro hnil
  have hlen := le_length_padded width n
  rw [hnil, List.length_nil] at hlen
  omega

theorem ne_of_isDigit {c d : Char} (hc : isDigit c = true) (hd : isDigit d = false) : c ≠ d := by
  rintro rfl
  rw [hc] at hd
  cases hd

end Digits

namespace Integer

/-! ## Integers -/

/-- Digits have a value within the limit, or they are beyond it. -/
theorem readMagnitude_of_digits {limit : Nat} {beyond : IntegerFault} {cs : List Char} {n : Nat}
    (hd : ∀ c ∈ cs, isDigit c = true) (hn : n ≤ limit) :
    readMagnitude limit beyond n cs =
      if Nat.ofDigitChars 10 cs n ≤ limit then .ok (Nat.ofDigitChars 10 cs n)
      else .error beyond := by
  induction cs generalizing n with
  | nil => rw [readMagnitude, Nat.ofDigitChars_nil, if_pos hn]
  | cons c cs ih =>
    rw [Digits.ofDigitChars_cons_value, readMagnitude, if_pos (hd c List.mem_cons_self)]
    by_cases hnext : n * 10 + Digits.value c ≤ limit
    · rw [if_pos hnext, ih (fun d hd' => hd d (List.mem_cons_of_mem _ hd')) hnext]
    · have hle := Digits.le_ofDigitChars cs (n * 10 + Digits.value c)
      rw [if_neg hnext, if_neg (by omega)]

theorem readDigits_of_digits {limit : Nat} (beyond : IntegerFault) {cs : List Char}
    (hd : ∀ c ∈ cs, isDigit c = true) (hne : cs ≠ []) :
    readDigits limit beyond cs =
      if Digits.ofChars cs ≤ limit then .ok (Digits.ofChars cs) else .error beyond := by
  rw [readDigits, List.isEmpty_eq_false_iff.2 hne, if_neg Bool.false_ne_true]
  exact readMagnitude_of_digits hd (Nat.zero_le limit)

theorem readDigits_toChars {limit n : Nat} (beyond : IntegerFault) (hle : n ≤ limit) :
    readDigits limit beyond (Digits.toChars n) = .ok n := by
  rw [readDigits_of_digits beyond (fun _ => Digits.isDigit_of_mem_toChars)
    (Digits.toChars_ne_nil n), Digits.ofChars_toChars, if_pos hle]

/-- An integer of the range of `bits` bits is read back. -/
theorem readSigned_chars {bits : Nat} {n : Int} (hlow : -(Nat.pow 2 (bits - 1) : Int) ≤ n)
    (hhigh : n ≤ (Nat.pow 2 (bits - 1) - 1 : Nat)) : readSigned bits (chars n) = .ok n := by
  unfold chars
  split
  next hneg =>
    rw [readSigned, readDigits_toChars _ (by omega)]
    show Except.ok (-(n.natAbs : Int)) = Except.ok n
    rw [show -(n.natAbs : Int) = n by omega]
  next hneg =>
    have hle : n.natAbs ≤ Nat.pow 2 (bits - 1) - 1 := by omega
    have hread := readDigits_toChars .tooLarge hle
    obtain ⟨c, cs, hcs, hc⟩ := Digits.toChars_eq_cons n.natAbs
    rw [hcs] at hread ⊢
    rw [readSigned, hread]
    · show Except.ok (n.natAbs : Int) = Except.ok n
      rw [show (n.natAbs : Int) = n by omega]
    · rintro ⟨⟩
    · rintro ds ⟨⟩
      exact absurd hc (by decide)
    · rintro ds ⟨⟩
      exact absurd hc (by decide)

theorem readSigned_int32 (n : Int32) : readSigned 32 (chars n.toInt) = .ok n.toInt :=
  readSigned_chars n.le_toInt (Int.le_of_lt_add_one n.toInt_lt)

theorem readSigned_int64 (n : Int64) : readSigned 64 (chars n.toInt) = .ok n.toInt :=
  readSigned_chars n.le_toInt (Int.le_of_lt_add_one n.toInt_lt)

/-- A count of digits is their value, if it is below `2 ^ bits`. -/
theorem readCount_of_digits (bits : Nat) {cs : List Char} (hd : ∀ c ∈ cs, isDigit c = true)
    (hne : cs ≠ []) : readCount bits cs =
      if Digits.ofChars cs < Nat.pow 2 bits then .ok (Digits.ofChars cs) else .error .tooLarge := by
  have hpow : 0 < Nat.pow 2 bits := Nat.pow_pos (by decide)
  have hbound : Digits.ofChars cs ≤ Nat.pow 2 bits - 1 ↔ Digits.ofChars cs < Nat.pow 2 bits := by
    omega
  rw [readCount, readDigits_of_digits .tooLarge hd hne]
  · simp only [hbound]
  · exact hne
  · rintro ds rfl
    exact absurd (hd '+' List.mem_cons_self) (by decide)

theorem isDigit_of_readMagnitude {limit n m : Nat} {beyond : IntegerFault} {cs : List Char}
    (h : readMagnitude limit beyond n cs = .ok m) : ∀ c ∈ cs, isDigit c = true := by
  induction cs generalizing n with
  | nil => exact List.forall_mem_nil _
  | cons c cs ih =>
    simp only [readMagnitude] at h
    split at h
    next hc =>
      split at h
      · exact List.forall_mem_cons.2 ⟨hc, ih h⟩
      · cases h
    · cases h

theorem isDigit_of_readDigits {limit m : Nat} {beyond : IntegerFault} {cs : List Char}
    (h : readDigits limit beyond cs = .ok m) : ∀ c ∈ cs, isDigit c = true := by
  rw [readDigits] at h
  split at h
  · cases h
  · exact isDigit_of_readMagnitude h

/-- A count consists of digits, behind a plus at most. -/
theorem of_mem_of_readCount {bits n : Nat} {cs : List Char} (h : readCount bits cs = .ok n) :
    ∀ c ∈ cs, isDigit c = true ∨ c = '+' := by
  unfold readCount at h
  split at h
  · cases h
  · exact List.forall_mem_cons.2 ⟨.inr rfl, fun c hc => .inl (isDigit_of_readDigits h c hc)⟩
  · exact fun c hc => .inl (isDigit_of_readDigits h c hc)

end Integer

namespace Decimal

/-! ## Decimals -/

theorem Partial.isFull_of_lt {p : Partial} (h : p.pointed = true → p.scale < maxScale) :
    p.isFull = false := by
  cases hp : p.pointed with
  | false => simp [isFull, hp]
  | true =>
    have := h hp
    simp [isFull, hp]
    omega

/-- Digits for which there is room are taken in one by one. -/
theorem Partial.finish_append {p : Partial} {cs : List Char} (hd : ∀ c ∈ cs, isDigit c = true)
    (hunits : Nat.ofDigitChars 10 cs p.units < unitBound)
    (hscale : p.pointed = true → p.scale + cs.length ≤ maxScale) (rest : List Char) :
    p.finish (cs ++ rest) =
      finish ⟨Nat.ofDigitChars 10 cs p.units, if p.pointed then p.scale + cs.length else p.scale,
        p.pointed, p.started || !cs.isEmpty⟩ rest := by
  induction cs generalizing p with
  | nil => simp
  | cons c cs ih =>
    rw [Digits.ofDigitChars_cons_value] at hunits ⊢
    -- there is room for one digit since there is for all of them
    have hnext : p.units * 10 + Digits.value c < unitBound :=
      Nat.lt_of_le_of_lt (Digits.le_ofDigitChars cs _) hunits
    have hfull : p.isFull = false :=
      isFull_of_lt fun hp => Nat.lt_of_lt_of_le (by simp) (hscale hp)
    rw [List.cons_append, finish, if_pos (hd c List.mem_cons_self)]
    have hroom : (p.isFull || p.pointed && decide (unitBound ≤ p.units * 10 + Digits.value c)) =
        false := by
      simp [hfull, hnext]
    simp only [hroom]
    rw [if_neg (by decide), if_neg (by omega), ih]
    · cases hp : p.pointed <;> simp [Nat.add_comm, Nat.add_left_comm]
    · exact fun d hd' => hd d (List.mem_cons_of_mem _ hd')
    · exact hunits
    · intro hp
      have := hscale hp
      simp only [List.length_cons] at this
      simp only at hp
      simp [hp]
      omega

theorem Partial.finish_point {p : Partial} (hp : p.pointed = false) (cs : List Char) :
    p.finish ('.' :: cs) = finish { p with pointed := true } cs := by
  rw [finish, if_neg (by decide), if_pos (by simp [hp])]

/-- The digits before the point and those behind it, for a scale that is not zero. -/
theorem magnitudeChars_of_pos {scale : Nat} (h : scale ≠ 0) (magnitude : Nat) :
    ∃ whole places, magnitudeChars magnitude scale = whole ++ '.' :: places ∧
      whole ++ places = Digits.padded (scale + 1) magnitude ∧ places.length = scale ∧
      whole ≠ [] ∧ (∀ c ∈ whole, isDigit c = true) ∧ ∀ c ∈ places, isDigit c = true := by
  have hlen := Digits.le_length_padded (scale + 1) magnitude
  have hdigits : ∀ c ∈ Digits.padded (scale + 1) magnitude, isDigit c = true :=
    fun c => Digits.isDigit_of_mem_padded
  rw [magnitudeChars, if_neg h]
  generalize Digits.padded (scale + 1) magnitude = digits at hlen hdigits ⊢
  refine ⟨digits.take (digits.length - scale), digits.drop (digits.length - scale), rfl,
    List.take_append_drop _ _, ?_, ?_, fun c hc => hdigits c (List.mem_of_mem_take hc),
    fun c hc => hdigits c (List.mem_of_mem_drop hc)⟩
  · rw [List.length_drop]
    omega
  · intro hnil
    have := congrArg List.length hnil
    rw [List.length_take, List.length_nil] at this
    omega

/-- A magnitude in range is read back with its scale. -/
theorem readMagnitude_magnitudeChars {magnitude scale : Nat} (hm : magnitude < unitBound)
    (hs : scale ≤ maxScale) :
    readMagnitude (magnitudeChars magnitude scale) = some (magnitude, scale) := by
  by_cases hzero : scale = 0
  · subst hzero
    have hdigits : ∀ c ∈ Digits.padded 1 magnitude, isDigit c = true :=
      fun c => Digits.isDigit_of_mem_padded
    have hne : (Digits.padded 1 magnitude).isEmpty = false :=
      List.isEmpty_eq_false_iff.2 (Digits.padded_ne_nil Nat.one_ne_zero magnitude)
    have hvalue := Digits.ofDigitChars_padded 1 magnitude
    have := Partial.finish_append (p := .start) hdigits (by rw [Partial.start, hvalue]; exact hm)
      (by rintro ⟨⟩) []
    rw [List.append_nil] at this
    rw [magnitudeChars, if_pos rfl, readMagnitude, Nat.zero_add, this]
    simp [Partial.start, Partial.finish, hvalue, hne]
  · obtain ⟨whole, places, hchars, hdigits, hlen, hne, hw, hp⟩ :=
      magnitudeChars_of_pos hzero magnitude
    have hvalue : Nat.ofDigitChars 10 places (Nat.ofDigitChars 10 whole 0) = magnitude := by
      rw [← Nat.ofDigitChars_append, hdigits]
      exact Digits.ofDigitChars_padded _ _
    have hwhole : Nat.ofDigitChars 10 whole 0 < unitBound := by
      apply Nat.lt_of_le_of_lt (Digits.le_ofDigitChars places _)
      rw [hvalue]
      exact hm
    have hnonempty : whole.isEmpty = false := List.isEmpty_eq_false_iff.2 hne
    rw [readMagnitude, hchars, Partial.finish_append hw hwhole (by rintro ⟨⟩),
      Partial.finish_point rfl, ← List.append_nil places, Partial.finish_append hp]
    · simp [Partial.start, Partial.finish, hvalue, hlen, hnonempty]
    · show Nat.ofDigitChars 10 places (Nat.ofDigitChars 10 whole 0) < unitBound
      rw [hvalue]
      exact hm
    · intro _
      simp [Partial.start, hlen, hs]

/-- A decimal of the given units and scale. -/
theorem of?_units_scale (d : Decimal) : of? d.units d.scale = some d := by
  rw [of?, dif_pos ⟨d.units_lt, d.scale_le⟩]

/-- A magnitude is written in digits, or in digits with a point between them. -/
theorem magnitudeChars_cases (magnitude scale : Nat) :
    (magnitudeChars magnitude scale ≠ [] ∧ ∀ c ∈ magnitudeChars magnitude scale, isDigit c = true) ∨
    ∃ whole places, magnitudeChars magnitude scale = whole ++ '.' :: places ∧ whole ≠ [] ∧
      places ≠ [] ∧ (∀ c ∈ whole, isDigit c = true) ∧ ∀ c ∈ places, isDigit c = true := by
  by_cases hzero : scale = 0
  · subst hzero
    rw [magnitudeChars, if_pos rfl]
    exact .inl ⟨Digits.padded_ne_nil Nat.one_ne_zero magnitude,
      fun c => Digits.isDigit_of_mem_padded⟩
  · obtain ⟨whole, places, hchars, -, hlen, hne, hw, hp⟩ := magnitudeChars_of_pos hzero magnitude
    refine .inr ⟨whole, places, hchars, hne, ?_, hw, hp⟩
    rintro rfl
    exact hzero hlen.symm

theorem magnitudeChars_eq_cons (magnitude scale : Nat) :
    ∃ c cs, magnitudeChars magnitude scale = c :: cs ∧ isDigit c = true := by
  rcases magnitudeChars_cases magnitude scale with
    ⟨hne, hd⟩ | ⟨whole, places, hchars, hne, -, hd, -⟩
  · obtain ⟨c, cs, hcs⟩ := List.exists_cons_of_ne_nil hne
    rw [hcs] at hd
    exact ⟨c, cs, hcs, hd c List.mem_cons_self⟩
  · obtain ⟨c, cs, rfl⟩ := List.exists_cons_of_ne_nil hne
    exact ⟨c, cs ++ '.' :: places, hchars, hd c List.mem_cons_self⟩

/-- A magnitude consists of digits and points. -/
theorem of_mem_magnitudeChars {magnitude scale : Nat} {c : Char}
    (h : c ∈ magnitudeChars magnitude scale) : isDigit c = true ∨ c = '.' := by
  rcases magnitudeChars_cases magnitude scale with ⟨-, hd⟩ | ⟨whole, places, hchars, -, -, hw, hp⟩
  · exact .inl (hd c h)
  · rw [hchars, List.mem_append, List.mem_cons] at h
    rcases h with h | rfl | h
    · exact .inl (hw c h)
    · exact .inr rfl
    · exact .inl (hp c h)

/-- A decimal is read back with its scale. -/
theorem readPlain_chars (d : Decimal) : readPlain d.chars = some d := by
  have hread := readMagnitude_magnitudeChars d.units_lt d.scale_le
  have hof := of?_units_scale d
  unfold chars
  split
  next hneg =>
    rw [readPlain, hread]
    show of? (-(d.units.natAbs : Int)) d.scale = some d
    rwa [show -(d.units.natAbs : Int) = d.units by omega]
  next hneg =>
    obtain ⟨c, cs, hcs, hc⟩ := magnitudeChars_eq_cons d.units.natAbs d.scale
    rw [hcs] at hread ⊢
    rw [readPlain, hread]
    · show of? (d.units.natAbs : Int) d.scale = some d
      rwa [show (d.units.natAbs : Int) = d.units by omega]
    · rintro ds ⟨⟩
      exact absurd hc (by decide)
    · rintro ds ⟨⟩
      exact absurd hc (by decide)

/-- What is taken in or passed over behind the last place is a digit, a point or an underscore. -/
theorem Partial.of_mem_of_finish {p : Partial} {cs : List Char} {r : Nat × Nat}
    (h : p.finish cs = some r) : ∀ c ∈ cs, isDigit c = true ∨ c = '.' ∨ c = '_' := by
  have hround : ∀ (p : Partial) (digit : Nat) (rest : List Char),
      p.roundBefore digit rest = some r → ∀ c ∈ rest, isDigit c = true ∨ c = '.' ∨ c = '_' := by
    intro p digit rest hr c hc
    rw [roundBefore] at hr
    split at hr
    next hall =>
      have := List.all_eq_true.1 hall c hc
      rw [Bool.or_eq_true, beq_iff_eq] at this
      exact this.imp id .inr
    · cases hr
  induction cs generalizing p with
  | nil => exact List.forall_mem_nil _
  | cons c cs ih =>
    simp only [finish] at h
    split at h
    next hc =>
      refine List.forall_mem_cons.2 ⟨.inl hc, ?_⟩
      split at h
      · exact hround _ _ _ h
      split at h
      · cases h
      · exact ih h
    split at h
    next hc =>
      rw [Bool.and_eq_true, decide_eq_true_eq] at hc
      exact List.forall_mem_cons.2 ⟨.inr (.inl hc.1), ih h⟩
    split at h
    next hc =>
      rw [Bool.and_eq_true, decide_eq_true_eq] at hc
      refine List.forall_mem_cons.2 ⟨.inr (.inr hc.1), ?_⟩
      split at h
      · exact hround _ _ _ h
      · exact ih h
    · cases h

/-- Plain notation is made of ASCII characters. -/
theorem of_mem_of_readPlain {cs : List Char} {d : Decimal} (h : readPlain cs = some d) :
    ∀ c ∈ cs, isDigit c = true ∨ c ∈ ['.', '_', '-', '+'] := by
  have hmagnitude : ∀ {cs : List Char} {r : Nat × Nat}, readMagnitude cs = some r →
      ∀ c ∈ cs, isDigit c = true ∨ c ∈ ['.', '_', '-', '+'] := by
    intro cs r hr c hc
    rcases Partial.of_mem_of_finish hr c hc with hdigit | rfl | rfl
    · exact .inl hdigit
    · exact .inr (by decide)
    · exact .inr (by decide)
  unfold readPlain at h
  split at h <;> obtain ⟨r, hr, -⟩ := Option.bind_eq_some_iff.1 h
  · exact List.forall_mem_cons.2 ⟨.inr (by decide), hmagnitude hr⟩
  · exact List.forall_mem_cons.2 ⟨.inr (by decide), hmagnitude hr⟩
  · exact hmagnitude hr

theorem isExponentMark_of_mem_magnitudeChars {magnitude scale : Nat} {c : Char}
    (h : c ∈ magnitudeChars magnitude scale) : isExponentMark c = false := by
  rcases of_mem_magnitudeChars h with hc | rfl
  · have he := Digits.ne_of_isDigit (d := 'e') hc (by decide)
    have hE := Digits.ne_of_isDigit (d := 'E') hc (by decide)
    simp [isExponentMark, he, hE]
  · rfl

/-- A decimal is read back with its scale in whatever notation may stand there. -/
theorem read_chars (d : Decimal) : read d.chars = some d := by
  have hplain : d.chars.any isExponentMark = false := by
    rw [List.any_eq_false]
    intro c hc
    rw [chars] at hc
    split at hc
    · rcases List.mem_cons.1 hc with rfl | hc
      · decide
      · simp [isExponentMark_of_mem_magnitudeChars hc]
    · simp [isExponentMark_of_mem_magnitudeChars hc]
  rw [read, hplain, if_neg (by decide), readPlain_chars]

/-! ## Trailing zeros -/

/-- Dropping trailing zeros keeps the value. -/
theorem stripZeros_mul (units : Int) (scale : Nat) :
    (stripZeros units scale).1 * Nat.pow 10 scale =
      units * Nat.pow 10 (stripZeros units scale).2 := by
  induction scale generalizing units with
  | zero => rfl
  | succ scale ih =>
    unfold stripZeros
    split
    next hmod =>
      have hdiv : units = 10 * (units / 10) := by omega
      have hpow : (Nat.pow 10 (scale + 1) : Int) = Nat.pow 10 scale * 10 := Int.natCast_mul _ _
      calc (stripZeros (units / 10) scale).1 * Nat.pow 10 (scale + 1)
          = 10 * ((stripZeros (units / 10) scale).1 * Nat.pow 10 scale) := by
            rw [hpow, ← Int.mul_assoc, Int.mul_comm]
        _ = 10 * (units / 10 * Nat.pow 10 (stripZeros (units / 10) scale).2) := by rw [ih]
        _ = units * Nat.pow 10 (stripZeros (units / 10) scale).2 := by
            rw [← Int.mul_assoc, ← hdiv]
    next => rfl

theorem strip_same (d : Decimal) : d.strip.same d = true := by
  rw [same, beq_iff_eq]
  exact stripZeros_mul d.units d.scale

theorem strip_of_isZero {d : Decimal} (h : d.isZero = true) : d.strip = zero := by
  have hunits : d.units = 0 := by simpa [isZero] using h
  have hzeros : ∀ scale, stripZeros 0 scale = (0, 0) := by
    intro scale
    induction scale with
    | zero => rfl
    | succ scale ih => rw [stripZeros, if_pos (by decide)]; exact ih
  simp only [strip, zero, hunits, hzeros]

/-- Numbers that are not negative stay so. -/
theorem strip_units_nonneg {d : Decimal} (h : 0 ≤ d.units) : 0 ≤ d.strip.units := by
  show 0 ≤ (stripZeros d.units d.scale).1
  generalize d.units = units at h
  induction d.scale generalizing units with
  | zero => exact h
  | succ scale ih =>
    unfold stripZeros
    split
    · exact ih (units / 10) (by omega)
    · exact h

end Decimal

end QueryExpr.Number
