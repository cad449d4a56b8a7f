import LandPattern.Proofs.Script.Loosening

/-!
# Numerals

The written forms of numbers: digits, a fraction or none, and an exponent or none. What is read as a
number at the front of a text is a numeral, and every numeral at the front of the text is a part of
it, so that nothing is given back that belongs to the number. A row of digits is a whole number
where nothing follows that could belong to a word or to a fraction.
-/

namespace LandPattern.Script

/-- Digits, at least one. -/
def IsDigits (text : List Char) : Prop := text ≠ [] ∧ ∀ c ∈ text, c.isDigit = true

instance (text : List Char) : Decidable (IsDigits text) :=
  decidable_of_iff (text ≠ [] ∧ text.all Char.isDigit = true) (and_congr Iff.rfl List.all_eq_true)

/-- A point and digits, or nothing. -/
inductive Fraction : List Char → Prop where
  | none : Fraction []
  | point {digits : List Char} (hd : IsDigits digits) : Fraction ('.' :: digits)

/-- A mark, a sign or none, and digits; or nothing. -/
inductive Exponent : List Char → Prop where
  | none : Exponent []
  | marked {mark : Char} {sign digits : List Char} (hm : (mark == 'e' || mark == 'E') = true)
    (hs : sign = [] ∨ ∃ c, isSign c = true ∧ sign = [c]) (hd : IsDigits digits) :
    Exponent (mark :: (sign ++ digits))

/-- Digits with a fraction and an exponent behind them. -/
inductive Numeral : List Char → Prop where
  | mk {whole fraction exponent : List Char} (hw : IsDigits whole) (hf : Fraction fraction)
    (he : Exponent exponent) : Numeral (whole ++ fraction ++ exponent)

/-- The text does not go on with a digit. -/
def NoDigit (rest : List Char) : Prop := ∀ c more, rest = c :: more → c.isDigit = false

theorem noDigit_cons {c : Char} {more : List Char} (hc : c.isDigit = false) : NoDigit (c :: more) :=
  fun _ _ h => (List.cons.inj h).1 ▸ hc

/-- A point and a mark of an exponent are no digits, and a mark is no point. -/
theorem isDigit_of_mark {mark : Char} (hm : (mark == 'e' || mark == 'E') = true) :
    mark.isDigit = false ∧ mark ≠ '.' := by
  simp only [Bool.or_eq_true, beq_iff_eq] at hm
  rcases hm with rfl | rfl <;> decide

theorem isSign_of_isDigit {c : Char} (hc : c.isDigit = true) : isSign c = false := by
  cases hs : isSign c with
  | false => rfl
  | true =>
    simp only [isSign, Bool.or_eq_true, beq_iff_eq] at hs
    rcases hs with rfl | rfl <;> exact absurd hc (by decide)

namespace IsDigits

variable {digits rest : List Char}

theorem takeWhile_append (h : IsDigits digits) (rest : List Char) :
    (digits ++ rest).takeWhile Char.isDigit = digits ++ rest.takeWhile Char.isDigit :=
  List.takeWhile_append_of_pos h.2

/-- A row of digits goes up to what is no digit. -/
theorem takeWhile_eq (h : IsDigits digits) (hr : NoDigit rest) :
    (digits ++ rest).takeWhile Char.isDigit = digits := by
  rw [h.takeWhile_append]
  cases rest with
  | nil => exact List.append_nil digits
  | cons c more =>
    rw [List.takeWhile_cons_of_neg (by simp [hr c more rfl]), List.append_nil]

/-- Digits at the front of a text, if there are any. -/
theorem of_takeWhile {text : List Char} (h : text.takeWhile Char.isDigit ≠ []) :
    IsDigits (text.takeWhile Char.isDigit) :=
  ⟨h, fun c hc => List.all_eq_true.1 List.all_takeWhile c hc⟩

end IsDigits

theorem fractionFront_point (more : List Char) :
    fractionFront ('.' :: more) =
      if (more.takeWhile Char.isDigit).isEmpty then []
      else '.' :: more.takeWhile Char.isDigit := rfl

theorem fractionFront_other {c : Char} (hc : c ≠ '.') (more : List Char) :
    fractionFront (c :: more) = [] := by
  unfold fractionFront
  split
  · rename_i heq
    exact absurd (List.cons.inj heq).1 hc
  · rfl

theorem fraction_front (text : List Char) : Fraction (fractionFront text) := by
  unfold fractionFront
  split
  · rename_i more
    dsimp only
    split
    · exact .none
    · rename_i hsome
      exact .point (.of_takeWhile fun hnone => hsome (by rw [hnone]; rfl))
  · exact .none

namespace Fraction

variable {fraction rest : List Char}

theorem front_append (h : Fraction fraction) (rest : List Char) :
    fraction <+: fractionFront (fraction ++ rest) := by
  cases h with
  | none => exact List.nil_prefix
  | @point digits hd =>
    rw [List.cons_append, fractionFront_point, hd.takeWhile_append, if_neg (by simp [hd.1])]
    exact List.cons_prefix_cons.2 ⟨rfl, List.prefix_append _ _⟩

/-- A fraction ends where neither a digit nor a point follows. -/
theorem front_eq (h : Fraction fraction) (hr : NoDigit rest)
    (hp : ∀ more, rest ≠ '.' :: more) : fractionFront (fraction ++ rest) = fraction := by
  cases h with
  | none =>
    cases rest with
    | nil => rfl
    | cons c more => exact fractionFront_other (fun hc => hp more (by rw [hc])) more
  | @point digits hd =>
    rw [List.cons_append, fractionFront_point, hd.takeWhile_eq hr, if_neg (by simp [hd.1])]

end Fraction

theorem exponent_front (text : List Char) : Exponent (exponentFront text) := by
  cases text with
  | nil => exact .none
  | cons mark more =>
    cases hm : (mark == 'e' || mark == 'E') with
    | false =>
      rw [exponentFront_other hm]
      exact .none
    | true =>
      rw [exponentFront_mark hm]
      split
      · exact .none
      · rename_i hsome
        refine .marked hm ?_ (.of_takeWhile fun hnone => hsome (by rw [signedDigits, hnone]; rfl))
        cases more with
        | nil => exact .inl rfl
        | cons c rest =>
          cases hc : isSign c with
          | false => exact .inl (by simp [signFront, hc])
          | true => exact .inr ⟨c, hc, by simp [signFront, hc]⟩

/-- An exponent goes on with the digits behind it. -/
theorem Exponent.front_append {exponent : List Char} (h : Exponent exponent) (rest : List Char) :
    exponent <+: exponentFront (exponent ++ rest) := by
  cases h with
  | none => exact List.nil_prefix
  | @marked mark sign digits hm hs hd =>
    have hsign : signFront (sign ++ (digits ++ rest)) = sign := by
      rcases hs with rfl | ⟨c, hc, rfl⟩
      · obtain ⟨d, more, rfl⟩ := List.exists_cons_of_ne_nil hd.1
        simp [signFront, isSign_of_isDigit (hd.2 d List.mem_cons_self)]
      · simp [signFront, hc]
    have hdigits : signedDigits (sign ++ (digits ++ rest)) =
        digits ++ rest.takeWhile Char.isDigit := by
      rw [signedDigits, hsign, List.drop_left, hd.takeWhile_append]
    rw [List.cons_append, List.append_assoc, exponentFront_mark hm, hsign, hdigits,
      if_neg (by simp [hd.1]), ← List.append_assoc]
    exact List.cons_prefix_cons.2 ⟨rfl, List.prefix_append _ _⟩

theorem numberFront_append {whole rest : List Char}
    (hw : (whole ++ rest).takeWhile Char.isDigit = whole) :
    numberFront (whole ++ rest) =
      whole ++ fractionFront rest ++ exponentFront (rest.drop (fractionFront rest).length) := by
  unfold numberFront
  simp only [hw, List.drop_left]

/-- What is read as a number is one. -/
theorem numeral_numberFront {c : Char} (hc : c.isDigit = true) (rest : List Char) :
    Numeral (numberFront (c :: rest)) := by
  unfold numberFront
  refine .mk (.of_takeWhile ?_) (fraction_front _) (exponent_front _)
  simp [hc]

namespace Numeral

variable {text rest : List Char}

/-- A numeral at the front of a text is a part of the number that is read there. -/
theorem isPrefix_numberFront (h : Numeral text) (rest : List Char) :
    text <+: numberFront (text ++ rest) := by
  obtain @⟨whole, fraction, exponent, hw, hf, he⟩ := h
  cases he with
  | none =>
    rw [List.append_nil]
    cases hf with
    | none =>
      rw [List.append_nil]
      -- the digits may go on, and whatever follows them stands behind all of these
      unfold numberFront
      simp only [hw.takeWhile_append, List.append_assoc]
      exact List.prefix_append _ _
    | @point digits hd =>
      have hpoint : NoDigit ('.' :: (digits ++ rest)) := noDigit_cons (by decide)
      have hwhole := hw.takeWhile_eq hpoint
      obtain ⟨tail, htail⟩ := (Fraction.point hd).front_append rest
      rw [List.append_assoc, List.cons_append, numberFront_append hwhole, ← List.cons_append,
        ← htail, List.append_assoc, List.append_assoc, ← List.append_assoc]
      exact List.prefix_append _ _
  | @marked mark sign digits hm hs hd =>
    obtain ⟨hdigit, hpoint⟩ := isDigit_of_mark hm
    have hmark : NoDigit (mark :: (sign ++ digits) ++ rest) := noDigit_cons hdigit
    have hfraction : fractionFront (fraction ++ (mark :: (sign ++ digits) ++ rest)) = fraction :=
      hf.front_eq hmark fun more heq => hpoint (List.cons.inj heq).1
    have hbehind : NoDigit (fraction ++ (mark :: (sign ++ digits) ++ rest)) := by
      cases hf with
      | none => exact hmark
      | point _ => exact noDigit_cons (by decide)
    rw [List.append_assoc, List.append_assoc, List.append_assoc,
      numberFront_append (hw.takeWhile_eq hbehind), hfraction, List.drop_left, ← List.append_assoc]
    exact (List.prefix_append_right_inj _).2 ((Exponent.marked hm hs hd).front_append rest)

/-- A numeral alone is the whole number that is read. -/
theorem numberFront_eq (h : Numeral text) : numberFront text = text := by
  have hfront := h.isPrefix_numberFront []
  rw [List.append_nil] at hfront
  exact List.IsPrefix.eq_of_length_le (numberFront_isPrefix text) hfront.length_le

end Numeral

/-! ## What ends a row of digits -/

/-- The text goes on neither with a character of a word nor with a point and a digit, so that it
ends every row of digits before it. -/
def Parted (behind : List Char) : Prop := ∀ c more, behind = c :: more →
  isWordChar c = false ∧ ¬ (c = '.' ∧ ∃ d tail, more = d :: tail ∧ d.isDigit = true)

theorem parted_cons {c : Char} {more : List Char} (hw : isWordChar c = false) (hp : c ≠ '.') :
    Parted (c :: more) := by
  intro d others heq
  obtain ⟨rfl, -⟩ := List.cons.inj heq
  exact ⟨hw, fun hpoint => hp hpoint.1⟩

namespace Parted

variable {behind : List Char}

theorem noDigit (h : Parted behind) : NoDigit behind := by
  intro c more heq
  have hword := (h c more heq).1
  simp only [isWordChar, Char.isAlphanum, Bool.or_eq_false_iff] at hword
  exact hword.1.2

theorem fractionFront (h : Parted behind) : fractionFront behind = [] := by
  cases behind with
  | nil => rfl
  | cons c more =>
    by_cases hc : c = '.'
    · subst hc
      rw [fractionFront_point, if_pos]
      cases more with
      | nil => rfl
      | cons d tail =>
        have hd : d.isDigit = false := by
          rw [Bool.eq_false_iff]
          exact fun hd => (h '.' _ rfl).2 ⟨rfl, d, tail, rfl, hd⟩
        rw [List.takeWhile_cons_of_neg (by simp [hd])]
        rfl
    · exact fractionFront_other hc more

theorem exponentFront (h : Parted behind) : exponentFront behind = [] := by
  cases behind with
  | nil => rfl
  | cons c more =>
    refine exponentFront_other ?_ more
    rw [Bool.eq_false_iff]
    intro hmark
    have hword := (h c more rfl).1
    simp only [Bool.or_eq_true, beq_iff_eq] at hmark
    rcases hmark with rfl | rfl <;> exact absurd hword (by decide)

/-- The digits are the whole number. -/
theorem numberFront (h : Parted behind) {digits : List Char} (hd : IsDigits digits) :
    numberFront (digits ++ behind) = digits := by
  rw [numberFront_append (hd.takeWhile_eq h.noDigit), h.fractionFront, List.append_nil,
    List.length_nil, List.drop_zero, h.exponentFront, List.append_nil]

/-- Digits are read as their value, and are stepped over together with the character behind them
where it does not fit. -/
theorem readNumber (h : Parted behind) {digits : List Char} (hd : IsDigits digits) :
    readNumber (digits ++ behind) =
      match Number.inRange? (Number.ofDigits digits : Int) with
      | some value => .token (.int value) digits.length
      | none => .broken .numberOutOfRange 0 digits.length (digits.length + 1) := by
  have hall : digits.all Char.isDigit = true := List.all_eq_true.2 hd.2
  unfold Script.readNumber
  simp only [h.numberFront hd, List.drop_left, hall, if_true]
  -- nothing that belongs to a word stands behind the digits
  refine (if_neg ?_).trans rfl
  cases behind with
  | nil => exact Bool.false_ne_true
  | cons c more => simp [(h c more rfl).1]

end Parted

end LandPattern.Script
