import LandPattern.Builtin.Call
import LandPattern.Value.Operator
import Mathlib.Algebra.Order.Group.Unbundled.Int

/-!
# Exact integers

Sums, differences, products, negations and absolute values of script integers are the exact ones
where these are script integers, and are refused as overflows where they are not. Remainders are
those of a division that is rounded down. All of them would fit; the one whose quotient does not is
refused all the same.
-/

namespace LandPattern

open Number (InRange minInt)

/-- What a division by `m` that is rounded down leaves of `n`: it differs from `n` by a multiple of
`m`, is smaller in size than `m`, and has the sign of `m` unless it is zero. -/
structure Number.FlooredRemainder (n m r : Int) : Prop where
  multiple : m ∣ n - r
  smaller : r.natAbs < m.natAbs
  nonneg : 0 < m → 0 ≤ r
  nonpos : m < 0 → r ≤ 0

namespace Number.FlooredRemainder

variable {n m r : Int}

/-- By a negative divisor the rest is the opposite of that of the opposite numbers. -/
theorem fmod (n : Int) (hm : m ≠ 0) : FlooredRemainder n m (n.fmod m) := by
  have hmultiple : m ∣ n - n.fmod m := Int.dvd_self_sub_fmod
  rcases Int.lt_or_gt_of_ne hm with hneg | hpos
  · have hopposite : n.fmod m = -(-n).fmod (-m) := by rw [Int.neg_fmod_neg, Int.neg_neg]
    have hlow := Int.fmod_nonneg_of_pos (-n) (b := -m) (by omega)
    have hhigh := Int.fmod_lt_of_pos (-n) (b := -m) (by omega)
    exact ⟨hmultiple, by omega, by omega, by omega⟩
  · have hlow := Int.fmod_nonneg_of_pos n hpos
    have hhigh := Int.fmod_lt_of_pos n hpos
    exact ⟨hmultiple, by omega, by omega, by omega⟩

/-- Two rests differ by a multiple of the divisor that is smaller in size than the divisor. -/
theorem unique {other : Int} (h : FlooredRemainder n m r) (ho : FlooredRemainder n m other) :
    other = r := by
  have hdifference : n - r - (n - other) = other - r := by omega
  have hmultiple : m ∣ other - r := hdifference ▸ Int.dvd_sub h.multiple ho.multiple
  have hsmaller : (other - r).natAbs < m.natAbs := by
    have hr := h.smaller
    have hother := ho.smaller
    rcases Int.lt_or_gt_of_ne (show m ≠ 0 by omega) with hneg | hpos
    · have hr' := h.nonpos hneg
      have hother' := ho.nonpos hneg
      omega
    · have hr' := h.nonneg hpos
      have hother' := ho.nonneg hpos
      omega
  have hzero : other - r = 0 := Int.eq_zero_of_dvd_of_natAbs_lt_natAbs hmultiple hsmaller
  omega

/-- The rest lies between zero and the divisor. -/
theorem inRange (h : FlooredRemainder n m r) (hm : InRange m) : InRange r := by
  have hsmaller := h.smaller
  have hnonneg := h.nonneg
  have hnonpos := h.nonpos
  simp only [InRange, Number.minInt, Number.maxInt] at hm ⊢
  omega

end Number.FlooredRemainder

namespace Metered

/-- The act is refused with these words, whatever it is charged to, and charges nothing. -/
def RefusedAs (act : Metered Value) (words : String) : Prop :=
  ∃ fault, fault.message = words ∧
    ∀ limits meter, act.outcome limits meter = (.error fault, meter)

/-- The act gives this integer when it is a script integer, and is refused with these words when it
is none. It charges nothing. -/
structure GivesExact (act : Metered Value) (exact : Int) (words : String) : Prop where
  fits : InRange exact → ∀ limits meter, act.outcome limits meter = (.ok (.int exact), meter)
  overflows : ¬ InRange exact → act.RefusedAs words

theorem refusedAs_refusal (why : Refusal) :
    RefusedAs (Act.ofExcept (.error why)) why.message :=
  ⟨Fault.refusal why, rfl, fun _ _ => rfl⟩

/-- What every operation on integers does with its result. -/
theorem givesExact_inRange? (exact : Int) (why : Refusal) :
    GivesExact (Act.ofExcept (match Number.inRange? exact with
      | some n => .ok (.int n)
      | none => .error why)) exact why.message := by
  constructor
  · intro hrange limits meter
    rw [Number.inRange?_eq_some_iff.2 ⟨hrange, rfl⟩]
    rfl
  · intro hrange
    rw [Number.inRange?_eq_none_iff.2 hrange]
    exact refusedAs_refusal why

end Metered

namespace Value

variable {n m : Int}

theorem givesExact_absolute (n : Int) :
    (Builtin.abs.call ⟨[.int n], []⟩).GivesExact |n| "integer overflow in `abs`" := by
  rw [Int.abs_eq_natAbs]
  exact Metered.givesExact_inRange? n.natAbs .absoluteOverflow

/-- The remainder is the one of a division that is rounded down, unless the quotient does not fit.
-/
theorem combine_mod (hm : m ≠ 0) (hquotient : ¬ (n = minInt ∧ m = -1)) :
    (int n).combine .mod (int m) = pure (int (n.fmod m)) := by
  simp only [combine, modulo, if_neg hm, if_neg hquotient]
  rfl

/-- Integer results are exact or refused: sums, differences, products, negations and absolute values
are given exactly when they are script integers and refused as overflows when they are none, and
remainders are those of a division that is rounded down. The remainder of the least integer by minus
one is zero, but is refused as an overflow, and by zero there is none. -/
theorem integers_exact (hm : InRange m) :
    ((int n).combine .add (int m)).GivesExact (n + m) "integer overflow in `+`" ∧
    ((int n).combine .sub (int m)).GivesExact (n - m) "integer overflow in `-`" ∧
    ((int n).combine .mul (int m)).GivesExact (n * m) "integer overflow in `*`" ∧
    Metered.GivesExact (Act.ofExcept (int n).negate) (-n) "integer overflow in unary `-`" ∧
    (Builtin.abs.call ⟨[int n], []⟩).GivesExact |n| "integer overflow in `abs`" ∧
    (m ≠ 0 → ¬ (n = minInt ∧ m = -1) → ∃ r, Number.FlooredRemainder n m r ∧ InRange r ∧
      (∀ other, Number.FlooredRemainder n m other → other = r) ∧
      ((int n).combine .mod (int m)).GivesExact r "integer overflow in `%`") ∧
    (n = minInt → m = -1 →
      ((int n).combine .mod (int m)).RefusedAs "integer overflow in `%`") ∧
    (m = 0 → ((int n).combine .mod (int m)).RefusedAs "division by zero in `%`") := by
  refine ⟨Metered.givesExact_inRange? (n + m) (.overflow .add),
    Metered.givesExact_inRange? (n - m) (.overflow .sub),
    Metered.givesExact_inRange? (n * m) (.overflow .mul),
    Metered.givesExact_inRange? (-n) .negationOverflow, givesExact_absolute n, ?_, ?_, ?_⟩
  · intro hzero hquotient
    have hrest := Number.FlooredRemainder.fmod n hzero
    have hrange := hrest.inRange hm
    refine ⟨n.fmod m, hrest, hrange, fun other hother => hrest.unique hother, ?_⟩
    rw [combine_mod hzero hquotient]
    exact ⟨fun _ _ _ => rfl, fun hout => absurd hrange hout⟩
  · rintro rfl rfl
    exact Metered.refusedAs_refusal (.overflow .mod)
  · rintro rfl
    exact Metered.refusedAs_refusal (.divisionByZero .mod)

/-- Ten less than the least integer is refused, and the remainder by ten is that of a division that
is rounded down. -/
theorem integers_exact_least :
    InRange 10 ∧ ((int minInt).combine .sub (int 10)).RefusedAs "integer overflow in `-`" ∧
      ((int minInt).combine .mod (int 10)).GivesExact 2 "integer overflow in `%`" := by
  have hten : InRange 10 := by decide
  obtain ⟨-, hsub, -, -, -, hmod, -, -⟩ := integers_exact (n := minInt) hten
  obtain ⟨r, -, -, hunique, hexact⟩ := hmod (by decide) (by decide)
  have htwo : Number.FlooredRemainder minInt 10 2 := ⟨by decide, by decide, by decide, by decide⟩
  rw [← hunique 2 htwo] at hexact
  exact ⟨hten, hsub.overflows (by decide), hexact⟩

/-- A remainder that is a script integer may be refused. -/
theorem remainder_refused :
    ¬ ∀ n m r : Int, InRange n → InRange m → m ≠ 0 → Number.FlooredRemainder n m r → InRange r →
      ((int n).combine .mod (int m)).GivesExact r "integer overflow in `%`" := by
  intro h
  have hzero : Number.FlooredRemainder minInt (-1) 0 :=
    ⟨by decide, by decide, by decide, by decide⟩
  have hexact := h minInt (-1) 0 (by decide) (by decide) (by decide) hzero (by decide)
  have hgiven := hexact.fits (by decide) Limits.standard Meter.zero
  have hrefused : ((int minInt).combine .mod (int (-1))).outcome Limits.standard Meter.zero =
    (.error (Fault.refusal (.overflow .mod)), Meter.zero) := rfl
  rw [hrefused] at hgiven
  cases hgiven

end Value

end LandPattern
