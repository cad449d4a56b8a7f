import LandPattern.Proofs.Number.Nearest
import Mathlib

/-!
# Operations on unpacked doubles

A double is unpacked into its digits and their place for every operation, and the digits of the
result are rounded before they are packed again. Until then there is no largest double, and every
operation gives the double nearest to the exact result.
-/

namespace LandPattern.Number

open Float.Model (Format UnpackedFloat totalExponent)
open Float.Model.UnpackedFloat

/-! ## Digits that are dropped -/

/-- What the kept digits and the two bits for the rest say of an exact number. -/
def Shows (em : ExtendedMantissa) (x : ℚ) : Prop :=
  if em.roundBit then
    if em.stickyBit then (em.mantissa : ℚ) + 1 / 2 < x ∧ x < em.mantissa + 1
    else x = em.mantissa + 1 / 2
  else
    if em.stickyBit then (em.mantissa : ℚ) < x ∧ x < em.mantissa + 1 / 2
    else x = em.mantissa

namespace Shows

variable {em : ExtendedMantissa} {x : ℚ}

theorem floor (h : Shows em x) : ⌊x⌋ = (em.mantissa : ℤ) := by
  obtain ⟨m, round, sticky⟩ := em
  apply Int.floor_eq_iff.2
  cases round <;> cases sticky <;> simp only [Shows, if_true, if_false, Bool.false_eq_true] at h
  all_goals push_cast
  all_goals constructor <;> linarith

/-- Rounding by the two bits is rounding of the exact number. -/
theorem roundedMantissa (h : Shows em x) : (em.roundedMantissa : ℤ) = nearestInt x := by
  have hfloor := h.floor
  have hfract : Int.fract x = x - em.mantissa := by
    rw [Int.fract, hfloor]
    push_cast
    rfl
  unfold nearestInt
  rw [hfract, hfloor]
  obtain ⟨m, round, sticky⟩ := em
  cases round <;> cases sticky <;> simp only [Shows, if_true, if_false, Bool.false_eq_true] at h
  all_goals simp only [ExtendedMantissa.roundedMantissa, ExtendedMantissa.accuracy,
    Accuracy.roundToNearestEven]
  all_goals split_ifs <;> first | omega | (exfalso; linarith)

theorem shiftRightOne (h : Shows em x) : Shows em.shiftRightOne (x / 2) := by
  obtain ⟨m, round, sticky⟩ := em
  have hparts : ((m % 2 : ℕ) : ℚ) + 2 * ((m / 2 : ℕ) : ℚ) = m := by
    exact_mod_cast Nat.mod_add_div m 2
  have hparity : m % 2 = 0 ∨ m % 2 = 1 := by omega
  cases round <;> cases sticky <;> rcases hparity with hodd | hodd <;>
    simp only [Shows, ExtendedMantissa.shiftRightOne, hodd, if_true, if_false,
      Bool.false_eq_true] at h hparts ⊢
  all_goals norm_num at h hparts ⊢
  all_goals first | linarith | (constructor <;> linarith)

/-- Dropping digits divides the number by a power of two. -/
theorem shiftRight (h : Shows em x) (n : ℕ) : Shows (em >>> n) (x / 2 ^ n) := by
  change Shows (n.repeat ExtendedMantissa.shiftRightOne em) _
  induction n with
  | zero => simpa [Nat.repeat] using h
  | succ n ih =>
    rw [Nat.repeat, pow_succ, ← div_div]
    exact ih.shiftRightOne

theorem exact (m : ℕ) : Shows (.ofMantissaAndAccuracy m .exact) m := by
  simp [Shows, ExtendedMantissa.ofMantissaAndAccuracy]

/-- A quotient of naturals is shown by its integer part and by twice the remainder. -/
theorem quotient (n : ℕ) {d : ℕ} (hd : 0 < d) :
    Shows (.ofMantissaAndAccuracy (n / d) (accuracyOfFraction (n % d) d)) (n / d) := by
  have hpos : (0 : ℚ) < d := by exact_mod_cast hd
  have hparts : (n : ℚ) / d = ((n / d : ℕ) : ℚ) + ((n % d : ℕ) : ℚ) / d := by
    have hnat : ((n % d : ℕ) : ℚ) + d * ((n / d : ℕ) : ℚ) = n := by
      exact_mod_cast Nat.mod_add_div n d
    field_simp
    linarith
  have hless : ((n % d : ℕ) : ℚ) < d := by exact_mod_cast Nat.mod_lt n hd
  rw [hparts]
  unfold accuracyOfFraction
  split_ifs with hzero
  · simp [Shows, ExtendedMantissa.ofMantissaAndAccuracy, hzero]
  · have hrest : (0 : ℚ) < ((n % d : ℕ) : ℚ) := by exact_mod_cast Nat.pos_of_ne_zero hzero
    have hfraction : 0 < ((n % d : ℕ) : ℚ) / d ∧ ((n % d : ℕ) : ℚ) / d < 1 :=
      ⟨div_pos hrest hpos, (div_lt_one hpos).2 hless⟩
    rcases lt_trichotomy (2 * (n % d)) d with hhalf | hhalf | hhalf
    · have hbelow : ((n % d : ℕ) : ℚ) / d < 1 / 2 := by
        rw [div_lt_div_iff₀ hpos two_pos]
        have hcast : (2 : ℚ) * ((n % d : ℕ) : ℚ) < d := by exact_mod_cast hhalf
        linarith
      rw [Nat.compare_eq_lt.2 hhalf]
      simp only [Shows, ExtendedMantissa.ofMantissaAndAccuracy, if_true, if_false,
        Bool.false_eq_true]
      exact ⟨by linarith, by linarith⟩
    · have hequal : ((n % d : ℕ) : ℚ) / d = 1 / 2 := by
        rw [div_eq_div_iff hpos.ne' two_pos.ne']
        have hcast : (2 : ℚ) * ((n % d : ℕ) : ℚ) = d := by exact_mod_cast hhalf
        linarith
      rw [Nat.compare_eq_eq.2 hhalf, hequal]
      simp [Shows, ExtendedMantissa.ofMantissaAndAccuracy]
    · have habove : 1 / 2 < ((n % d : ℕ) : ℚ) / d := by
        rw [div_lt_div_iff₀ two_pos hpos]
        have hcast : (d : ℚ) < 2 * ((n % d : ℕ) : ℚ) := by exact_mod_cast hhalf
        linarith
      rw [Nat.compare_eq_gt.2 hhalf]
      simp only [Shows, ExtendedMantissa.ofMantissaAndAccuracy, if_true]
      exact ⟨by linarith, by linarith⟩

end Shows

/-! ## Unpacked doubles -/

/-- A size with a sign. -/
def signed : Sign → ℚ → ℚ
  | .negative, x => -x
  | .positive, x => x

theorem rounded_signed (s : Sign) (x : ℚ) : rounded (signed s x) = signed s (rounded x) := by
  cases s with
  | negative => exact rounded_neg x
  | positive => rfl

theorem abs_signed (s : Sign) (x : ℚ) : |signed s x| = |x| := by
  cases s with
  | negative => exact abs_neg x
  | positive => rfl

/-- The number that an unpacked double denotes; zero for what denotes none. -/
def unpackedValue : UnpackedFloat → ℚ
  | .finite s m e _ => signed s (m * 2 ^ e)
  | _ => 0

/-- A finite number with the digits of a double, whose exponent may still be too large. -/
def Regular : UnpackedFloat → Prop
  | .finite _ m e _ => m < 2 ^ 53 ∧ -1074 ≤ e ∧ (2 ^ 52 ≤ m ∨ e = -1074)
  | .zero _ => True
  | _ => False

/-- The unpacked double is the nearest one to a number, as if there was no largest one. -/
structure Nears (u : UnpackedFloat) (x : ℚ) : Prop where
  regular : Regular u
  value : unpackedValue u = rounded x

/-- The exponent to which digits are shifted leaves fifty-three of them, or is the lowest. -/
theorem targetExponent_totalExponent (m : ℕ) (e : ℤ) :
    Format.binary64.targetExponent (totalExponent m e) =
      max ((m.log2 : ℤ) + e - 52) (-1074) := by
  simp only [Format.targetExponent, totalExponent, Format.mantissaBits, Format.minExponent]
  norm_num
  omega

/-- The exponent to which digits are shifted is the last place of the exact number. -/
theorem targetExponent_eq {m : ℕ} {e : ℤ} {x : ℚ} (hx : ⌊x⌋ = (m : ℤ))
    (he : e ≤ Format.binary64.targetExponent (totalExponent m e)) :
    Format.binary64.targetExponent (totalExponent m e) = lastPlace (x * 2 ^ e) := by
  obtain ⟨hlow, hhigh⟩ := Int.floor_eq_iff.1 hx
  rw [targetExponent_totalExponent] at he ⊢
  by_cases hzero : m = 0
  · subst hzero
    have hsmall : x * 2 ^ e < 2 ^ (-1022 : ℤ) := by
      have hone : x < 1 := by simpa using hhigh
      calc x * 2 ^ e < 1 * 2 ^ e := mul_lt_mul_of_pos_right hone (two_zpow_pos e)
        _ = 2 ^ e := one_mul _
        _ ≤ 2 ^ (-1022 : ℤ) := two_zpow_le (by simp at he; omega)
    rw [lastPlace_of_lt hsmall]
    simp at he ⊢
    omega
  · have hbits : (2 : ℚ) ^ (m.log2 : ℤ) ≤ m := by exact_mod_cast Nat.log2_self_le hzero
    have hnext : (m : ℚ) + 1 ≤ 2 ^ ((m.log2 : ℤ) + 1) := by
      have hlt : m + 1 ≤ 2 ^ (m.log2 + 1) := Nat.lt_log2_self
      exact_mod_cast hlt
    have hle : 2 ^ ((m.log2 : ℤ) + e) ≤ x * 2 ^ e := by
      rw [two_zpow_add]
      refine mul_le_mul_of_nonneg_right ?_ (two_zpow_pos e).le
      push_cast at hlow
      linarith
    have hlt : x * 2 ^ e < 2 ^ ((m.log2 : ℤ) + e + 1) := by
      rw [show (m.log2 : ℤ) + e + 1 = m.log2 + 1 + e by ring, two_zpow_add _ e]
      refine mul_lt_mul_of_pos_right ?_ (two_zpow_pos e)
      push_cast at hhigh
      linarith
    have hpos : 0 < x * 2 ^ e := lt_of_lt_of_le (two_zpow_pos _) hle
    have hlog : Int.log 2 (x * 2 ^ e) = m.log2 + e := by
      have hge := (Int.zpow_le_iff_le_log (b := 2) (by norm_num) hpos).1 (by exact_mod_cast hle)
      have hgt := (Int.lt_zpow_iff_log_lt (b := 2) (by norm_num) hpos).1 (by exact_mod_cast hlt)
      omega
    unfold lastPlace
    split_ifs with hsmall
    · have hbelow : (m.log2 : ℤ) + e < -1022 :=
        (zpow_lt_zpow_iff_right₀ (by norm_num : (1 : ℚ) < 2)).1 (lt_of_le_of_lt hle hsmall)
      omega
    · have hover := le_log_of_le (not_lt.1 hsmall)
      omega

/-- Digits few enough are not shifted again after rounding. -/
theorem shift_of_lt {m : ℕ} {e : ℤ} (hm : m < 2 ^ 53) (he : -1074 ≤ e) :
    shiftToTargetExponent Format.binary64 m e .exact = (⟨m, false, false⟩, e) := by
  have hlog : m.log2 ≤ 52 := by
    by_cases hzero : m = 0
    · simp [hzero]
    · have hlt := (Nat.log2_lt hzero).2 hm
      omega
  have htarget : Format.binary64.targetExponent (totalExponent m e) ≤ e := by
    rw [targetExponent_totalExponent]
    omega
  have hshift : (Format.binary64.targetExponent (totalExponent m e) - e).toNat = 0 := by omega
  simp [shiftToTargetExponent, shiftToExponent, hshift, HShiftRight.hShiftRight, Nat.repeat,
    ExtendedMantissa.ofMantissaAndAccuracy]

/-- One digit too many after rounding is a zero. -/
theorem shift_of_eq {e : ℤ} (he : -1074 ≤ e) :
    shiftToTargetExponent Format.binary64 (2 ^ 53) e .exact = (⟨2 ^ 52, false, false⟩, e + 1) := by
  have htarget : Format.binary64.targetExponent (totalExponent (2 ^ 53) e) = e + 1 := by
    rw [targetExponent_totalExponent, Nat.log2_two_pow]
    omega
  unfold shiftToTargetExponent
  rw [htarget]
  simp [shiftToExponent, HShiftRight.hShiftRight, Nat.repeat,
    ExtendedMantissa.ofMantissaAndAccuracy, ExtendedMantissa.shiftRightOne]

/-- The digits that are kept at first, in units of the last place. -/
theorem shift_keeps {m : ℕ} {e : ℤ} {accuracy : Accuracy} {x : ℚ}
    (hx : Shows (.ofMantissaAndAccuracy m accuracy) x) (hm : ⌊x⌋ = (m : ℤ))
    (he : e ≤ Format.binary64.targetExponent (totalExponent m e)) :
    ∃ em : ExtendedMantissa,
      shiftToTargetExponent Format.binary64 m e accuracy = (em, lastPlace (x * 2 ^ e)) ∧
      (em.roundedMantissa : ℤ) = nearestInt (x * 2 ^ e / 2 ^ lastPlace (x * 2 ^ e)) := by
  have htarget := targetExponent_eq hm he
  generalize lastPlace (x * 2 ^ e) = place at htarget
  rw [htarget] at he
  obtain ⟨k, hk⟩ := Int.eq_ofNat_of_zero_le (sub_nonneg.2 he)
  have hunits : x / 2 ^ k = x * 2 ^ e / 2 ^ place := by
    have hpow : (2 : ℚ) ^ place = 2 ^ k * 2 ^ e := by
      rw [← zpow_natCast, ← two_zpow_add, show (k : ℤ) + e = place by omega]
    rw [hpow, mul_div_mul_right _ _ (two_zpow_pos e).ne']
  have hkept := (hx.shiftRight k).roundedMantissa
  rw [hunits] at hkept
  refine ⟨_, ?_, hkept⟩
  unfold shiftToTargetExponent
  rw [htarget]
  unfold shiftToExponent
  dsimp only
  rw [show (place - e).toNat = k by omega, show e + (k : ℤ) = place by omega]

/-- Rounding digits that show an exact number gives the nearest double. -/
theorem nears_roundWithAccuracy (s : Sign) {m : ℕ} {e : ℤ} {accuracy : Accuracy} {x : ℚ}
    (hx : Shows (.ofMantissaAndAccuracy m accuracy) x) (hm : ⌊x⌋ = (m : ℤ))
    (he : e ≤ Format.binary64.targetExponent (totalExponent m e)) :
    Nears (roundWithAccuracy Format.binary64 s m e accuracy) (signed s (x * 2 ^ e)) := by
  obtain ⟨em, hshift, hkept⟩ := shift_keeps hx hm he
  have hlow := le_lastPlace (x * 2 ^ e)
  have hmost : em.roundedMantissa ≤ 2 ^ 53 := by
    have hle := nearestInt_le_digits (x * 2 ^ e)
    rw [← hkept] at hle
    exact_mod_cast hle
  have hleast : 2 ^ 52 ≤ em.roundedMantissa ∨ lastPlace (x * 2 ^ e) = -1074 := by
    rcases hlow.lt_or_eq with hlt | heq
    · have hle := digits_le_nearestInt hlt
      rw [← hkept] at hle
      exact .inl (by exact_mod_cast hle)
    · exact .inr heq.symm
  have hvalue : rounded (signed s (x * 2 ^ e)) =
      signed s (em.roundedMantissa * 2 ^ lastPlace (x * 2 ^ e)) := by
    have hpos : 0 ≤ x := Int.floor_nonneg.1 (by omega)
    have hcast : (em.roundedMantissa : ℚ) =
        nearestInt (x * 2 ^ e / 2 ^ lastPlace (x * 2 ^ e)) := by exact_mod_cast hkept
    rw [rounded_signed, rounded_of_nonneg (mul_nonneg hpos (two_zpow_pos e).le), roundedSize, hcast]
  generalize lastPlace (x * 2 ^ e) = place at hshift hlow hleast hvalue
  unfold roundWithAccuracy
  rw [hshift]
  dsimp only
  rcases hmost.lt_or_eq with hlt | heq
  · rw [shift_of_lt hlt hlow]
    dsimp only
    split_ifs with hzero
    · refine ⟨trivial, ?_⟩
      rw [hvalue, hzero]
      cases s <;> simp [unpackedValue, signed]
    · exact ⟨⟨hlt, hlow, hleast⟩, hvalue.symm⟩
  · have hcarry : ((2 ^ 52 : ℕ) : ℚ) * 2 ^ (place + 1) = ((2 ^ 53 : ℕ) : ℚ) * 2 ^ place := by
      rw [two_zpow_add]
      push_cast
      ring
    rw [heq, shift_of_eq hlow]
    refine ⟨⟨by norm_num, by omega, .inl (le_refl _)⟩, ?_⟩
    rw [hvalue, heq, ← hcarry]
    rfl

/-! ## Operations -/

theorem Regular.rounded {u : UnpackedFloat} (h : Regular u) :
    rounded (unpackedValue u) = unpackedValue u := by
  cases u with
  | finite s m e hm =>
    obtain ⟨hdigits, hlow, -⟩ := h
    have hpos : (0 : ℚ) ≤ m * 2 ^ e := mul_nonneg (Nat.cast_nonneg m) (two_zpow_pos e).le
    rw [unpackedValue, rounded_signed, rounded_of_nonneg hpos, roundedSize_of_digits hdigits hlow]
  | _ => simp [unpackedValue, Number.rounded]

/-- What is regular is nearest to itself. -/
theorem Regular.nears {u : UnpackedFloat} (h : Regular u) : Nears u (unpackedValue u) :=
  ⟨h, h.rounded.symm⟩

theorem nears_zero (s : Sign) : Nears (.zero s) 0 := by
  simpa [unpackedValue] using Regular.nears (u := .zero s) trivial

theorem Regular.neg {u : UnpackedFloat} (h : Regular u) : Regular u.neg := by
  cases u <;> exact h

@[simp] theorem unpackedValue_neg (u : UnpackedFloat) : unpackedValue u.neg = -unpackedValue u := by
  cases u with
  | finite s m e hm => cases s <;> simp [UnpackedFloat.neg, unpackedValue, signed]
  | _ => simp [UnpackedFloat.neg, unpackedValue]

theorem log2_shiftLeft {m : ℕ} (hm : m ≠ 0) (k : ℕ) : (m <<< k).log2 = m.log2 + k := by
  have hlow := Nat.log2_self_le hm
  have hhigh : m < 2 ^ (m.log2 + 1) := Nat.lt_log2_self
  have hpos := Nat.two_pow_pos k
  rw [Nat.shiftLeft_eq]
  refine (Nat.log2_eq_iff (Nat.mul_pos (Nat.pos_of_ne_zero hm) hpos).ne').2 ⟨?_, ?_⟩
  · rw [pow_add]
    exact Nat.mul_le_mul_right _ hlow
  · rw [show m.log2 + k + 1 = m.log2 + 1 + k by ring, pow_add]
    exact Nat.mul_lt_mul_of_pos_right hhigh hpos

/-- Zeros at the end are made up for by the exponent. -/
theorem shiftLeft_mul_zpow (m k : ℕ) {e target : ℤ} (h : (k : ℤ) + target = e) :
    ((m <<< k : ℕ) : ℚ) * 2 ^ target = m * 2 ^ e := by
  rw [Nat.shiftLeft_eq, Nat.cast_mul, Nat.cast_pow, Nat.cast_ofNat, ← zpow_natCast, mul_assoc,
    ← two_zpow_add, h]

/-- Digits may be added at the end before rounding. -/
theorem nears_round (s : Sign) {m : ℕ} (hm : m ≠ 0) (e : ℤ) :
    Nears (UnpackedFloat.round Format.binary64 s m e) (signed s (m * 2 ^ e)) := by
  generalize htarget : Format.binary64.targetExponent (totalExponent m e) = target
  generalize hk : (e - target).toNat = k
  have hlog := log2_shiftLeft hm k
  have htotal : totalExponent (m <<< k) (e - k) = totalExponent m e := by
    simp only [totalExponent, hlog]
    push_cast
    ring
  have hroom : e - k ≤ Format.binary64.targetExponent (totalExponent (m <<< k) (e - k)) := by
    rw [htotal, htarget]
    omega
  have hnears := nears_roundWithAccuracy s (Shows.exact (m <<< k)) (Int.floor_natCast _) hroom
  rw [shiftLeft_mul_zpow m k (show (k : ℤ) + (e - k) = e by ring)] at hnears
  unfold UnpackedFloat.round decreaseExponent
  dsimp only
  rw [htarget, hk]
  exact hnears

theorem nears_normalize (m e : ℤ) (zero : Sign) :
    Nears (UnpackedFloat.normalize Format.binary64 m e zero) (m * 2 ^ e) := by
  unfold UnpackedFloat.normalize
  rcases lt_trichotomy m 0 with hm | rfl | hm
  · have hnears := nears_round .negative (m := (-m).toNat) (by omega) e
    have hcast : ((-m).toNat : ℚ) = -m := by exact_mod_cast Int.toNat_of_nonneg (by omega : 0 ≤ -m)
    rw [hcast] at hnears
    rw [Int.compare_eq_lt.2 hm]
    simpa [signed] using hnears
  · simpa using nears_zero zero
  · have hnears := nears_round .positive (m := m.toNat) (by omega) e
    have hcast : (m.toNat : ℚ) = m := by exact_mod_cast Int.toNat_of_nonneg hm.le
    rw [hcast] at hnears
    rw [Int.compare_eq_gt.2 hm]
    exact hnears

/-- A double in units of a smaller exponent. -/
theorem signed_decreaseExponent (s : Sign) (m : ℕ) {e target : ℤ} (h : target ≤ e) :
    ((s.apply (decreaseExponent m e target).1 : ℤ) : ℚ) * 2 ^ target = signed s (m * 2 ^ e) := by
  have hsize := shiftLeft_mul_zpow m (e - target).toNat (show _ + target = e by omega)
  unfold decreaseExponent
  cases s with
  | negative =>
    simp only [Sign.apply, signed, Int.cast_neg, Int.cast_natCast, neg_mul]
    rw [hsize]
  | positive =>
    simp only [Sign.apply, signed, Int.cast_natCast]
    exact hsize

theorem nears_add {a b : UnpackedFloat} (ha : Regular a) (hb : Regular b) :
    Nears (UnpackedFloat.add Format.binary64 a b) (unpackedValue a + unpackedValue b) := by
  cases a with
  | notANumber => exact ha.elim
  | infinity s => exact ha.elim
  | zero s =>
    cases b with
    | notANumber => exact hb.elim
    | infinity t => exact hb.elim
    | zero t =>
      have hsum : unpackedValue (.zero s) + unpackedValue (.zero t) = 0 := add_zero 0
      rw [hsum]
      simp only [UnpackedFloat.add]
      split_ifs
      · exact nears_zero s
      · exact nears_zero .positive
    | finite t n f hn => simpa [UnpackedFloat.add, unpackedValue] using hb.nears
  | finite s m e hm =>
    cases b with
    | notANumber => exact hb.elim
    | infinity t => exact hb.elim
    | zero t => simpa [UnpackedFloat.add, unpackedValue] using ha.nears
    | finite t n f hn =>
      have hnears := nears_normalize (s.apply (decreaseExponent m e (min e f)).1 +
        t.apply (decreaseExponent n f (min e f)).1) (min e f) .positive
      have hsum := signed_decreaseExponent s m (min_le_left e f)
      have hother := signed_decreaseExponent t n (min_le_right e f)
      rw [Int.cast_add, add_mul, hsum, hother] at hnears
      exact hnears

/-- Subtracting is adding with the other sign. -/
theorem unpacked_sub (a b : UnpackedFloat) :
    UnpackedFloat.sub Format.binary64 a b = UnpackedFloat.add Format.binary64 a b.neg := by
  have happly : ∀ (s : Sign) (n : ℤ), (-s).apply n = -s.apply n := fun s n => by
    cases s with
    | negative => exact (neg_neg n).symm
    | positive => rfl
  cases a <;> cases b <;> simp [UnpackedFloat.sub, UnpackedFloat.add, UnpackedFloat.neg, happly,
    Int.sub_eq_add_neg]

theorem nears_sub {a b : UnpackedFloat} (ha : Regular a) (hb : Regular b) :
    Nears (UnpackedFloat.sub Format.binary64 a b) (unpackedValue a - unpackedValue b) := by
  have hnears := nears_add ha hb.neg
  rw [unpackedValue_neg, ← sub_eq_add_neg] at hnears
  rw [unpacked_sub]
  exact hnears

theorem signed_mul (s t : Sign) (x y : ℚ) : signed s x * signed t y = signed (s * t) (x * y) := by
  cases s <;> cases t <;> simp [signed]

theorem nears_mul {a b : UnpackedFloat} (ha : Regular a) (hb : Regular b) :
    Nears (UnpackedFloat.mul Format.binary64 a b) (unpackedValue a * unpackedValue b) := by
  cases a with
  | notANumber => exact ha.elim
  | infinity s => exact ha.elim
  | zero s =>
    cases b with
    | notANumber => exact hb.elim
    | infinity t => exact hb.elim
    | zero t => simpa [UnpackedFloat.mul, unpackedValue] using nears_zero _
    | finite t n f hn => simpa [UnpackedFloat.mul, unpackedValue] using nears_zero _
  | finite s m e hm =>
    cases b with
    | notANumber => exact hb.elim
    | infinity t => exact hb.elim
    | zero t => simpa [UnpackedFloat.mul, unpackedValue] using nears_zero _
    | finite t n f hn =>
      obtain ⟨-, -, hfirst⟩ := ha
      obtain ⟨-, -, hsecond⟩ := hb
      have hne : m * n ≠ 0 := (Nat.mul_pos hm hn).ne'
      have hroom : e + f ≤ Format.binary64.targetExponent (totalExponent (m * n) (e + f)) := by
        have hlog : 52 ≤ (m * n).log2 ∨ e + f ≤ -1074 := by
          rcases hfirst with hm52 | he
          · exact .inl ((Nat.le_log2 hne).2 (Nat.le_trans hm52 (Nat.le_mul_of_pos_right m hn)))
          · rcases hsecond with hn52 | hf
            · exact .inl ((Nat.le_log2 hne).2 (Nat.le_trans hn52 (Nat.le_mul_of_pos_left n hm)))
            · exact .inr (by omega)
        simp only [Format.targetExponent, totalExponent, Format.mantissaBits, Format.minExponent]
        norm_num
        omega
      have hnears := nears_roundWithAccuracy (s * t) (Shows.exact (m * n)) (Int.floor_natCast _)
        hroom
      have hvalue : unpackedValue (.finite s m e hm) * unpackedValue (.finite t n f hn) =
          signed (s * t) (((m * n : ℕ) : ℚ) * 2 ^ (e + f)) := by
        rw [unpackedValue, unpackedValue, signed_mul, two_zpow_add]
        push_cast
        congr 1
        ring
      rw [hvalue]
      exact hnears

theorem signed_div (s t : Sign) (x y : ℚ) : signed s x / signed t y = signed (s / t) (x / y) := by
  cases s <;> cases t <;> simp [signed, neg_div, div_neg] <;> rfl

/-- A quotient has about as many digits more than the divisor as the dividend has. -/
theorem log2_div (m : ℕ) {n : ℕ} (hn : n ≠ 0) : m.log2 ≤ (m / n).log2 + n.log2 + 1 := by
  by_cases hless : m < n
  · by_cases hzero : m = 0
    · simp [hzero]
    · have hlog : m.log2 ≤ n.log2 :=
        (Nat.le_log2 hn).2 (Nat.le_trans (Nat.log2_self_le hzero) hless.le)
      omega
  · have hpos : 0 < m / n := Nat.div_pos (Nat.le_of_not_lt hless) (Nat.pos_of_ne_zero hn)
    have hquotient : m / n + 1 ≤ 2 ^ ((m / n).log2 + 1) := Nat.lt_log2_self
    have hdivisor : n ≤ 2 ^ (n.log2 + 1) := (Nat.lt_log2_self (n := n)).le
    have hproduct : m < (m / n + 1) * n := by
      have hrest := Nat.mod_lt m (Nat.pos_of_ne_zero hn)
      have hparts := Nat.mod_add_div m n
      nlinarith
    have hbound : m < 2 ^ ((m / n).log2 + n.log2 + 2) :=
      calc m < (m / n + 1) * n := hproduct
        _ ≤ 2 ^ ((m / n).log2 + 1) * 2 ^ (n.log2 + 1) := Nat.mul_le_mul hquotient hdivisor
        _ = 2 ^ ((m / n).log2 + n.log2 + 2) := by rw [← pow_add]; congr 1; ring
    have hzero : m ≠ 0 := fun h => by simp [h] at hpos
    have hlog := (Nat.log2_lt hzero).2 hbound
    omega

/-- Division adds so many digits to the dividend that none of the quotient's is missing. -/
theorem nears_divCore (s : Sign) {m n : ℕ} (hm : m ≠ 0) (hn : 0 < n) (e f : ℤ) :
    let quotient := divCore Format.binary64 m e n f
    Nears (roundWithAccuracy Format.binary64 s quotient.1 quotient.2.1 quotient.2.2)
      (signed s (m * 2 ^ e / (n * 2 ^ f))) := by
  generalize htarget : min (e - f)
    (Format.binary64.targetExponent (totalExponent m e - totalExponent n f)) = target
  obtain ⟨k, hk⟩ := Int.eq_ofNat_of_zero_le (sub_nonneg.2 (htarget ▸ min_le_left _ _ : target ≤ e - f))
  have hcore : divCore Format.binary64 m e n f =
      ((m <<< k) / n, target, accuracyOfFraction ((m <<< k) % n) n) := by
    unfold divCore
    dsimp only
    rw [htarget, show (e - f - target).toNat = k by omega]
  have hfloor : ⌊((m <<< k : ℕ) : ℚ) / n⌋ = ((m <<< k / n : ℕ) : ℤ) := by
    rw [Rat.floor_natCast_div_natCast]
    exact (Int.natCast_ediv _ _).symm
  have hroom : target ≤
      Format.binary64.targetExponent (totalExponent (m <<< k / n) target) := by
    have hshift := log2_shiftLeft hm k
    have hlog := log2_div (m <<< k) hn.ne'
    simp only [Format.targetExponent, totalExponent, Format.mantissaBits, Format.minExponent]
      at htarget ⊢
    norm_num at htarget ⊢
    omega
  have hvalue : ((m <<< k : ℕ) : ℚ) / n * 2 ^ target = m * 2 ^ e / (n * 2 ^ f) := by
    have hpow : (2 : ℚ) ^ e = 2 ^ k * 2 ^ target * 2 ^ f := by
      rw [← zpow_natCast, ← two_zpow_add, ← two_zpow_add, show (k : ℤ) + target + f = e by omega]
    have hf := (two_zpow_pos f).ne'
    have hne : (n : ℚ) ≠ 0 := by exact_mod_cast hn.ne'
    rw [Nat.shiftLeft_eq, hpow]
    push_cast
    field_simp
  rw [hcore, ← hvalue]
  exact nears_roundWithAccuracy s (Shows.quotient (m <<< k) hn) hfloor hroom

theorem nears_div {a b : UnpackedFloat} (ha : Regular a) (hb : Regular b)
    (hne : unpackedValue b ≠ 0) :
    Nears (UnpackedFloat.div Format.binary64 a b) (unpackedValue a / unpackedValue b) := by
  cases b with
  | notANumber => exact hb.elim
  | infinity t => exact hb.elim
  | zero t => exact absurd rfl hne
  | finite t n f hn =>
    cases a with
    | notANumber => exact ha.elim
    | infinity s => exact ha.elim
    | zero s => simpa [UnpackedFloat.div, unpackedValue] using nears_zero _
    | finite s m e hm =>
      have hnears := nears_divCore (s / t) hm.ne' hn e f
      rw [← signed_div] at hnears
      exact hnears

end LandPattern.Number
