import Mathlib.Data.Int.Log
import Mathlib.Data.Rat.Floor
import Mathlib.Tactic.Linarith
import Mathlib.Tactic.Positivity
import Mathlib.Tactic.Ring

/-!
# Rounding to the nearest double

What a double keeps of an exact number: fifty-three binary digits from the first one that is not
zero, but none behind the place of 2^-1074. There is no largest double here; whether a number is too
large is asked afterwards. Rounding keeps the order, and keeps what has few enough digits.
-/

namespace LandPattern.Number

/-! ## Integers -/

/-- The nearest integer, and of two equally near ones the even one. -/
def nearestInt (x : ℚ) : ℤ :=
  if Int.fract x < 1 / 2 then ⌊x⌋
  else if 1 / 2 < Int.fract x then ⌊x⌋ + 1
  else ⌊x⌋ + ⌊x⌋ % 2

@[simp] theorem nearestInt_intCast (n : ℤ) : nearestInt n = n := by
  simp [nearestInt]

theorem floor_le_nearestInt (x : ℚ) : ⌊x⌋ ≤ nearestInt x := by
  unfold nearestInt
  split_ifs <;> omega

theorem nearestInt_le_floor_add_one (x : ℚ) : nearestInt x ≤ ⌊x⌋ + 1 := by
  unfold nearestInt
  split_ifs <;> omega

theorem nearestInt_mono {x y : ℚ} (h : x ≤ y) : nearestInt x ≤ nearestInt y := by
  have hfloor : ⌊x⌋ ≤ ⌊y⌋ := Int.floor_le_floor h
  rcases hfloor.lt_or_eq with hlt | heq
  · have hx := nearestInt_le_floor_add_one x
    have hy := floor_le_nearestInt y
    omega
  · have hfract : Int.fract x ≤ Int.fract y := by
      have hcast : (⌊x⌋ : ℚ) = ⌊y⌋ := by rw [heq]
      have hx := Int.floor_add_fract x
      have hy := Int.floor_add_fract y
      linarith
    unfold nearestInt
    rw [heq]
    split_ifs <;> first | omega | linarith

theorem nearestInt_nonneg {x : ℚ} (h : 0 ≤ x) : 0 ≤ nearestInt x := by
  have hmono := nearestInt_mono h
  rwa [← Int.cast_zero, nearestInt_intCast] at hmono

/-! ## Sizes -/

/-- The place of the last binary digit that a double of this size keeps. -/
def lastPlace (x : ℚ) : ℤ := if x < 2 ^ (-1022 : ℤ) then -1074 else Int.log 2 x - 52

/-- The size of the double nearest to a size. -/
def roundedSize (x : ℚ) : ℚ := nearestInt (x / 2 ^ lastPlace x) * 2 ^ lastPlace x

theorem two_zpow_pos (e : ℤ) : (0 : ℚ) < 2 ^ e := zpow_pos (by norm_num) e

theorem two_zpow_le {e f : ℤ} (h : e ≤ f) : (2 : ℚ) ^ e ≤ 2 ^ f :=
  zpow_le_zpow_right₀ (by norm_num) h

theorem two_zpow_add (e f : ℤ) : (2 : ℚ) ^ (e + f) = 2 ^ e * 2 ^ f :=
  zpow_add₀ (by norm_num) e f

theorem lastPlace_of_lt {x : ℚ} (h : x < 2 ^ (-1022 : ℤ)) : lastPlace x = -1074 := if_pos h

/-- From the first size that has all its digits on, the last place follows the first one. -/
theorem le_log_of_le {x : ℚ} (h : 2 ^ (-1022 : ℤ) ≤ x) : -1022 ≤ Int.log 2 x :=
  (Int.zpow_le_iff_le_log (by norm_num) (lt_of_lt_of_le (two_zpow_pos _) h)).1 (by exact_mod_cast h)

theorem le_lastPlace (x : ℚ) : -1074 ≤ lastPlace x := by
  unfold lastPlace
  split_ifs with h
  · exact le_refl _
  · have hlog := le_log_of_le (not_lt.1 h)
    omega

theorem lastPlace_mono {x y : ℚ} (h : x ≤ y) : lastPlace x ≤ lastPlace y := by
  by_cases hx : x < 2 ^ (-1022 : ℤ)
  · rw [lastPlace_of_lt hx]
    exact le_lastPlace y
  · have hxpos : 0 < x := lt_of_lt_of_le (two_zpow_pos _) (not_lt.1 hx)
    have hy : ¬ y < 2 ^ (-1022 : ℤ) := fun hlt => hx (lt_of_le_of_lt h hlt)
    have hlog : Int.log 2 x ≤ Int.log 2 y := Int.log_mono_right hxpos h
    rw [lastPlace, lastPlace, if_neg hx, if_neg hy]
    omega

/-- A size has at most fifty-three digits before its last place. -/
theorem lt_lastPlace {x : ℚ} : x < 2 ^ (lastPlace x + 53) := by
  by_cases hx : x < 2 ^ (-1022 : ℤ)
  · rw [lastPlace_of_lt hx]
    exact lt_of_lt_of_le hx (two_zpow_le (by norm_num))
  · have hlt : x < (2 : ℕ) ^ (Int.log 2 x + 1) := Int.lt_zpow_succ_log_self (by norm_num) x
    rw [lastPlace, if_neg hx, show Int.log 2 x - 52 + 53 = Int.log 2 x + 1 by ring]
    exact_mod_cast hlt

/-- And where digits are dropped at its end, it has fifty-three. -/
theorem lastPlace_le {x : ℚ} (h : -1074 < lastPlace x) : 2 ^ (lastPlace x + 52) ≤ x := by
  by_cases hx : x < 2 ^ (-1022 : ℤ)
  · rw [lastPlace_of_lt hx] at h
    exact absurd h (lt_irrefl _)
  · have hxpos : 0 < x := lt_of_lt_of_le (two_zpow_pos _) (not_lt.1 hx)
    have hle : (2 : ℕ) ^ Int.log 2 x ≤ x := Int.zpow_log_le_self (by norm_num) hxpos
    rw [lastPlace, if_neg hx, show Int.log 2 x - 52 + 52 = Int.log 2 x by ring]
    exact_mod_cast hle

/-- In units of its last place a size rounds to fifty-three digits, or to the next power of two. -/
theorem nearestInt_le_digits (x : ℚ) : nearestInt (x / 2 ^ lastPlace x) ≤ 2 ^ 53 := by
  have hless : x / 2 ^ lastPlace x ≤ ((2 ^ 53 : ℤ) : ℚ) := by
    have hlt := (lt_lastPlace (x := x)).le
    rw [add_comm, two_zpow_add] at hlt
    rw [div_le_iff₀ (two_zpow_pos _)]
    exact_mod_cast hlt
  have hmono := nearestInt_mono hless
  rwa [nearestInt_intCast] at hmono

theorem digits_le_nearestInt {x : ℚ} (h : -1074 < lastPlace x) :
    2 ^ 52 ≤ nearestInt (x / 2 ^ lastPlace x) := by
  have hmore : ((2 ^ 52 : ℤ) : ℚ) ≤ x / 2 ^ lastPlace x := by
    have hle := lastPlace_le h
    rw [add_comm, two_zpow_add] at hle
    rw [le_div_iff₀ (two_zpow_pos _)]
    exact_mod_cast hle
  have hmono := nearestInt_mono hmore
  rwa [nearestInt_intCast] at hmono

/-- What has few enough digits is kept, be it in one place or another. -/
theorem nearestInt_mul_zpow {n : ℤ} {e f : ℤ} (h : f ≤ e) :
    (nearestInt (n * 2 ^ e / 2 ^ f) : ℚ) * 2 ^ f = n * 2 ^ e := by
  have hpow : (2 : ℚ) ^ e = 2 ^ (e - f) * 2 ^ f := by
    rw [← two_zpow_add, sub_add_cancel]
  obtain ⟨k, hk⟩ := Int.eq_ofNat_of_zero_le (sub_nonneg.2 h)
  have hint : (n : ℚ) * 2 ^ e / 2 ^ f = ((n * 2 ^ k : ℤ) : ℚ) := by
    rw [hpow, ← mul_assoc, mul_div_assoc, div_self (two_zpow_pos f).ne', mul_one, hk]
    push_cast
    rfl
  rw [hint, nearestInt_intCast, ← hint, div_mul_cancel₀ _ (two_zpow_pos f).ne']

/-- Nearest multiples of a power of two keep the order. -/
theorem nearestInt_mul_mono {x y : ℚ} (e : ℤ) (h : x ≤ y) :
    (nearestInt (x / 2 ^ e) : ℚ) * 2 ^ e ≤ nearestInt (y / 2 ^ e) * 2 ^ e := by
  have hpos := two_zpow_pos e
  have hdiv : x / 2 ^ e ≤ y / 2 ^ e := div_le_div_of_nonneg_right h hpos.le
  have hcast : (nearestInt (x / 2 ^ e) : ℚ) ≤ nearestInt (y / 2 ^ e) := by
    exact_mod_cast nearestInt_mono hdiv
  exact mul_le_mul_of_nonneg_right hcast hpos.le

theorem roundedSize_nonneg {x : ℚ} (h : 0 ≤ x) : 0 ≤ roundedSize x := by
  have hpos := two_zpow_pos (lastPlace x)
  have hnear : (0 : ℚ) ≤ nearestInt (x / 2 ^ lastPlace x) := by
    exact_mod_cast nearestInt_nonneg (div_nonneg h hpos.le)
  exact mul_nonneg hnear hpos.le

@[simp] theorem roundedSize_zero : roundedSize 0 = 0 := by
  have hzero : nearestInt 0 = 0 := nearestInt_intCast 0
  simp [roundedSize, hzero]

/-- Sizes with different last places lie on different sides of a power of two. -/
theorem roundedSize_mono {x y : ℚ} (h : x ≤ y) : roundedSize x ≤ roundedSize y := by
  rcases (lastPlace_mono h).lt_or_eq with hlt | heq
  · have hlow := le_lastPlace x
    have hx : (nearestInt (x / 2 ^ lastPlace x) : ℚ) ≤ 2 ^ (53 : ℤ) := by
      exact_mod_cast nearestInt_le_digits x
    have hy : (2 : ℚ) ^ (52 : ℤ) ≤ nearestInt (y / 2 ^ lastPlace y) := by
      exact_mod_cast digits_le_nearestInt (x := y) (by omega)
    calc roundedSize x ≤ 2 ^ (53 : ℤ) * 2 ^ lastPlace x :=
          mul_le_mul_of_nonneg_right hx (two_zpow_pos _).le
      _ = 2 ^ (53 + lastPlace x) := (two_zpow_add _ _).symm
      _ ≤ 2 ^ (52 + lastPlace y) := two_zpow_le (by omega)
      _ = 2 ^ (52 : ℤ) * 2 ^ lastPlace y := two_zpow_add _ _
      _ ≤ roundedSize y := mul_le_mul_of_nonneg_right hy (two_zpow_pos _).le
  · have hmono := nearestInt_mul_mono (lastPlace y) h
    unfold roundedSize
    rw [heq]
    exact hmono

/-- A size of at most fifty-three digits that ends in time is kept. -/
theorem roundedSize_of_digits {n : ℕ} {e : ℤ} (hn : n < 2 ^ 53) (he : -1074 ≤ e) :
    roundedSize (n * 2 ^ e) = n * 2 ^ e := by
  have hplace : lastPlace (n * 2 ^ e) ≤ e := by
    by_contra hover
    have hfull := lastPlace_le (x := n * 2 ^ e) (by omega)
    have hbits : (n : ℚ) < 2 ^ (53 : ℤ) := by exact_mod_cast hn
    have hsize : (n : ℚ) * 2 ^ e < 2 ^ (53 + e) := by
      rw [two_zpow_add]
      exact mul_lt_mul_of_pos_right hbits (two_zpow_pos e)
    have hbelow : (2 : ℚ) ^ (53 + e) ≤ 2 ^ (lastPlace (n * 2 ^ e) + 52) :=
      two_zpow_le (by omega)
    linarith
  have hkept := nearestInt_mul_zpow (n := n) hplace
  rw [roundedSize]
  exact_mod_cast hkept

/-! ## Numbers of both signs -/

/-- The double nearest to a number. -/
def rounded (x : ℚ) : ℚ := if x < 0 then -roundedSize (-x) else roundedSize x

theorem rounded_of_nonneg {x : ℚ} (h : 0 ≤ x) : rounded x = roundedSize x := if_neg (not_lt.2 h)

@[simp] theorem rounded_neg (x : ℚ) : rounded (-x) = -rounded x := by
  rcases lt_trichotomy x 0 with h | rfl | h
  · rw [rounded_of_nonneg (by linarith), rounded, if_pos h, neg_neg]
  · simp [rounded]
  · rw [rounded_of_nonneg h.le, rounded, if_pos (by linarith), neg_neg]

theorem rounded_nonneg {x : ℚ} (h : 0 ≤ x) : 0 ≤ rounded x := by
  rw [rounded_of_nonneg h]
  exact roundedSize_nonneg h

theorem rounded_nonpos {x : ℚ} (h : x ≤ 0) : rounded x ≤ 0 := by
  have hneg := rounded_nonneg (neg_nonneg.2 h)
  rw [rounded_neg] at hneg
  linarith

theorem rounded_mono {x y : ℚ} (h : x ≤ y) : rounded x ≤ rounded y := by
  by_cases hx : 0 ≤ x
  · rw [rounded_of_nonneg hx, rounded_of_nonneg (le_trans hx h)]
    exact roundedSize_mono h
  · have hxneg : rounded (-(-x)) = -roundedSize (-x) := by
      rw [rounded_neg, rounded_of_nonneg (by linarith)]
    rw [neg_neg] at hxneg
    by_cases hy : 0 ≤ y
    · have hbelow := roundedSize_nonneg (x := -x) (by linarith)
      have habove := rounded_nonneg hy
      linarith
    · have hyneg : rounded (-(-y)) = -roundedSize (-y) := by
        rw [rounded_neg, rounded_of_nonneg (by linarith)]
      rw [neg_neg] at hyneg
      have hmono := roundedSize_mono (x := -y) (y := -x) (by linarith)
      linarith

theorem abs_rounded (x : ℚ) : |rounded x| = rounded |x| := by
  rcases le_total 0 x with h | h
  · rw [abs_of_nonneg h, abs_of_nonneg (rounded_nonneg h)]
  · have hneg := rounded_nonneg (x := -x) (by linarith)
    rw [abs_of_nonpos h, rounded_neg, abs_of_nonpos (by rw [rounded_neg] at hneg; linarith)]

end LandPattern.Number
