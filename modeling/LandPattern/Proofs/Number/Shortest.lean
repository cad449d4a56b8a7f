import LandPattern.Number.Shortest
import LandPattern.Proofs.Number.Nearest
import Mathlib.Tactic.FieldSimp
import Mathlib.Tactic.NormNum

/-!
# Shortest decimals read back

The decimal that is written for a double is nearer to it than to any other double, or as near and the
double is the even one. So the double nearest to the decimal is the one it was written for. Of the
decimals with seventeen digits one always is that near, whatever the double.
-/

namespace LandPattern.Number

/-- The exact number that a decimal denotes. -/
def Decimal.value (d : Decimal) : ℚ := d.digits * 10 ^ d.exponent

/-- The exact number that is so many steps. -/
def stepsValue (steps : ℕ) : ℚ := steps * 2 ^ (-1074 : ℤ)

/-- There is a double of so many steps, which is not zero. -/
structure Representable (steps : ℕ) : Prop where
  positive : 0 < steps
  bounded : steps < 2 ^ 2098
  digits : ∃ m, m < 2 ^ 53 ∧ steps = m * 2 ^ spacingLog steps

/-- So many quarters of a step are nearest to the double of so many steps. -/
def Near (steps : ℕ) (quarters : ℚ) : Prop :=
  if endsIncluded steps then
    ((midpoints steps).1 : ℚ) ≤ quarters ∧ quarters ≤ (midpoints steps).2
  else ((midpoints steps).1 : ℚ) < quarters ∧ quarters < (midpoints steps).2

/-! ## The nearest double -/

/-- What is no farther from an integer than half a unit is rounded to it, half a unit only if the
integer is even. -/
theorem nearestInt_eq {x : ℚ} {n : ℤ} (hlow : (n : ℚ) - 1 / 2 ≤ x) (hhigh : x ≤ n + 1 / 2)
    (hodd : n % 2 = 1 → (n : ℚ) - 1 / 2 < x ∧ x < n + 1 / 2) : nearestInt x = n := by
  have hsum := Int.floor_add_fract x
  have hnonneg := Int.fract_nonneg x
  have hless := Int.fract_lt_one x
  by_cases hover : (n : ℚ) ≤ x
  · have hfloor : ⌊x⌋ = n := by
      rw [Int.floor_eq_iff]
      exact ⟨hover, by linarith⟩
    rw [hfloor] at hsum
    unfold nearestInt
    rw [hfloor]
    split_ifs with hhalf hmore
    · rfl
    · linarith
    · have hhalfway : x = n + 1 / 2 := by linarith
      have heven : n % 2 ≠ 1 := fun hone => by
        have hstrict := (hodd hone).2
        linarith
      omega
  · have hfloor : ⌊x⌋ = n - 1 := by
      rw [Int.floor_eq_iff]
      push_cast
      constructor <;> linarith
    rw [hfloor] at hsum
    push_cast at hsum
    unfold nearestInt
    rw [hfloor]
    split_ifs with hhalf hmore
    · linarith
    · omega
    · have hhalfway : x = n - 1 / 2 := by linarith
      have heven : n % 2 ≠ 1 := fun hone => by
        have hstrict := (hodd hone).1
        linarith
      omega

/-- The last place is where fifty-three digits end, or the last place there is. -/
theorem lastPlace_eq {units : ℚ} {place : ℤ} (hp : -1074 ≤ place) (hu : units < 2 ^ (53 : ℤ))
    (hfull : -1074 < place → 2 ^ (52 : ℤ) ≤ units) :
    lastPlace (units * 2 ^ place) = place := by
  obtain ⟨x, hunits⟩ : ∃ x, x = units * 2 ^ place := ⟨_, rfl⟩
  have hpos := two_zpow_pos place
  have hx : x < 2 ^ (place + 53) := by
    rw [hunits, add_comm, two_zpow_add]
    exact mul_lt_mul_of_pos_right hu hpos
  have hdigits : -1074 < place → 2 ^ (place + 52) ≤ x := by
    intro hhigher
    rw [hunits, add_comm, two_zpow_add]
    exact mul_le_mul_of_nonneg_right (hfull hhigher) hpos.le
  have hleast := le_lastPlace x
  have hbelow := lt_lastPlace (x := x)
  have hone : (1 : ℚ) < 2 := by norm_num
  rw [← hunits]
  apply le_antisymm
  · by_contra hmore
    have hfirst := lastPlace_le (x := x) (by omega)
    have hlt := (zpow_lt_zpow_iff_right₀ hone).1 (lt_of_le_of_lt hfirst hx)
    omega
  · by_contra hmore
    have hlt := (zpow_lt_zpow_iff_right₀ hone).1 (lt_of_le_of_lt (hdigits (by omega)) hbelow)
    omega

/-- What has these digits in its last place is rounded to them. -/
theorem roundedSize_eq {x : ℚ} {place n : ℤ} (hplace : lastPlace x = place)
    (hn : nearestInt (x / 2 ^ place) = n) : roundedSize x = n * 2 ^ place := by
  rw [roundedSize, hplace, hn]

/-- A number is rounded to the whole number of units of its last place that is nearest. -/
theorem roundedSize_units {place n : ℤ} {units : ℚ} (hleast : -1074 ≤ place)
    (hfull : -1074 < place → 2 ^ 52 ≤ units) (hbound : units < 2 ^ 53)
    (hlow : (n : ℚ) - 1 / 2 ≤ units) (hhigh : units ≤ n + 1 / 2)
    (hodd : n % 2 = 1 → (n : ℚ) - 1 / 2 < units ∧ units < n + 1 / 2) :
    roundedSize (units * 2 ^ place) = n * 2 ^ place := by
  have hpoint : lastPlace (units * 2 ^ place) = place := lastPlace_eq hleast hbound hfull
  refine roundedSize_eq hpoint ?_
  rw [mul_div_cancel_right₀ _ (two_zpow_pos place).ne']
  exact nearestInt_eq hlow hhigh hodd

/-- Below a power of two the doubles lie twice as dense: what is up to a quarter of a unit under it
is rounded to it. -/
theorem roundedSize_under_power {place : ℤ} {units : ℚ} (hleast : -1074 < place)
    (hlow : 2 ^ 52 - 1 / 4 ≤ units) (hunder : units < 2 ^ 52) :
    roundedSize (units * 2 ^ place) = 2 ^ 52 * 2 ^ place := by
  have hhalf : (2 : ℚ) ^ place = 2 * 2 ^ (place - 1) := by
    rw [← zpow_one_add₀ (by norm_num)]
    congr 1
    omega
  have hdouble : units * 2 ^ place = 2 * units * 2 ^ (place - 1) := by
    rw [hhalf]
    ring
  have hrounded : roundedSize (2 * units * 2 ^ (place - 1)) =
      ((2 ^ 53 : ℤ) : ℚ) * 2 ^ (place - 1) := by
    refine roundedSize_units (by omega) (fun _ => ?_) ?_ ?_ ?_ fun hone => ?_
    · linarith
    · linarith
    · push_cast
      linarith
    · push_cast
      linarith
    · exact absurd hone (by norm_num)
  rw [hdouble, hrounded, hhalf]
  push_cast
  ring

namespace Representable

variable {steps : ℕ}

/-- The digits of a double are fifty-three, unless its last place is the last one there is. -/
theorem fields (h : Representable steps) :
    ∃ m : ℕ, 0 < m ∧ m < 2 ^ 53 ∧ steps = m * 2 ^ spacingLog steps ∧
      (0 < spacingLog steps → 2 ^ 52 ≤ m) := by
  obtain ⟨m, hm, hsteps⟩ := h.digits
  have hpos := h.positive
  refine ⟨m, ?_, hm, hsteps, fun hspacing => ?_⟩
  · rcases Nat.eq_zero_or_pos m with rfl | hmpos
    · rw [Nat.zero_mul] at hsteps
      omega
    · exact hmpos
  · have hlog : steps.log2 = spacingLog steps + 52 := by
      unfold spacingLog at hspacing ⊢
      omega
    have hleast : 2 ^ steps.log2 ≤ steps := Nat.log2_self_le (by omega)
    rw [hlog, Nat.pow_add, Nat.mul_comm] at hleast
    have hall : 2 ^ 52 * 2 ^ spacingLog steps ≤ m * 2 ^ spacingLog steps :=
      Nat.le_trans hleast (Nat.le_of_eq hsteps)
    exact Nat.le_of_mul_le_mul_right hall (Nat.two_pow_pos _)

/-- The midpoints in units of the spacing: half a unit on either side, and a quarter below a power of
two that is not the first one. -/
theorem midpoints_eq {m : ℕ} (hm : 0 < m) (hsteps : steps = m * 2 ^ spacingLog steps) :
    ((midpoints steps).1 : ℚ) =
        4 * 2 ^ spacingLog steps *
          (m - if 0 < spacingLog steps ∧ m = 2 ^ 52 then (1 / 4 : ℚ) else 1 / 2) ∧
      ((midpoints steps).2 : ℚ) = 4 * 2 ^ spacingLog steps * (m + 1 / 2) := by
  have hspacing := Nat.two_pow_pos (spacingLog steps)
  have hone : 2 ^ spacingLog steps ≠ 1 ↔ 0 < spacingLog steps := by
    rw [ne_eq, Nat.pow_eq_one]
    omega
  have hfirst : steps = 2 ^ 52 * 2 ^ spacingLog steps ↔ m = 2 ^ 52 := by
    constructor
    · intro heq
      exact Nat.eq_of_mul_eq_mul_right hspacing (hsteps.symm.trans heq)
    · rintro rfl
      exact hsteps
  have hleast : 2 ^ spacingLog steps ≤ steps := by
    calc 2 ^ spacingLog steps = 1 * 2 ^ spacingLog steps := (Nat.one_mul _).symm
      _ ≤ m * 2 ^ spacingLog steps := Nat.mul_le_mul_right _ hm
      _ = steps := hsteps.symm
  have hcast : (steps : ℚ) = m * 2 ^ spacingLog steps := by exact_mod_cast hsteps
  unfold midpoints
  dsimp only
  constructor
  · by_cases hboundary : 0 < spacingLog steps ∧ m = 2 ^ 52
    · have hcond : (decide (2 ^ spacingLog steps ≠ 1) && steps == 2 ^ 52 * 2 ^ spacingLog steps) =
          true := by
        simp only [Bool.and_eq_true, decide_eq_true_eq, beq_iff_eq]
        exact ⟨hone.2 hboundary.1, hfirst.2 hboundary.2⟩
      rw [if_pos hcond, if_pos hboundary, Nat.cast_sub (by omega)]
      push_cast
      rw [hcast]
      ring
    · have hcond : ¬ (decide (2 ^ spacingLog steps ≠ 1) && steps == 2 ^ 52 * 2 ^ spacingLog steps) =
          true := by
        simp only [Bool.and_eq_true, decide_eq_true_eq, beq_iff_eq]
        exact fun hboth => hboundary ⟨hone.1 hboth.1, hfirst.1 hboth.2⟩
      rw [if_neg hcond, if_neg hboundary, Nat.cast_sub (by omega)]
      push_cast
      rw [hcast]
      ring
  · push_cast
    rw [hcast]
    ring

/-- The ends of the interval belong to it when the last digit is even. -/
theorem endsIncluded_iff {m : ℕ} (hsteps : steps = m * 2 ^ spacingLog steps) :
    endsIncluded steps = true ↔ m % 2 = 0 := by
  have hdigits : steps / 2 ^ spacingLog steps = m := by
    have hcancel := Nat.mul_div_cancel m (Nat.two_pow_pos (spacingLog steps))
    rwa [← hsteps] at hcancel
  unfold endsIncluded
  rw [hdigits, beq_iff_eq]

/-- How far a number may be from a double in units of its spacing, to be nearest to it. -/
theorem near_units {m : ℕ} {units : ℚ} (hm : 0 < m) (hsteps : steps = m * 2 ^ spacingLog steps)
    (h : Near steps (4 * 2 ^ spacingLog steps * units)) :
    (m : ℚ) - (if 0 < spacingLog steps ∧ m = 2 ^ 52 then 1 / 4 else 1 / 2) ≤ units ∧
      units ≤ m + 1 / 2 ∧
      (m % 2 = 1 → (m : ℚ) - 1 / 2 < units ∧ units < m + 1 / 2) := by
  obtain ⟨hfirst, hsecond⟩ := midpoints_eq hm hsteps
  have hspacing : (0 : ℚ) < 4 * 2 ^ spacingLog steps := by positivity
  unfold Near at h
  rw [hfirst, hsecond] at h
  by_cases heven : endsIncluded steps = true
  · rw [if_pos heven, mul_le_mul_iff_right₀ hspacing, mul_le_mul_iff_right₀ hspacing] at h
    refine ⟨h.1, h.2, fun hodd => ?_⟩
    have hzero := (endsIncluded_iff hsteps).1 heven
    omega
  · rw [if_neg heven, mul_lt_mul_iff_right₀ hspacing, mul_lt_mul_iff_right₀ hspacing] at h
    refine ⟨h.1.le, h.2.le, fun hodd => ⟨?_, h.2⟩⟩
    have hboundary : ¬ (0 < spacingLog steps ∧ m = 2 ^ 52) := by
      rintro ⟨-, rfl⟩
      omega
    have hlow := h.1
    rwa [if_neg hboundary] at hlow

/-- A number in units of the spacing of a double, in quarters of a step and as it is. -/
theorem exists_units (steps : ℕ) (x : ℚ) :
    ∃ units : ℚ, x = units * 2 ^ ((spacingLog steps : ℤ) - 1074) ∧
      4 * 2 ^ (1074 : ℤ) * x = 4 * 2 ^ spacingLog steps * units := by
  have hunit : (2 : ℚ) ^ ((spacingLog steps : ℤ) - 1074) * 2 ^ (1074 : ℤ) =
      2 ^ spacingLog steps := by
    rw [← two_zpow_add, sub_add_cancel, zpow_natCast]
  have hcancel := div_mul_cancel₀ x (two_zpow_pos ((spacingLog steps : ℤ) - 1074)).ne'
  refine ⟨x / 2 ^ ((spacingLog steps : ℤ) - 1074), hcancel.symm, ?_⟩
  rw [← hunit]
  calc 4 * 2 ^ (1074 : ℤ) * x
      = 4 * 2 ^ (1074 : ℤ) * (x / 2 ^ ((spacingLog steps : ℤ) - 1074) *
          2 ^ ((spacingLog steps : ℤ) - 1074)) := by rw [hcancel]
    _ = _ := by ring

/-- The number that so many steps are, by the digits in the last place. -/
theorem stepsValue_eq {m : ℕ} (hsteps : steps = m * 2 ^ spacingLog steps) :
    stepsValue steps = m * 2 ^ ((spacingLog steps : ℤ) - 1074) := by
  have hcast : (steps : ℚ) = m * 2 ^ spacingLog steps := by exact_mod_cast hsteps
  rw [stepsValue, hcast, sub_eq_add_neg, two_zpow_add, zpow_natCast, mul_assoc]

/-- What is nearest to a double is rounded to it. -/
theorem roundedSize_of_near (h : Representable steps) {x : ℚ}
    (hn : Near steps (4 * 2 ^ (1074 : ℤ) * x)) : roundedSize x = stepsValue steps := by
  obtain ⟨m, hm, hless, hsteps, hfull⟩ := h.fields
  obtain ⟨units, hunits, hquarters⟩ := exists_units steps x
  rw [hquarters] at hn
  obtain ⟨hlow, hhigh, hodd⟩ := near_units hm hsteps hn
  have hlessQ : (m : ℚ) + 1 ≤ 2 ^ 53 := by exact_mod_cast hless
  rw [hunits, stepsValue_eq hsteps]
  by_cases hbelow : (0 < spacingLog steps ∧ m = 2 ^ 52) ∧ units < m
  · obtain ⟨⟨hpositive, rfl⟩, hunder⟩ := hbelow
    rw [if_pos ⟨hpositive, rfl⟩] at hlow
    push_cast at hlow hunder ⊢
    exact roundedSize_under_power (by omega) hlow hunder
  · have hbottom : 0 < spacingLog steps → (2 : ℚ) ^ 52 ≤ units := by
      intro hpositive
      have hmore : (2 : ℚ) ^ 52 ≤ m := by exact_mod_cast hfull hpositive
      by_cases hboundary : m = 2 ^ 52
      · have hover : ¬ units < m := fun hlt => hbelow ⟨⟨hpositive, hboundary⟩, hlt⟩
        linarith
      · have hnext : (2 : ℚ) ^ 52 + 1 ≤ m := by
          have hstrict : 2 ^ 52 + 1 ≤ m := by
            have := hfull hpositive
            omega
          exact_mod_cast hstrict
        rw [if_neg fun hboth => hboundary hboth.2] at hlow
        linarith
    have hrounded : roundedSize (units * 2 ^ ((spacingLog steps : ℤ) - 1074)) =
        ((m : ℤ) : ℚ) * 2 ^ ((spacingLog steps : ℤ) - 1074) := by
      refine roundedSize_units (by omega) (fun hhigher => hbottom (by omega)) (by linarith) ?_ ?_
        fun hone => ?_
      · push_cast
        split at hlow <;> linarith
      · exact_mod_cast hhigh
      · exact_mod_cast hodd (by omega)
    rw [hrounded, Int.cast_natCast]

end Representable

/-! ## Decimals of one grid -/

section

variable {steps : ℕ} {exponent : ℤ}

/-- The number of a multiple on a grid, in quarters of a step. -/
def gridQuarters (exponent : ℤ) (c : ℕ) : ℚ := 4 * 2 ^ (1074 : ℤ) * (c * 10 ^ exponent)

/-- The multiple on a grid is nearest to the double, in the whole numbers that are compared. -/
def readsBack (steps : ℕ) (exponent : ℤ) (c : ℕ) : Bool :=
  let unit := 4 * stepsPerOne * 10 ^ exponent.toNat
  let scale := 10 ^ (-exponent).toNat
  let (low, high) := midpoints steps
  if endsIncluded steps then low * scale ≤ c * unit && c * unit ≤ high * scale
  else low * scale < c * unit && c * unit < high * scale

/-- The multiple on a grid that is not above the double. -/
def multipleUnder (steps : ℕ) (exponent : ℤ) : ℕ :=
  4 * steps * 10 ^ (-exponent).toNat / (4 * stepsPerOne * 10 ^ exponent.toNat)

theorem ten_zpow (exponent : ℤ) :
    (10 : ℚ) ^ exponent.toNat = 10 ^ exponent * 10 ^ (-exponent).toNat := by
  rw [← zpow_natCast, ← zpow_natCast, ← zpow_add₀ (by norm_num)]
  congr 1
  omega

theorem stepsPerOne_pos : 0 < stepsPerOne := by
  unfold stepsPerOne
  positivity

theorem stepsPerOne_cast : (stepsPerOne : ℚ) = 2 ^ (1074 : ℤ) := by
  unfold stepsPerOne
  generalize hn : (1074 : ℕ) = n
  have hcast : (1074 : ℤ) = n := by omega
  rw [hcast, zpow_natCast, Nat.cast_pow]
  rfl

/-- Both sides of a comparison on a grid are scaled to whole numbers. -/
theorem grid_scaled (exponent : ℤ) (c : ℕ) :
    ((c * (4 * stepsPerOne * 10 ^ exponent.toNat) : ℕ) : ℚ) =
      gridQuarters exponent c * 10 ^ (-exponent).toNat := by
  push_cast
  rw [ten_zpow exponent, stepsPerOne_cast, gridQuarters]
  ring

theorem readsBack_iff {c : ℕ} :
    readsBack steps exponent c = true ↔ Near steps (gridQuarters exponent c) := by
  have hscale : (0 : ℚ) < 10 ^ (-exponent).toNat := by positivity
  have hle : ∀ a : ℕ, a * 10 ^ (-exponent).toNat ≤ c * (4 * stepsPerOne * 10 ^ exponent.toNat) ↔
      (a : ℚ) ≤ gridQuarters exponent c := by
    intro a
    rw [← mul_le_mul_iff_left₀ hscale, ← grid_scaled]
    exact_mod_cast Iff.rfl
  have hge : ∀ a : ℕ, c * (4 * stepsPerOne * 10 ^ exponent.toNat) ≤ a * 10 ^ (-exponent).toNat ↔
      gridQuarters exponent c ≤ a := by
    intro a
    rw [← mul_le_mul_iff_left₀ hscale, ← grid_scaled]
    exact_mod_cast Iff.rfl
  unfold readsBack Near
  dsimp only
  split
  · simp only [Bool.and_eq_true, decide_eq_true_eq, hle, hge]
  · simp only [Bool.and_eq_true, decide_eq_true_eq, ← not_le, hle, hge]

/-- What is found on a grid is nearest to the double. -/
theorem near_of_onGrid {tie : Tie} {c : ℕ} (h : onGrid tie steps exponent = some c) :
    Near steps (gridQuarters exponent c) := by
  refine readsBack_iff.1 ?_
  unfold onGrid at h
  dsimp only at h
  split at h
  · cases h
  · rename_i hunder _
    cases h
    exact hunder
  · rename_i _ hover
    cases h
    exact hover
  · rename_i hunder hover
    split at h
    · cases h
      exact hunder
    split at h
    · cases h
      exact hover
    cases tie with
    | up =>
      cases h
      exact hover
    | even =>
      simp only [Option.some.injEq] at h
      split at h <;> subst h
      · exact hunder
      · exact hover

/-- Where nothing is found on a grid, the multiples around the double are not nearest to it. -/
theorem not_near_of_onGrid {tie : Tie} (h : onGrid tie steps exponent = none) :
    ¬ Near steps (gridQuarters exponent (multipleUnder steps exponent)) ∧
      ¬ Near steps (gridQuarters exponent (multipleUnder steps exponent + 1)) := by
  rw [← readsBack_iff, ← readsBack_iff]
  unfold onGrid at h
  dsimp only at h
  split at h
  · rename_i hunder hover
    exact ⟨fun htrue => Bool.noConfusion (hunder.symm.trans htrue),
      fun htrue => Bool.noConfusion (hover.symm.trans htrue)⟩
  · cases h
  · cases h
  · split at h
    · cases h
    split at h
    · cases h
    cases tie <;> cases h

/-- The double lies between the two multiples. -/
theorem multipleUnder_bounds :
    gridQuarters exponent (multipleUnder steps exponent) ≤ 4 * steps ∧
      4 * steps < gridQuarters exponent (multipleUnder steps exponent + 1) := by
  have hscale : (0 : ℚ) < 10 ^ (-exponent).toNat := by positivity
  have hunit : 0 < 4 * stepsPerOne * 10 ^ exponent.toNat := by
    have hone := stepsPerOne_pos
    positivity
  constructor
  · rw [← mul_le_mul_iff_left₀ hscale, ← grid_scaled]
    exact_mod_cast Nat.div_mul_le_self _ _
  · rw [← mul_lt_mul_iff_left₀ hscale, ← grid_scaled]
    exact_mod_cast Nat.lt_mul_of_div_lt (Nat.lt_succ_self _) hunit

end

/-! ## Seventeen digits -/

/-- The power of ten that is taken for a power of two is never too large. -/
theorem ten_pow_le_two_pow {k : ℕ} (h : k < 2200) : 10 ^ (k * 30103 / 100000) ≤ 2 ^ k := by
  have hall : (List.range 2200).all (fun k => 10 ^ (k * 30103 / 100000) ≤ 2 ^ k) = true := by
    decide +kernel
  exact of_decide_eq_true (List.all_eq_true.1 hall k (List.mem_range.2 h))

/-- A number has as many digits as are counted, at least. -/
theorem ten_pow_decimalLength {n bits : ℕ} (hn : 0 < n) (hb : bits ≤ 2200) (h : n < 2 ^ bits) :
    1 ≤ decimalLength n ∧ 10 ^ (decimalLength n - 1) ≤ n := by
  have hlog : n.log2 < bits := (Nat.log2_lt hn.ne').2 h
  have hten := ten_pow_le_two_pow (Nat.lt_of_lt_of_le hlog hb)
  have htwo : 2 ^ n.log2 ≤ n := Nat.log2_self_le hn.ne'
  unfold decimalLength
  dsimp only
  split
  · exact ⟨by omega, by rw [Nat.add_sub_cancel]; exact Nat.le_trans hten htwo⟩
  · rename_i hover
    exact ⟨by omega, Nat.not_lt.1 hover⟩

variable {steps : ℕ}

/-- The power of ten of the first digit is not above the double. -/
theorem ten_zpow_leadingExponent (h : Representable steps) :
    (10 : ℚ) ^ leadingExponent steps ≤ stepsValue steps := by
  -- the power is given a name, so that it is computed where it is compared and nowhere else
  obtain ⟨tens, htens⟩ : ∃ tens : ℕ, tens = 330 := ⟨_, rfl⟩
  obtain ⟨n, hn⟩ : ∃ n, n = steps * 10 ^ tens / stepsPerOne := ⟨_, rfl⟩
  have hleast : stepsPerOne ≤ 10 ^ tens := by
    rw [htens]
    unfold stepsPerOne
    decide +kernel
  have hmost : 2 ^ 2098 * 10 ^ tens ≤ 2 ^ 2200 * stepsPerOne := by
    rw [htens]
    unfold stepsPerOne
    decide +kernel
  have hpos : 0 < n := by
    rw [hn]
    refine Nat.div_pos (Nat.le_trans hleast ?_) stepsPerOne_pos
    exact Nat.le_mul_of_pos_left _ h.positive
  have hbound : n < 2 ^ 2200 := by
    rw [hn, Nat.div_lt_iff_lt_mul stepsPerOne_pos]
    refine Nat.lt_of_lt_of_le ?_ hmost
    exact Nat.mul_lt_mul_of_pos_right h.bounded (by positivity)
  obtain ⟨hone, hten⟩ := ten_pow_decimalLength hpos (Nat.le_refl _) hbound
  have hfloor : n * stepsPerOne ≤ steps * 10 ^ tens := by
    rw [hn]
    exact Nat.div_mul_le_self _ _
  have hscaled : 10 ^ (decimalLength n - 1) * stepsPerOne ≤ steps * 10 ^ tens :=
    Nat.le_trans (Nat.mul_le_mul_right _ hten) hfloor
  have hexponent : leadingExponent steps = ((decimalLength n - 1 : ℕ) : ℤ) - tens := by
    rw [leadingExponent, ← htens, ← hn]
    omega
  have hcast : (10 : ℚ) ^ (decimalLength n - 1) * 2 ^ (1074 : ℤ) ≤ steps * 10 ^ tens := by
    rw [← stepsPerOne_cast]
    exact_mod_cast hscaled
  have hpower : (0 : ℚ) < 10 ^ tens := by positivity
  have htwo : (0 : ℚ) < 2 ^ (1074 : ℤ) := two_zpow_pos _
  rw [hexponent, zpow_sub₀ (by norm_num), zpow_natCast, zpow_natCast, stepsValue, zpow_neg,
    ← div_eq_mul_inv, div_le_div_iff₀ hpower htwo]
  exact hcast

/-- What lies between the midpoints is nearest to the double. -/
theorem near_of_between {quarters : ℚ} (hlow : ((midpoints steps).1 : ℚ) < quarters)
    (hhigh : quarters < (midpoints steps).2) : Near steps quarters := by
  unfold Near
  split
  · exact ⟨hlow.le, hhigh.le⟩
  · exact ⟨hlow, hhigh⟩

/-- The decimals of one grid are equally far apart. -/
theorem gridQuarters_succ (exponent : ℤ) (c : ℕ) :
    gridQuarters exponent (c + 1) = gridQuarters exponent c + gridQuarters exponent 1 := by
  rw [gridQuarters, gridQuarters, gridQuarters, Nat.cast_add, Nat.cast_one]
  generalize (2 : ℚ) ^ (1074 : ℤ) = scale
  ring

/-- The decimals with seventeen digits are close together for the size of the double. -/
theorem gridQuarters_seventeen (h : Representable steps) {exponent : ℤ}
    (he : exponent = leadingExponent steps - 16) :
    gridQuarters exponent 1 * 10 ^ 16 ≤ 4 * steps := by
  have hcancel : (2 : ℚ) ^ (1074 : ℤ) * 2 ^ (-1074 : ℤ) = 1 := by
    rw [← two_zpow_add]
    norm_num
  have hten : (10 : ℚ) ^ exponent * 10 ^ 16 = 10 ^ leadingExponent steps := by
    rw [he, zpow_sub₀ (by norm_num)]
    norm_num
  have hlead : (10 : ℚ) ^ leadingExponent steps ≤ steps * 2 ^ (-1074 : ℤ) :=
    ten_zpow_leadingExponent h
  have htwo : (0 : ℚ) < 2 ^ (1074 : ℤ) := two_zpow_pos _
  rw [gridQuarters, Nat.cast_one, one_mul]
  generalize (2 : ℚ) ^ (1074 : ℤ) = scale at hcancel htwo ⊢
  generalize (2 : ℚ) ^ (-1074 : ℤ) = inverse at hcancel hlead
  calc 4 * scale * 10 ^ exponent * 10 ^ 16 = 4 * scale * (10 ^ exponent * 10 ^ 16) := by ring
    _ ≤ 4 * scale * (steps * inverse) := by
      rw [hten]
      exact mul_le_mul_of_nonneg_left hlead (by positivity)
    _ = 4 * steps * (scale * inverse) := by ring
    _ = 4 * steps := by rw [hcancel, mul_one]

/-- Of the decimals with seventeen digits one is nearest to the double. -/
theorem near_seventeen (h : Representable steps) {exponent : ℤ}
    (he : exponent = leadingExponent steps - 16) :
    Near steps (gridQuarters exponent (multipleUnder steps exponent)) ∨
      Near steps (gridQuarters exponent (multipleUnder steps exponent + 1)) := by
  obtain ⟨m, hm, hless, hsteps, -⟩ := h.fields
  obtain ⟨hfirst, hsecond⟩ := Representable.midpoints_eq hm hsteps
  obtain ⟨hunder, hover⟩ := @multipleUnder_bounds steps exponent
  obtain ⟨spacing, hspacing⟩ : ∃ spacing : ℚ, spacing = 2 ^ spacingLog steps := ⟨_, rfl⟩
  have hpos : 0 < spacing := by rw [hspacing]; positivity
  have hcast : (steps : ℚ) = m * spacing := by
    rw [hspacing]
    exact_mod_cast hsteps
  have hnext := gridQuarters_succ exponent (multipleUnder steps exponent)
  have hnarrow := gridQuarters_seventeen h he
  rw [← hspacing] at hfirst hsecond
  rw [hcast] at hunder hover hnarrow
  by_cases hboundary : 0 < spacingLog steps ∧ m = 2 ^ 52
  · rw [if_pos hboundary] at hfirst
    have hdigits : (m : ℚ) = 2 ^ 52 := by exact_mod_cast hboundary.2
    rw [hdigits] at hfirst hsecond hunder hover hnarrow
    refine Or.inr (near_of_between ?_ ?_)
    · rw [hfirst]
      linarith
    · rw [hsecond, hnext]
      linarith
  · rw [if_neg hboundary] at hfirst
    have hdigits : (m : ℚ) < 2 ^ 53 := by exact_mod_cast hless
    have hshort : (m : ℚ) * spacing < 2 ^ 53 * spacing := mul_lt_mul_of_pos_right hdigits hpos
    by_cases hlow : ((midpoints steps).1 : ℚ) <
        gridQuarters exponent (multipleUnder steps exponent)
    · refine Or.inl (near_of_between hlow ?_)
      rw [hsecond]
      linarith
    · refine Or.inr (near_of_between ?_ ?_)
      · rw [hfirst]
        linarith
      · rw [hfirst] at hlow
        rw [hsecond, hnext]
        linarith

/-! ## The shortest decimal -/

/-- The decimal of one grid is nearest to the double, also where it is written with fewer digits. -/
theorem near_of_withDigits {tie : Tie} {count : ℕ} {d : Decimal}
    (h : withDigits tie steps count = some d) :
    Near steps (4 * 2 ^ (1074 : ℤ) * d.value) := by
  unfold withDigits at h
  obtain ⟨c, hc, hd⟩ := Option.map_eq_some_iff.1 h
  have hnear := near_of_onGrid hc
  rw [gridQuarters] at hnear
  split at hd
  · rename_i hcarry
    have hvalue : d.value = c * 10 ^ (leadingExponent steps + 1 - count) := by
      rw [← hd, Decimal.value, hcarry, zpow_add₀ (by norm_num), zpow_natCast]
      push_cast
      ring
    rw [hvalue]
    exact hnear
  · rw [← hd]
    exact hnear

/-- The shortest decimal is nearest to the double. -/
theorem near_shortest (h : Representable steps) (tie : Tie) :
    Near steps (4 * 2 ^ (1074 : ℤ) * (shortest tie steps).value) := by
  unfold shortest
  cases hfound : (List.range 17).findSome? fun count => withDigits tie steps (count + 1) with
  | some d =>
    obtain ⟨count, -, hd⟩ := List.exists_of_findSome?_eq_some hfound
    exact near_of_withDigits hd
  | none =>
    exfalso
    have hnone := List.findSome?_eq_none_iff.1 hfound 16 (by decide)
    have hgrid : onGrid tie steps (leadingExponent steps - 16) = none := by
      have hexponent : leadingExponent steps + 1 - ((16 + 1 : ℕ) : ℤ) =
          leadingExponent steps - 16 := by
        omega
      unfold withDigits at hnone
      rw [hexponent] at hnone
      exact Option.map_eq_none_iff.1 hnone
    obtain ⟨hunder, hover⟩ := not_near_of_onGrid hgrid
    rcases near_seventeen h rfl with hnear | hnear
    · exact hunder hnear
    · exact hover hnear

/-- The double nearest to the shortest decimal of a double is the double. -/
theorem roundedSize_shortest (h : Representable steps) (tie : Tie) :
    roundedSize (shortest tie steps).value = stepsValue steps :=
  h.roundedSize_of_near (near_shortest h tie)

/-- The shortest decimal is not zero. -/
theorem digits_shortest_pos (h : Representable steps) (tie : Tie) :
    0 < (shortest tie steps).digits := by
  rcases Nat.eq_zero_or_pos (shortest tie steps).digits with hzero | hpos
  · have hrounded := roundedSize_shortest h tie
    have hsteps : (0 : ℚ) < stepsValue steps := by
      have hpositive : (0 : ℚ) < steps := by exact_mod_cast h.positive
      exact mul_pos hpositive (two_zpow_pos _)
    rw [Decimal.value, hzero, Nat.cast_zero, zero_mul, roundedSize_zero] at hrounded
    exact absurd hrounded hsteps.ne
  · exact hpos

end LandPattern.Number
