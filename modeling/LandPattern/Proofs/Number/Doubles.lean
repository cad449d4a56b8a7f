import LandPattern.Proofs.Number.Rounding

/-!
# The numbers that doubles denote

Every operation on finite doubles gives the double nearest to the exact result, unless that lies
beyond the largest double: then the result is not finite.
-/

namespace LandPattern.Number

open Float.Model (Format UnpackedFloat totalExponent)
open Float.Model.UnpackedFloat

/-! ## Packed doubles -/

/-- The number that a double denotes; zero for what denotes none. -/
def value (x : Float) : ℚ := unpackedValue x.toModel.unpack

/-- The first number that is too large. -/
def beyond : ℚ := 2 ^ (1024 : ℤ)

theorem abs_unpackedValue (s : Sign) (m : ℕ) (e : ℤ) (hm : 0 < m) :
    |unpackedValue (.finite s m e hm)| = m * 2 ^ e := by
  rw [unpackedValue, abs_signed, abs_of_nonneg (mul_nonneg (Nat.cast_nonneg m) (two_zpow_pos e).le)]

theorem abs_unpackedValue_zero (s : Sign) : |unpackedValue (.zero s)| < beyond := by
  simp only [unpackedValue, abs_zero]
  exact two_zpow_pos _

/-- The exponent alone decides whether a regular number is too large. -/
theorem lt_beyond_iff {s : Sign} {m : ℕ} {e : ℤ} {hm : 0 < m} (h : Regular (.finite s m e hm)) :
    |unpackedValue (.finite s m e hm)| < beyond ↔ e ≤ 971 := by
  obtain ⟨hdigits, -, hfull⟩ := h
  rw [abs_unpackedValue, beyond]
  constructor
  · intro hlt
    by_contra hover
    have hle : (2 : ℚ) ^ (52 : ℤ) ≤ m := by
      exact_mod_cast hfull.resolve_right (by omega)
    have hsize : (2 : ℚ) ^ (1024 : ℤ) ≤ m * 2 ^ e :=
      calc (2 : ℚ) ^ (1024 : ℤ) ≤ 2 ^ (52 + e) := two_zpow_le (by omega)
        _ = 2 ^ (52 : ℤ) * 2 ^ e := two_zpow_add _ _
        _ ≤ m * 2 ^ e := mul_le_mul_of_nonneg_right hle (two_zpow_pos e).le
    linarith
  · intro hle
    have hlt : (m : ℚ) < 2 ^ (53 : ℤ) := by exact_mod_cast hdigits
    calc (m : ℚ) * 2 ^ e < 2 ^ (53 : ℤ) * 2 ^ e := mul_lt_mul_of_pos_right hlt (two_zpow_pos e)
      _ = 2 ^ (53 + e) := (two_zpow_add _ _).symm
      _ ≤ 2 ^ (1024 : ℤ) := two_zpow_le (by omega)

/-- The sign stays when a double is packed. -/
theorem sign_packed (s : Sign) (exponent : BitVec 11) (mantissa : BitVec 52) :
    Sign.ofBitVec (unpackSign (packComponents Format.binary64 s exponent mantissa)) = s := by
  have hbits : unpackSign (packComponents Format.binary64 s exponent mantissa) = s.toBitVec := by
    apply BitVec.eq_of_getLsbD_eq
    intro i hi
    have hzero : i = 0 := by omega
    subst hzero
    have hfirst : (s.toBitVec ++ exponent ++ mantissa).getLsbD 63 = s.toBitVec.getLsbD 0 := by
      rw [BitVec.getLsbD_append, BitVec.getLsbD_append]
      rfl
    simp only [unpackSign, packComponents, BitVec.getLsbD_cast, BitVec.getLsbD_extractLsb]
    rw [hfirst]
    rfl
  rw [hbits]
  cases s <;> rfl

/-- The fields of a number with all its digits. -/
theorem unpack_pack_full (s : Sign) {m : ℕ} {e : ℤ} (hm : 0 < m) (hfull : 2 ^ 52 ≤ m)
    (hdigits : m < 2 ^ 53) (hlow : -1074 ≤ e) (hhigh : e ≤ 971) :
    (Float.Model.pack (.finite s m e hm)).unpack = .finite s m e hm := by
  obtain ⟨biased, hbiased⟩ := Int.eq_ofNat_of_zero_le (by omega : 0 ≤ e + 1075)
  have hexponent : (BitVec.ofNat 11 biased).toNat = biased := by
    rw [BitVec.toNat_ofNat, Nat.mod_eq_of_lt (by omega)]
  -- The exponent field lies between the two values that mean something else.
  have hnotOnes : BitVec.ofNat 11 biased ≠ -1#11 := fun heq => by
    have hnat := congrArg BitVec.toNat heq
    rw [hexponent] at hnat
    have hones : (-1#11).toNat = 2047 := rfl
    omega
  have hnotZero : BitVec.ofNat 11 biased ≠ 0#11 := fun heq => by
    have hnat := congrArg BitVec.toNat heq
    rw [hexponent] at hnat
    have hzero : (0#11).toNat = 0 := rfl
    omega
  have hlog : m.log2 + 1 = 53 := by
    have heq := (Nat.log2_eq_iff hm.ne').2 ⟨hfull, hdigits⟩
    omega
  have hmantissa : (1#1 ++ BitVec.ofNat 52 m).toNat = m := by
    rw [BitVec.toNat_append, ← Nat.shiftLeft_add_eq_or_of_lt (BitVec.isLt _)]
    simp only [BitVec.toNat_ofNat, Nat.shiftLeft_eq]
    omega
  unfold Float.Model.unpack Float.Model.pack
  simp only [UnpackedFloat.pack, Format.exponentBias, Format.binary64, Format.mantissaBits]
  norm_num
  rw [show (e + 1023 + 52).toNat = biased by omega, if_neg (by omega), if_pos hlog]
  simp only [UnpackedFloat.unpack, unpackExponent_packComponents, unpackMantissa_packComponents,
    sign_packed, hnotOnes, hnotZero, if_false, hexponent, hmantissa, Format.exponentBias]
  norm_num
  omega

/-- The fields of a number with fewer digits, which ends at the last place there is. -/
theorem unpack_pack_short (s : Sign) {m : ℕ} (hm : 0 < m) (hshort : m < 2 ^ 52) :
    (Float.Model.pack (.finite s m (-1074) hm)).unpack = .finite s m (-1074) hm := by
  have hmantissa : (BitVec.ofNat 52 m).toNat = m := by
    rw [BitVec.toNat_ofNat, Nat.mod_eq_of_lt hshort]
  have hnotZero : BitVec.ofNat 52 m ≠ 0#52 := fun heq => by
    have hnat := congrArg BitVec.toNat heq
    rw [hmantissa] at hnat
    have hzero : (0#52).toNat = 0 := rfl
    omega
  have hlog : m.log2 + 1 ≠ 53 := by
    have hlt := (Nat.log2_lt hm.ne').2 hshort
    omega
  unfold Float.Model.unpack Float.Model.pack
  simp only [UnpackedFloat.pack, Format.exponentBias, Format.binary64, Format.mantissaBits]
  norm_num
  rw [if_neg hlog]
  simp only [UnpackedFloat.unpack, unpackExponent_packComponents, unpackMantissa_packComponents,
    sign_packed, hnotZero, if_false, hmantissa, Format.exponentBias]
  rfl

/-- A regular number that is not too large is packed without loss. -/
theorem unpack_pack {u : UnpackedFloat} (h : Regular u) (hlt : |unpackedValue u| < beyond) :
    (Float.Model.pack u).unpack = u := by
  cases u with
  | notANumber => exact h.elim
  | infinity s => exact h.elim
  | zero s => cases s <;> rfl
  | finite s m e hm =>
    have hhigh := (lt_beyond_iff h).1 hlt
    obtain ⟨hdigits, hlow, hfull⟩ := h
    by_cases hshort : m < 2 ^ 52
    · have hend : e = -1074 := hfull.resolve_left (by omega)
      subst hend
      exact unpack_pack_short s hm hshort
    · exact unpack_pack_full s hm (by omega) hdigits hlow hhigh

/-- A regular number that is too large becomes infinite. -/
theorem isFinite_pack {u : UnpackedFloat} (h : Regular u) (hover : ¬ |unpackedValue u| < beyond) :
    (Float.Model.pack u).isFinite = false := by
  cases u with
  | notANumber => exact h.elim
  | infinity s => exact h.elim
  | zero s => exact absurd (abs_unpackedValue_zero s) hover
  | finite s m e hm =>
    have hhigh : 971 < e := not_le.1 fun hle => hover ((lt_beyond_iff h).2 hle)
    have hpacked : Float.Model.pack (.finite s m e hm) = Float.Model.pack (.infinity s) := by
      unfold Float.Model.pack
      simp only [UnpackedFloat.pack, Format.exponentBias, Format.binary64]
      norm_num
      intro hless
      omega
    rw [hpacked]
    cases s <;> rfl

/-- The fields of a double give so many digits, in places up to the largest. -/
theorem regular_of_unpack {x : Float.Model} {s : Sign} {m : ℕ} {e : ℤ} {hm : 0 < m}
    (hu : x.unpack = .finite s m e hm) : Regular (.finite s m e hm) ∧ e ≤ 971 := by
  have hmantissa : (@unpackMantissa Format.binary64 x.toBits.toBitVec).toNat < 2 ^ 52 :=
    BitVec.isLt _
  have hexponent : (@unpackExponent Format.binary64 x.toBits.toBitVec).toNat < 2 ^ 11 :=
    BitVec.isLt _
  unfold Float.Model.unpack UnpackedFloat.unpack at hu
  dsimp only at hu
  split at hu
  · split at hu <;> cases hu
  · rename_i hnotOnes
    split at hu
    -- An exponent field of zero: the digits have no leading one, and end at the last place.
    · rename_i hzero
      split at hu
      · cases hu
      · cases hu
        have hnat : (@unpackExponent Format.binary64 x.toBits.toBitVec).toNat = 0 := by
          rw [hzero]
          rfl
        rw [hnat]
        exact ⟨⟨by omega, by decide, .inr (by decide)⟩, by decide⟩
    -- Any other exponent field: the leading one is put back.
    · rename_i hnotZero
      cases hu
      have hpositive : (@unpackExponent Format.binary64 x.toBits.toBitVec).toNat ≠ 0 :=
        fun heq => hnotZero (BitVec.eq_of_toNat_eq heq)
      have hbelow : (@unpackExponent Format.binary64 x.toBits.toBitVec).toNat ≠ 2047 :=
        fun heq => hnotOnes (BitVec.eq_of_toNat_eq heq)
      have hdigits : (1#1 ++ @unpackMantissa Format.binary64 x.toBits.toBitVec).toNat =
          2 ^ 52 + (@unpackMantissa Format.binary64 x.toBits.toBitVec).toNat := by
        rw [BitVec.toNat_append, ← Nat.shiftLeft_add_eq_or_of_lt hmantissa]
        rfl
      have hbias : ((Format.binary64.exponentBias : ℤ) +
          (Format.binary64.mantissaBitsWithoutImplicit : ℤ)) = 1075 := by decide
      rw [hbias]
      refine ⟨⟨?_, by omega, .inl ?_⟩, by omega⟩
      · rw [hdigits]
        omega
      · rw [hdigits]
        omega

/-- What is read from the fields of a finite double is regular, and not too large. -/
theorem regular_unpack {x : Float.Model} (h : x.isFinite = true) :
    Regular x.unpack ∧ |unpackedValue x.unpack| < beyond := by
  change x.unpack.isFinite = true at h
  cases hu : x.unpack with
  | notANumber =>
    rw [hu] at h
    cases h
  | infinity s =>
    rw [hu] at h
    cases h
  | zero s => exact ⟨trivial, abs_unpackedValue_zero s⟩
  | finite s m e hm =>
    obtain ⟨hregular, hhigh⟩ := regular_of_unpack hu
    exact ⟨hregular, (lt_beyond_iff hregular).2 hhigh⟩

/-- The double is the nearest one to a number, or is not finite since the number is too large. -/
structure IsNearest (y : Float) (x : ℚ) : Prop where
  finite : y.isFinite = true ↔ |rounded x| < beyond
  denotes : y.isFinite = true → value y = rounded x

theorem Nears.isNearest {u : UnpackedFloat} {x : ℚ} (h : Nears u x) :
    IsNearest ⟨Float.Model.pack u⟩ x := by
  obtain ⟨hregular, hvalue⟩ := h
  by_cases hlt : |unpackedValue u| < beyond
  · have hunpack := unpack_pack hregular hlt
    have hfinite : (Float.Model.pack u).isFinite = true := by
      change (Float.Model.pack u).unpack.isFinite = true
      rw [hunpack]
      cases u <;> first | rfl | exact hregular.elim
    refine ⟨⟨fun _ => hvalue ▸ hlt, fun _ => hfinite⟩, fun _ => ?_⟩
    rw [Number.value, hunpack, hvalue]
  · have hover : (Float.Model.pack u).isFinite = false := isFinite_pack hregular hlt
    have hnot : ¬ (Float.Model.pack u).isFinite = true := by simp [hover]
    exact ⟨⟨fun h => absurd h hnot, fun h => absurd (hvalue ▸ h) hlt⟩, fun h => absurd h hnot⟩

variable {x y : Float}

theorem isNearest_add (hx : x.isFinite = true) (hy : y.isFinite = true) :
    IsNearest (x + y) (value x + value y) :=
  (nears_add (regular_unpack hx).1 (regular_unpack hy).1).isNearest

theorem isNearest_sub (hx : x.isFinite = true) (hy : y.isFinite = true) :
    IsNearest (x - y) (value x - value y) :=
  (nears_sub (regular_unpack hx).1 (regular_unpack hy).1).isNearest

theorem isNearest_mul (hx : x.isFinite = true) (hy : y.isFinite = true) :
    IsNearest (x * y) (value x * value y) :=
  (nears_mul (regular_unpack hx).1 (regular_unpack hy).1).isNearest

theorem isNearest_div (hx : x.isFinite = true) (hy : y.isFinite = true) (hne : value y ≠ 0) :
    IsNearest (x / y) (value x / value y) :=
  (nears_div (regular_unpack hx).1 (regular_unpack hy).1 hne).isNearest

/-- The number that a finite double denotes needs no rounding, and is not too large. -/
theorem rounded_value (hx : x.isFinite = true) : rounded (value x) = value x :=
  (regular_unpack hx).1.rounded

theorem abs_value_lt (hx : x.isFinite = true) : |value x| < beyond := (regular_unpack hx).2

theorem isNearest_value (hx : x.isFinite = true) : IsNearest x (value x) := by
  refine ⟨⟨fun _ => ?_, fun _ => hx⟩, fun _ => (rounded_value hx).symm⟩
  rw [rounded_value hx]
  exact abs_value_lt hx

/-- The sign of a finite double may be changed. -/
theorem neg_finite (hx : x.isFinite = true) : (-x).isFinite = true ∧ value (-x) = -value x := by
  have hneg : IsNearest (-x) (-value x) := by
    have hnears := (regular_unpack hx).1.neg.nears
    rw [unpackedValue_neg] at hnears
    exact hnears.isNearest
  have hrounded : rounded (-value x) = -value x := by rw [rounded_neg, rounded_value hx]
  have hfinite : (-x).isFinite = true := by
    rw [hneg.finite, hrounded, abs_neg]
    exact abs_value_lt hx
  exact ⟨hfinite, by rw [hneg.denotes hfinite, hrounded]⟩

/-! ## Conversion of naturals -/

/-- A natural of at most fifty-three digits is kept. -/
theorem rounded_natCast {n : ℕ} (h : n < 2 ^ 53) : rounded n = n := by
  have hkept := roundedSize_of_digits h (by norm_num : (-1074 : ℤ) ≤ 0)
  rw [zpow_zero, mul_one] at hkept
  rw [rounded_of_nonneg (Nat.cast_nonneg n), hkept]

theorem isNearest_toFloat (w : UInt64) : IsNearest w.toFloat w.toNat := by
  have hnears := nears_normalize w.toNat 0 .positive
  simp only [Int.cast_natCast, zpow_zero, mul_one] at hnears
  exact hnears.isNearest

/-- A short natural is converted as a word, and multiplied by one. -/
theorem isNearest_ofNat_short {n : ℕ} (h : n < 2 ^ 53) : IsNearest (Float.ofNat n) n := by
  have hconverted : Float.ofNat n = n.toUInt64.toFloat * Float.ofBits 0x3ff0000000000000 := by
    unfold Float.ofNat
    change Float.ofScientific n false 0 = _
    unfold Float.ofScientific
    rw [dif_pos ⟨h, by decide⟩]
    rfl
  have hone : value (Float.ofBits 0x3ff0000000000000) = 1 := by
    have hunpack : (Float.ofBits 0x3ff0000000000000).toModel.unpack =
        .finite .positive (2 ^ 52) (-52) (by decide) := rfl
    rw [value, hunpack, unpackedValue, signed]
    norm_num
  have hword := isNearest_toFloat n.toUInt64
  have hnat : n.toUInt64.toNat = n := by
    simp only [Nat.toUInt64_eq, UInt64.toNat_ofNat']
    omega
  rw [hnat] at hword
  have hkept := rounded_natCast h
  have hfinite : n.toUInt64.toFloat.isFinite = true := by
    have hcast : (n : ℚ) < 2 ^ (53 : ℤ) := by exact_mod_cast h
    rw [hword.finite, hkept, abs_of_nonneg (Nat.cast_nonneg n)]
    exact lt_of_lt_of_le hcast (two_zpow_le (by norm_num))
  have hproduct := isNearest_mul hfinite
    (by decide +kernel : (Float.ofBits 0x3ff0000000000000).isFinite = true)
  rw [hword.denotes hfinite, hkept, hone, mul_one] at hproduct
  rw [hconverted]
  exact hproduct

/-- A long natural is shifted first, and multiplied by the zeroth power of ten. -/
theorem ofScientific_zero {n : ℕ} (h : n ≠ 0) :
    UnpackedFloat.ofScientific Format.binary64 n 0 =
      roundWithAccuracy Format.binary64 .positive (n <<< Format.binary64.mantissaBits)
        (-Format.binary64.mantissaBits) .exact := by
  unfold UnpackedFloat.ofScientific
  rw [dif_neg h, if_neg (by decide), if_neg (by simp), if_pos (le_refl 0)]
  simp only [UnpackedFloat.mul, Int.toNat_zero, pow_zero, mul_one, add_zero]
  rfl

theorem isNearest_ofNat_long {n : ℕ} (h : 2 ^ 53 ≤ n) : IsNearest (Float.ofNat n) n := by
  have hne : n ≠ 0 := by omega
  have hbits : Format.binary64.mantissaBits = 53 := rfl
  have hconverted : Float.ofNat n = ⟨Float.Model.ofScientific n 0⟩ := by
    unfold Float.ofNat
    change Float.ofScientific n false 0 = _
    unfold Float.ofScientific
    rw [dif_neg (by omega)]
    rfl
  have hroom : (-53 : ℤ) ≤ Format.binary64.targetExponent (totalExponent (n <<< 53) (-53)) := by
    rw [targetExponent_totalExponent, log2_shiftLeft hne 53]
    omega
  have hnears := nears_roundWithAccuracy .positive (Shows.exact (n <<< 53)) (Int.floor_natCast _)
    hroom
  rw [shiftLeft_mul_zpow n 53 (by norm_num : ((53 : ℕ) : ℤ) + -53 = 0), zpow_zero, mul_one] at hnears
  have hscientific := ofScientific_zero hne
  rw [hbits] at hscientific
  rw [hconverted, Float.Model.ofScientific, hscientific]
  exact hnears.isNearest

/-- A natural is converted to the nearest double. -/
theorem isNearest_ofNat (n : ℕ) : IsNearest (Float.ofNat n) n := by
  by_cases h : n < 2 ^ 53
  · exact isNearest_ofNat_short h
  · exact isNearest_ofNat_long (not_lt.1 h)

/-! ## Sizes of results -/

/-- What lies between two finite doubles is rounded to a finite one between them. -/
theorem IsNearest.between {a b : Float} {z : ℚ} (h : IsNearest y z) (ha : a.isFinite = true)
    (hb : b.isFinite = true) (hle : value a ≤ z) (hge : z ≤ value b) :
    y.isFinite = true ∧ value a ≤ value y ∧ value y ≤ value b := by
  have hlow := rounded_mono hle
  have hhigh := rounded_mono hge
  rw [rounded_value ha] at hlow
  rw [rounded_value hb] at hhigh
  have hfirst := abs_lt.1 (abs_value_lt ha)
  have hlast := abs_lt.1 (abs_value_lt hb)
  have hfinite := h.finite.2 (abs_lt.2 ⟨by linarith, by linarith⟩)
  rw [h.denotes hfinite]
  exact ⟨hfinite, hlow, hhigh⟩

/-- What is no larger than a number that is not too large is not too large either. -/
theorem IsNearest.smaller {z w : ℚ} (hy : IsNearest y z) (hx : IsNearest x w)
    (hfinite : x.isFinite = true) (hle : |z| ≤ |w|) : y.isFinite = true := by
  have hmono := rounded_mono hle
  rw [← abs_rounded, ← abs_rounded] at hmono
  exact hy.finite.2 (lt_of_le_of_lt hmono (hx.finite.1 hfinite))

/-- Twice a finite double has no more digits than it. -/
theorem rounded_twice (hx : x.isFinite = true) : rounded (2 * value x) = 2 * value x := by
  have hregular := (regular_unpack hx).1
  unfold value
  generalize x.toModel.unpack = u at hregular
  cases u with
  | finite s m e hm =>
    obtain ⟨hdigits, hlow, -⟩ := hregular
    have htwice : 2 * unpackedValue (.finite s m e hm) = signed s (m * 2 ^ (e + 1)) := by
      rw [unpackedValue, two_zpow_add, zpow_one]
      cases s <;> simp only [signed] <;> ring
    have hpos : (0 : ℚ) ≤ m * 2 ^ (e + 1) := mul_nonneg (Nat.cast_nonneg m) (two_zpow_pos _).le
    rw [htwice, rounded_signed, rounded_of_nonneg hpos, roundedSize_of_digits hdigits (by omega)]
  | _ => simp [unpackedValue, rounded]

/-! ## Operands that are not finite -/

/-- What is packed as an infinity or as no number is not finite. -/
theorem finite_of_pack {u : UnpackedFloat} (h : (Float.Model.pack u).isFinite = true) :
    u.isFinite = true := by
  cases u with
  | infinity s => cases s <;> cases h
  | notANumber => cases h
  | _ => rfl

/-- An infinity with another sign is one still. -/
theorem finite_of_neg (h : (-x).isFinite = true) : x.isFinite = true := by
  have hneg : (UnpackedFloat.neg x.toModel.unpack).isFinite = true := finite_of_pack h
  change x.toModel.unpack.isFinite = true
  cases hx : x.toModel.unpack <;> rw [hx] at hneg <;> first | rfl | cases hneg

/-- An infinity is left of a sum, or no number if another infinity is added. -/
theorem finite_of_add (h : (x + y).isFinite = true) : x.isFinite = true := by
  have hsum : (UnpackedFloat.add Format.binary64 x.toModel.unpack y.toModel.unpack).isFinite =
      true := finite_of_pack h
  change x.toModel.unpack.isFinite = true
  cases hx : x.toModel.unpack <;> cases hy : y.toModel.unpack <;> rw [hx, hy] at hsum <;>
    first | rfl | cases hsum | skip
  case infinity.infinity s t => cases s <;> cases t <;> cases hsum

theorem finite_of_sub (h : (x - y).isFinite = true) : x.isFinite = true := by
  have hsum : (UnpackedFloat.sub Format.binary64 x.toModel.unpack y.toModel.unpack).isFinite =
      true := finite_of_pack h
  change x.toModel.unpack.isFinite = true
  cases hx : x.toModel.unpack <;> cases hy : y.toModel.unpack <;> rw [hx, hy] at hsum <;>
    first | rfl | cases hsum | skip
  case infinity.infinity s t => cases s <;> cases t <;> cases hsum

/-- A product is not finite when its second factor is not. -/
theorem finite_of_mul (h : (x * y).isFinite = true) : y.isFinite = true := by
  have hproduct : (UnpackedFloat.mul Format.binary64 x.toModel.unpack y.toModel.unpack).isFinite =
      true := finite_of_pack h
  change y.toModel.unpack.isFinite = true
  cases hx : x.toModel.unpack <;> cases hy : y.toModel.unpack <;> rw [hx, hy] at hproduct <;>
    first | rfl | cases hproduct

theorem finite_of_half (h : (x / 2).isFinite = true) : x.isFinite = true := by
  have hquotient : (UnpackedFloat.div Format.binary64 x.toModel.unpack
      (2 : Float).toModel.unpack).isFinite = true := finite_of_pack h
  have htwo : (2 : Float).toModel.unpack = .finite .positive (2 ^ 52) (-51) (by decide) := rfl
  rw [htwo] at hquotient
  change x.toModel.unpack.isFinite = true
  cases hx : x.toModel.unpack <;> rw [hx] at hquotient <;> first | rfl | cases hquotient

/-! ## Halves -/

theorem finite_zero : (0 : Float).isFinite = true ∧ value 0 = 0 := ⟨by decide +kernel, rfl⟩

theorem finite_two : (2 : Float).isFinite = true ∧ value 2 = 2 := by
  have hnear : IsNearest 2 ((2 : ℕ) : ℚ) := isNearest_ofNat 2
  have hkept : rounded ((2 : ℕ) : ℚ) = 2 := rounded_natCast (by norm_num)
  have hfinite : (2 : Float).isFinite = true := by decide +kernel
  exact ⟨hfinite, by rw [hnear.denotes hfinite, hkept]⟩

theorem isNearest_half (hx : x.isFinite = true) : IsNearest (x / 2) (value x / 2) := by
  have hnear := isNearest_div hx finite_two.1 (by rw [finite_two.2]; norm_num)
  rwa [finite_two.2] at hnear

/-- Half of a finite double is finite. -/
theorem half_finite (hx : x.isFinite = true) :
    (x / 2).isFinite = true ∧ value (x / 2) = rounded (value x / 2) := by
  have hhalf := isNearest_half hx
  have hless : |value x / 2| ≤ |value x| := by
    have hpos := abs_nonneg (value x)
    rw [abs_div, abs_two]
    linarith
  have hfinite := hhalf.smaller (isNearest_value hx) hx hless
  exact ⟨hfinite, hhalf.denotes hfinite⟩

end LandPattern.Number
