import LandPattern.Proofs.Number.Doubles
import LandPattern.Value.Order

/-!
# The order of doubles

Doubles are compared by their places and then by their digits, which is the order of the numbers
that they denote. The infinities lie below and above all numbers, the two zeros are equal, and what
is no number has no place in the order. An integer that is compared with a double is converted to
the nearest double first, so that its own place is kept only if it is a double itself.
-/

namespace LandPattern.Number

open Float.Model (UnpackedFloat)

/-! ## Numbers and infinities -/

/-- A number, or what lies below or above all numbers. -/
abbrev Extended := WithBot (WithTop ℚ)

/-- A number among the infinities. -/
def extend (q : ℚ) : Extended := ((q : WithTop ℚ) : Extended)

theorem extend_lt_extend {q r : ℚ} : extend q < extend r ↔ q < r := by
  rw [extend, extend, WithBot.coe_lt_coe, WithTop.coe_lt_coe]

theorem extend_inj {q r : ℚ} : extend q = extend r ↔ q = r := by
  rw [extend, extend, WithBot.coe_inj, WithTop.coe_inj]

theorem bot_lt_extend (q : ℚ) : ⊥ < extend q := WithBot.bot_lt_coe _

theorem extend_lt_top (q : ℚ) : extend q < ⊤ := WithBot.coe_lt_coe.2 (WithTop.coe_lt_top q)

/-- What keeps the order keeps how two of its arguments compare. -/
theorem compare_of_strictMono {α β : Type} [LinearOrder α] [LinearOrder β] {f : α → β}
    (h : StrictMono f) (a b : α) : compare (f a) (f b) = compare a b := by
  rw [← cmp_eq_compare, ← cmp_eq_compare, h.cmp_map_eq]

theorem compare_extend (q r : ℚ) : compare (extend q) (extend r) = compare q r :=
  compare_of_strictMono (fun _ _ => extend_lt_extend.2) q r

theorem compare_neg_neg (q r : ℚ) : compare (-q) (-r) = (compare q r).swap := by
  rw [← cmp_eq_compare, ← cmp_eq_compare, cmp_swap]
  exact StrictAnti.cmp_map_eq (fun _ _ => neg_lt_neg) q r

/-- What an unpacked double denotes; nothing, when it is no number. -/
def unpackedExtended? : UnpackedFloat → Option Extended
  | .notANumber => none
  | .infinity .negative => some ⊥
  | .infinity .positive => some ⊤
  | u => some (extend (unpackedValue u))

/-- What a double denotes; nothing, when it is no number. -/
def extended? (x : Float) : Option Extended := unpackedExtended? x.toModel.unpack

theorem extended?_of_finite {x : Float} (h : x.isFinite = true) :
    extended? x = some (extend (value x)) := by
  change x.toModel.unpack.isFinite = true at h
  unfold extended? value
  cases hu : x.toModel.unpack with
  | notANumber =>
    rw [hu] at h
    cases h
  | infinity s =>
    rw [hu] at h
    cases h
  | zero s => rfl
  | finite s m e hm => rfl

/-- Every double but what is no number denotes something. -/
theorem exists_extended? {x : Float} (h : x.isNaN = false) : ∃ p, extended? x = some p := by
  change x.toModel.unpack.isNaN = false at h
  unfold extended?
  cases hu : x.toModel.unpack with
  | notANumber =>
    rw [hu] at h
    cases h
  | infinity s => cases s <;> exact ⟨_, rfl⟩
  | zero s => exact ⟨_, rfl⟩
  | finite s m e hm => exact ⟨_, rfl⟩

/-! ## Comparing unpacked doubles -/

section

variable {s t : UnpackedFloat.Sign} {m n : ℕ} {e f : ℤ} {hm : 0 < m} {hn : 0 < n}

/-- A later last place means a larger size. -/
theorem size_lt (h : Regular (.finite s m e hm)) (ho : Regular (.finite t n f hn)) (hlt : e < f) :
    (m : ℚ) * 2 ^ e < n * 2 ^ f := by
  obtain ⟨hdigits, hlow, -⟩ := h
  obtain ⟨-, -, hfull⟩ := ho
  have hfirst : (m : ℚ) < 2 ^ (53 : ℤ) := by exact_mod_cast hdigits
  have hlast : (2 : ℚ) ^ (52 : ℤ) ≤ n := by exact_mod_cast hfull.resolve_right (by omega)
  calc (m : ℚ) * 2 ^ e < 2 ^ (53 : ℤ) * 2 ^ e := mul_lt_mul_of_pos_right hfirst (two_zpow_pos e)
    _ = 2 ^ (53 + e) := (two_zpow_add _ _).symm
    _ ≤ 2 ^ (52 + f) := two_zpow_le (by omega)
    _ = 2 ^ (52 : ℤ) * 2 ^ f := two_zpow_add _ _
    _ ≤ n * 2 ^ f := mul_le_mul_of_nonneg_right hlast (two_zpow_pos f).le

/-- Sizes are compared by their last places, and by their digits where these agree. -/
theorem compare_sizes (h : Regular (.finite s m e hm)) (ho : Regular (.finite t n f hn)) :
    compare ((m : ℚ) * 2 ^ e) (n * 2 ^ f) = (compare e f).then (compare m n) := by
  rcases lt_trichotomy e f with hlt | rfl | hgt
  · rw [compare_lt_iff_lt.2 hlt, compare_lt_iff_lt.2 (size_lt h ho hlt)]
    rfl
  · have hscaled : StrictMono fun k : ℕ => (k : ℚ) * 2 ^ e := fun _ _ hless =>
      mul_lt_mul_of_pos_right (Nat.cast_lt.2 hless) (two_zpow_pos e)
    rw [compare_eq_iff_eq.2 (rfl : e = e)]
    exact compare_of_strictMono hscaled m n
  · rw [compare_gt_iff_gt.2 hgt, compare_gt_iff_gt.2 (size_lt ho h hgt)]
    rfl

theorem size_pos (hm : 0 < m) (e : ℤ) : (0 : ℚ) < m * 2 ^ e :=
  mul_pos (Nat.cast_pos.2 hm) (two_zpow_pos e)

/-- Regular doubles other than zero are compared as the numbers that they denote. -/
theorem compare_finite (h : Regular (.finite s m e hm)) (ho : Regular (.finite t n f hn)) :
    (UnpackedFloat.finite s m e hm).compare (.finite t n f hn) =
      some (compare (unpackedValue (.finite s m e hm)) (unpackedValue (.finite t n f hn))) := by
  have hfirst := size_pos hm e
  have hlast := size_pos hn f
  cases s <;> cases t
  · -- Two negative numbers are ordered against their sizes.
    change some ((compare e f).then (compare m n)).swap =
      some (compare (-(m * 2 ^ e : ℚ)) (-(n * 2 ^ f)))
    rw [← compare_sizes h ho, compare_neg_neg]
  · have hlt : -(m * 2 ^ e : ℚ) < n * 2 ^ f := by linarith
    exact congrArg some (compare_lt_iff_lt.2 hlt).symm
  · have hgt : -(n * 2 ^ f : ℚ) < m * 2 ^ e := by linarith
    exact congrArg some (compare_gt_iff_gt.2 hgt).symm
  · exact congrArg some (compare_sizes h ho).symm

/-- Zero, of either sign, is compared as the number. -/
theorem compare_zero_finite (s : UnpackedFloat.Sign) :
    (UnpackedFloat.zero s).compare (.finite t n f hn) =
      some (compare 0 (unpackedValue (.finite t n f hn))) := by
  have hlast := size_pos hn f
  cases t
  · have hgt : -(n * 2 ^ f : ℚ) < 0 := by linarith
    exact congrArg some (compare_gt_iff_gt.2 hgt).symm
  · exact congrArg some (compare_lt_iff_lt.2 hlast).symm

theorem compare_finite_zero (t : UnpackedFloat.Sign) :
    (UnpackedFloat.finite s m e hm).compare (.zero t) =
      some (compare (unpackedValue (.finite s m e hm)) 0) := by
  have hfirst := size_pos hm e
  cases s
  · have hlt : -(m * 2 ^ e : ℚ) < 0 := by linarith
    exact congrArg some (compare_lt_iff_lt.2 hlt).symm
  · exact congrArg some (compare_gt_iff_gt.2 hfirst).symm

end

/-- What is read from the fields of a double: regular, if it has digits. -/
def Legible (u : UnpackedFloat) : Prop :=
  ∀ {s m e hm}, u = .finite s m e hm → Regular u

/-- Unpacked doubles are compared as the numbers and infinities that they denote. -/
theorem compare_unpacked {u v : UnpackedFloat} (hu : Legible u) (hv : Legible v) :
    u.compare v = Option.map₂ compare (unpackedExtended? u) (unpackedExtended? v) := by
  have hbot (q : ℚ) : compare ⊥ (extend q) = .lt := compare_lt_iff_lt.2 (bot_lt_extend q)
  have htop (q : ℚ) : compare ⊤ (extend q) = .gt := compare_gt_iff_gt.2 (extend_lt_top q)
  have hover (q : ℚ) : compare (extend q) ⊥ = .gt := compare_gt_iff_gt.2 (bot_lt_extend q)
  have hunder (q : ℚ) : compare (extend q) ⊤ = .lt := compare_lt_iff_lt.2 (extend_lt_top q)
  cases u with
  | notANumber => rfl
  | infinity s =>
    cases v with
    | notANumber => cases s <;> rfl
    | infinity t => cases s <;> cases t <;> rfl
    | zero t => cases s <;> simp [unpackedExtended?, UnpackedFloat.compare, hbot, htop]
    | finite t n f hn => cases s <;> simp [unpackedExtended?, UnpackedFloat.compare, hbot, htop]
  | zero s =>
    cases v with
    | notANumber => rfl
    | infinity t => cases t <;> simp [unpackedExtended?, UnpackedFloat.compare, hover, hunder]
    | zero t => simp [unpackedExtended?, UnpackedFloat.compare, unpackedValue]
    | finite t n f hn =>
      simp [unpackedExtended?, compare_zero_finite, compare_extend, unpackedValue]
  | finite s m e hm =>
    cases v with
    | notANumber => rfl
    | infinity t => cases t <;> simp [unpackedExtended?, UnpackedFloat.compare, hover, hunder]
    | zero t => simp [unpackedExtended?, compare_finite_zero, compare_extend, unpackedValue]
    | finite t n f hn => simp [unpackedExtended?, compare_finite (hu rfl) (hv rfl), compare_extend]

/-! ## Comparing doubles -/

variable {x y : Float}

theorem legible_unpack (x : Float) : Legible x.toModel.unpack :=
  fun h => h ▸ (regular_of_unpack h).1

theorem compare_doubles (x y : Float) :
    x.toModel.unpack.compare y.toModel.unpack = Option.map₂ compare (extended? x) (extended? y) :=
  compare_unpacked (legible_unpack x) (legible_unpack y)

theorem lt_iff (x y : Float) :
    x < y ↔ Option.map₂ compare (extended? x) (extended? y) = some .lt := by
  rw [← compare_doubles]
  simp only [LT.lt, Float.lt, Float.Model.lt, UnpackedFloat.lt, decide_eq_true_eq, beq_iff_eq]

theorem beq_eq (x y : Float) :
    (x == y) = (Option.map₂ compare (extended? x) (extended? y) == some .eq) := by
  rw [← compare_doubles]
  rfl

variable {p q : Extended}

theorem lt_iff_of_extended (hx : extended? x = some p) (hy : extended? y = some q) :
    x < y ↔ p < q := by
  rw [lt_iff, hx, hy, Option.map₂_some_some, Option.some_inj, compare_lt_iff_lt]

theorem beq_of_extended (hx : extended? x = some p) (hy : extended? y = some q) :
    (x == y) = decide (p = q) := by
  rw [beq_eq, hx, hy, Option.map₂_some_some, Bool.eq_iff_iff, beq_iff_eq, Option.some_inj,
    compare_eq_iff_eq, decide_eq_true_eq]

/-- Doubles are ordered as the numbers and infinities that they denote. -/
theorem order?_of_extended (hx : extended? x = some p) (hy : extended? y = some q) :
    order? x y = some (compare p q) := by
  rw [order?, beq_of_extended hx hy]
  rcases lt_trichotomy p q with hlt | rfl | hgt
  · rw [if_pos ((lt_iff_of_extended hx hy).2 hlt), compare_lt_iff_lt.2 hlt]
  · rw [if_neg (mt (lt_iff_of_extended hx hy).1 (lt_irrefl p)), if_pos (decide_eq_true rfl),
      compare_eq_iff_eq.2 rfl]
  · rw [if_neg (mt (lt_iff_of_extended hx hy).1 hgt.not_gt), decide_eq_false hgt.ne',
      if_neg Bool.false_ne_true, if_pos ((lt_iff_of_extended hy hx).2 hgt), compare_gt_iff_gt.2 hgt]

/-! ## Integers as doubles -/

theorem IsNearest.neg {z : ℚ} (h : IsNearest y z) (hy : y.isFinite = true) :
    IsNearest (-y) (-z) := by
  obtain ⟨hfinite, hvalue⟩ := neg_finite hy
  have hsmall := h.finite.1 hy
  refine ⟨⟨fun _ => ?_, fun _ => hfinite⟩, fun _ => ?_⟩
  · rwa [rounded_neg, abs_neg]
  · rw [hvalue, rounded_neg, h.denotes hy]

/-- What two powers of two enclose is rounded to what they enclose. -/
theorem abs_rounded_le_two_zpow {z : ℚ} {k : ℤ} (hk : -1074 ≤ k) (h : |z| ≤ 2 ^ k) :
    |rounded z| ≤ 2 ^ k := by
  have hpower : rounded (2 ^ k) = 2 ^ k := by
    have hkept := roundedSize_of_digits (n := 1) (by norm_num) hk
    rw [Nat.cast_one, one_mul] at hkept
    rw [rounded_of_nonneg (two_zpow_pos k).le, hkept]
  have hmono := rounded_mono h
  rwa [← abs_rounded, hpower] at hmono

/-- An integer of at most fifty-three digits is kept, and so is the first one with more. -/
theorem rounded_intCast {n : ℤ} (h : n.natAbs ≤ 2 ^ 53) : rounded n = n := by
  have hsize {m : ℕ} (hm : m ≤ 2 ^ 53) : rounded (m : ℚ) = m := by
    rcases hm.lt_or_eq with hshort | rfl
    · exact rounded_natCast hshort
    · have hkept := roundedSize_of_digits (n := 1) (e := 53) (by norm_num) (by norm_num)
      have hpower : ((2 ^ 53 : ℕ) : ℚ) = (1 : ℕ) * 2 ^ (53 : ℤ) := by norm_num
      rw [rounded_of_nonneg (Nat.cast_nonneg _), hpower, hkept]
  obtain ⟨m, rfl | rfl⟩ := n.eq_nat_or_neg
  · exact_mod_cast hsize (by omega)
  · rw [Int.cast_neg, rounded_neg, Int.cast_natCast, hsize (by omega)]

/-- The conversion of an integer gives the nearest double. -/
theorem ofInt_finite {n : ℤ} (h : InRange n) :
    (Float.ofInt n).isFinite = true ∧ value (Float.ofInt n) = rounded n := by
  simp only [InRange, minInt, maxInt] at h
  have hsmall {m : ℕ} (hm : m ≤ 2 ^ 63) : (Float.ofNat m).isFinite = true := by
    have hsize : |(m : ℚ)| ≤ 2 ^ (63 : ℤ) := by
      rw [abs_of_nonneg (Nat.cast_nonneg m)]
      exact_mod_cast hm
    refine (isNearest_ofNat m).finite.2 ((abs_rounded_le_two_zpow (by norm_num) hsize).trans_lt ?_)
    exact zpow_lt_zpow_right₀ (by norm_num) (by norm_num)
  cases n with
  | ofNat m =>
    have hm : m ≤ 2 ^ 63 := by
      have hcast : (Int.ofNat m) = m := rfl
      omega
    exact ⟨hsmall hm, (isNearest_ofNat m).denotes (hsmall hm)⟩
  | negSucc m =>
    have hm : m + 1 ≤ 2 ^ 63 := by omega
    have hfinite := (neg_finite (hsmall hm)).1
    have hcast : ((Int.negSucc m : ℤ) : ℚ) = -((m + 1 : ℕ) : ℚ) := by
      rw [Int.cast_negSucc]
    rw [hcast]
    exact ⟨hfinite, ((isNearest_ofNat (m + 1)).neg (hsmall hm)).denotes hfinite⟩

/-- The nearest double, where there are no largest ones: the infinities are kept. -/
def asDouble : Extended → Extended := WithBot.map (WithTop.map rounded)

theorem asDouble_extend (q : ℚ) : asDouble (extend q) = extend (rounded q) := rfl

theorem asDouble_mono : Monotone asDouble :=
  Monotone.withBot_map (Monotone.withTop_map fun _ _ => rounded_mono)

/-- A double is its own nearest one. -/
theorem asDouble_of_extended? (h : extended? x = some p) : asDouble p = p := by
  cases hu : x.toModel.unpack with
  | notANumber =>
    rw [extended?, hu] at h
    cases h
  | infinity s =>
    rw [extended?, hu] at h
    cases s <;> cases h <;> rfl
  | zero s =>
    rw [extended?, hu] at h
    cases h
    change extend (rounded 0) = extend 0
    rw [rounded_of_nonneg le_rfl, roundedSize_zero]
  | finite s m e hm =>
    have hregular := (regular_of_unpack hu).1
    rw [extended?, hu] at h
    cases h
    rw [asDouble_extend, hregular.rounded]

theorem extended?_ofInt {n : ℤ} (h : InRange n) :
    extended? (Float.ofInt n) = some (asDouble (extend n)) := by
  obtain ⟨hfinite, hvalue⟩ := ofInt_finite h
  rw [extended?_of_finite hfinite, hvalue, asDouble_extend]

end LandPattern.Number
