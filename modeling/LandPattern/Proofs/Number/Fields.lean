import LandPattern.Proofs.Number.Doubles
import LandPattern.Proofs.Number.Shortest

/-!
# The fields of finite doubles

A finite double is a sign and a number of steps, and no two doubles have both in common. The zeros
are two doubles, apart by the sign.
-/

namespace LandPattern.Number

open Float.Model.UnpackedFloat

/-- The number of steps that an exponent field and a fraction field stand for. -/
def fieldSteps (exponent fraction : ℕ) : ℕ :=
  if exponent = 0 then fraction else (2 ^ 52 + fraction) * 2 ^ (exponent - 1)

variable {x y : Float} {negative : Bool} {steps : ℕ}

/-- A finite double is its three fields, one behind the other, and the exponent is not the last
one. -/
theorem fields_of_ofFloat (h : Binary.ofFloat x = .finite negative steps) :
    ∃ exponent fraction, exponent < 2047 ∧ fraction < 2 ^ 52 ∧
      steps = fieldSteps exponent fraction ∧
      x.toBits.toNat = (if negative then 1 else 0) * 2 ^ 63 + exponent * 2 ^ 52 + fraction := by
  have hbits : x.toBits.toNat < 2 ^ 64 := x.toBits.toNat_lt
  have hsign : ∀ sign : Bool, sign = (x.toBits.toNat / 2 ^ 63 % 2 == 1) →
      (if sign = true then 1 else 0) = x.toBits.toNat / 2 ^ 63 := by
    rintro sign rfl
    split
    · rename_i hone
      have := beq_iff_eq.1 hone
      omega
    · rename_i hzero
      have := mt beq_iff_eq.2 hzero
      omega
  unfold Binary.ofFloat at h
  dsimp only at h
  refine ⟨x.toBits.toNat / 2 ^ 52 % 2 ^ 11, x.toBits.toNat % 2 ^ 52, ?_⟩
  split at h
  · split at h <;> cases h
  · rename_i hlast
    refine ⟨by omega, by omega, ?_⟩
    unfold fieldSteps
    split at h
    · rename_i hzero
      rw [if_pos hzero]
      cases h
      refine ⟨rfl, ?_⟩
      rw [hsign _ rfl]
      omega
    · rename_i hother
      rw [if_neg hother]
      cases h
      refine ⟨rfl, ?_⟩
      rw [hsign _ rfl]
      omega

/-- A double that is finite is a sign and a number of steps. -/
theorem ofFloat_of_isFinite (h : x.isFinite = true) :
    ∃ negative steps, Binary.ofFloat x = .finite negative steps := by
  unfold Binary.ofFloat
  dsimp only
  split
  · rename_i hlast
    exfalso
    have hexponent : @unpackExponent Float.Model.Format.binary64 x.toModel.toBits.toBitVec = -1#_ := by
      refine BitVec.eq_of_toNat_eq ?_
      have hnat : (@unpackExponent Float.Model.Format.binary64 x.toModel.toBits.toBitVec).toNat =
          x.toBits.toNat / 2 ^ 52 % 2 ^ 11 := by
        rw [← Nat.shiftRight_eq_div_pow]
        rfl
      rw [hnat, hlast]
      rfl
    change (unpack Float.Model.Format.binary64 x.toModel.toBits.toBitVec).isFinite = true at h
    unfold unpack at h
    rw [if_pos hexponent] at h
    split at h <;> cases h
  · split <;> exact ⟨_, _, rfl⟩

/-- The fields can be read off the number of steps. -/
theorem fieldSteps_inj {exponent fraction exponent' fraction' : ℕ} (hf : fraction < 2 ^ 52)
    (hf' : fraction' < 2 ^ 52) (h : fieldSteps exponent fraction = fieldSteps exponent' fraction') :
    exponent = exponent' ∧ fraction = fraction' := by
  have hlog : ∀ {e f : ℕ}, f < 2 ^ 52 → 0 < e → (fieldSteps e f).log2 = 51 + e := by
    intro e f hless hpos
    have hdigits : (2 ^ 52 + f) * 2 ^ (e - 1) = fieldSteps e f := by
      rw [fieldSteps, if_neg (by omega)]
    have hplace : 51 + e = 52 + (e - 1) := by omega
    have hone := Nat.two_pow_pos (e - 1)
    rw [hplace, Nat.log2_eq_iff (by rw [← hdigits]; positivity), ← hdigits, Nat.pow_add,
      Nat.add_right_comm, Nat.pow_add]
    exact ⟨Nat.mul_le_mul_right _ (by omega), Nat.mul_lt_mul_of_pos_right (by omega) hone⟩
  have hsmall : ∀ {f : ℕ}, f < 2 ^ 52 → (fieldSteps 0 f).log2 < 52 := by
    intro f hless
    rcases Nat.eq_zero_or_pos f with rfl | hpos
    · decide
    · exact (Nat.log2_lt hpos.ne').2 hless
  rcases Nat.eq_zero_or_pos exponent with rfl | hpos
  · have hzero : exponent' = 0 := by
      by_contra hne
      have hbig := hlog hf' (Nat.pos_of_ne_zero hne)
      have hless := hsmall hf
      rw [h] at hless
      omega
    subst hzero
    exact ⟨rfl, h⟩
  · have hpos' : 0 < exponent' := by
      by_contra hnot
      obtain rfl : exponent' = 0 := by omega
      have hbig := hlog hf hpos
      have hless := hsmall hf'
      rw [← h] at hless
      omega
    have heq : exponent = exponent' := by
      have hfirst := hlog hf hpos
      have hsecond := hlog hf' hpos'
      rw [h] at hfirst
      omega
    subst heq
    rw [fieldSteps, fieldSteps, if_neg hpos.ne', if_neg hpos.ne'] at h
    have hdigits := Nat.eq_of_mul_eq_mul_right (Nat.two_pow_pos _) h
    exact ⟨rfl, by omega⟩

/-- A double is known by its sign and its number of steps. -/
theorem eq_of_ofFloat (hx : Binary.ofFloat x = .finite negative steps)
    (hy : Binary.ofFloat y = .finite negative steps) : x = y := by
  obtain ⟨exponent, fraction, -, hfraction, hsteps, hbits⟩ := fields_of_ofFloat hx
  obtain ⟨exponent', fraction', -, hfraction', hsteps', hbits'⟩ := fields_of_ofFloat hy
  obtain ⟨rfl, rfl⟩ := fieldSteps_inj hfraction hfraction' (hsteps.symm.trans hsteps')
  have heq : x.toBits = y.toBits := UInt64.toNat_inj.1 (hbits.trans hbits'.symm)
  obtain ⟨⟨bits, valid⟩⟩ := x
  obtain ⟨⟨bits', valid'⟩⟩ := y
  obtain rfl : bits = bits' := heq
  rfl

/-- The number of steps of a double, if it is not zero, is that of a double. -/
theorem representable_of_ofFloat (h : Binary.ofFloat x = .finite negative steps)
    (hpos : 0 < steps) : Representable steps := by
  obtain ⟨exponent, fraction, hexponent, hfraction, hsteps, -⟩ := fields_of_ofFloat h
  have hbounded : ∀ {places most : ℕ}, places ≤ most → steps < 2 ^ places → steps < 2 ^ most :=
    fun hle hlt => Nat.lt_of_lt_of_le hlt (Nat.pow_le_pow_right (by decide) hle)
  unfold fieldSteps at hsteps
  split at hsteps
  · subst hsteps
    have hnone : spacingLog steps = 0 := by
      have hlog := (Nat.log2_lt hpos.ne').2 hfraction
      unfold spacingLog
      omega
    refine ⟨hpos, hbounded (by omega) hfraction, steps, by omega, ?_⟩
    rw [hnone, Nat.pow_zero, Nat.mul_one]
  · rename_i hne
    have hspacing := Nat.two_pow_pos (exponent - 1)
    have hlow : 2 ^ (51 + exponent) ≤ steps := by
      have hplace : 51 + exponent = 52 + (exponent - 1) := by omega
      rw [hsteps, hplace, Nat.pow_add]
      exact Nat.mul_le_mul_right _ (by omega)
    have hhigh : steps < 2 ^ (51 + exponent + 1) := by
      have hplace : 51 + exponent + 1 = 53 + (exponent - 1) := by omega
      rw [hsteps, hplace, Nat.pow_add]
      exact Nat.mul_lt_mul_of_pos_right (by omega) hspacing
    have hlog : steps.log2 = 51 + exponent := (Nat.log2_eq_iff hpos.ne').2 ⟨hlow, hhigh⟩
    have hplaces : spacingLog steps = exponent - 1 := by
      unfold spacingLog
      omega
    refine ⟨hpos, hbounded (by omega) hhigh, 2 ^ 52 + fraction, by omega, ?_⟩
    rw [hplaces]
    exact hsteps

end LandPattern.Number
