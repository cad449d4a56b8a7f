import LandPattern.Proofs.Run.Budget

/-!
# Progressions

The terms of a progression are the integers before its stop, in the direction of its step, one step
after another from its start on. How many there are is a quotient that is rounded up, computed in
words of 128 bits, and every term is computed in these before it is narrowed to a script integer.
Nothing is lost on the way, however far apart start and stop are.
-/

namespace LandPattern

/-! ## Words -/

namespace Number

attribute [local instance] corePow

/-- A result that a signed word of 128 bits holds, or nothing. -/
def wide? (n : Int) : Option Int :=
  if -(2 ^ (127 : Nat)) ≤ n ∧ n < 2 ^ (127 : Nat) then some n else none

/-- What the low 64 bits of an integer stand for as a signed word. -/
def narrowed (n : Int) : Int := n.bmod (2 ^ (64 : Nat))

theorem wide?_eq_some {n : Int} (h : n.natAbs ≤ 2 ^ (66 : Nat)) : wide? n = some n := by
  rw [wide?, if_pos]
  omega

theorem narrowed_eq {n : Int} (h : InRange n) : narrowed n = n := by
  simp only [InRange, minInt, maxInt] at h
  exact Int.bmod_eq_of_le (by omega) (by omega)

end Number

theorem Metered.outcome_checkLength {limits : Limits} {length : Nat} (h : length ≤ limits.collection)
    (meter : Meter) : (checkLength length).outcome limits meter = (.ok ⟨⟩, meter) := by
  simp only [checkLength, Act.outcome_bind, Act.outcome_read, if_neg (Nat.not_lt.2 h)]
  rfl

namespace Builtin.Progression

open Number (InRange wide? narrowed)

attribute [local instance] Number.corePow

variable {p : Progression}

/-- The integer that so many steps lead to from the start. -/
def term (p : Progression) (k : Nat) : Int := p.start + p.step * k

/-- The integer lies before the stop, in the direction of the step. -/
def Before (p : Progression) (n : Int) : Prop := 0 < p.step ∧ n < p.stop ∨ p.step < 0 ∧ p.stop < n

instance (p : Progression) (n : Int) : Decidable (p.Before n) :=
  inferInstanceAs (Decidable (_ ∨ _))

/-- How many terms there are, computed in words; nothing, if a result does not fit into them. -/
def lengthInWords? (p : Progression) : Option Nat := do
  let distance ← wide? (p.stop - p.start)
  if distance ≠ 0 ∧ (0 < distance ↔ 0 < p.step) then
    let size ← wide? distance.natAbs
    let each ← wide? p.step.natAbs
    let sum ← wide? (size + each)
    let numerator ← wide? (sum - 1)
    let count ← wide? (numerator.tdiv each)
    return count.toNat
  else return 0

/-- The integer that so many steps lead to, computed in words and narrowed; nothing, if a result does
not fit into them. -/
def termInWords? (p : Progression) (k : Nat) : Option Int := do
  let count ← wide? k
  let offset ← wide? (p.step * count)
  let n ← wide? (p.start + offset)
  return narrowed n

/-! ## How many terms there are -/

/-- A quotient that is rounded up counts the multiples below the numerator. -/
theorem lt_roundedUp_iff {each : Nat} (h : 0 < each) (size k : Nat) :
    k < (size + each - 1) / each ↔ each * k < size := by
  have hmore : (k + 1) * each = each * k + each := by rw [Nat.succ_mul, Nat.mul_comm]
  rw [Nat.lt_iff_add_one_le, Nat.le_div_iff_mul_le h, hmore]
  omega

theorem lt_length_iff (h : p.step ≠ 0) (k : Nat) : k < p.length ↔ p.Before (p.term k) := by
  have hround := lt_roundedUp_iff (Int.natAbs_pos.2 h) (p.stop - p.start).natAbs k
  have hoffset : ((p.step.natAbs * k : Nat) : Int) = (p.step * k).natAbs := by
    rw [Int.natAbs_mul, Int.natAbs_natCast]
  have hcount : (0 : Int) ≤ k := Int.natCast_nonneg k
  have hsign : (0 < p.step → 0 ≤ p.step * k) ∧ (p.step < 0 → p.step * k ≤ 0) :=
    ⟨fun hpos => Int.mul_nonneg (by omega) hcount,
      fun hneg => Int.mul_nonpos_of_nonpos_of_nonneg (by omega) hcount⟩
  unfold length Before term
  dsimp only
  generalize p.step * (k : Int) = offset at hoffset hsign ⊢
  split
  · rw [hround]
    omega
  · omega

/-- The bounds of a progression are script integers. -/
structure InWords (p : Progression) : Prop where
  start : InRange p.start
  stop : InRange p.stop
  step : InRange p.step

/-- Start and stop are less than 2^64 apart. -/
theorem InWords.natAbs_distance (h : p.InWords) : (p.stop - p.start).natAbs ≤ Number.maxCount := by
  obtain ⟨hstart, hstop, -⟩ := h
  simp only [InRange, Number.minInt, Number.maxInt] at hstart hstop
  simp only [Number.maxCount]
  omega

theorem InWords.natAbs_step (h : p.InWords) : p.step.natAbs ≤ 2 ^ (63 : Nat) := by
  have hstep := h.step
  simp only [InRange, Number.minInt, Number.maxInt] at hstep
  omega

/-- There are no more terms than a machine word counts. -/
theorem length_le_maxCount (h : p.InWords) (hne : p.step ≠ 0) : p.length ≤ Number.maxCount := by
  have hdistance := h.natAbs_distance
  unfold length
  dsimp only
  split
  · generalize (p.stop - p.start).natAbs = size at hdistance
    have hpos := Int.natAbs_pos.2 hne
    refine Nat.le_of_not_lt fun hmore => ?_
    have hless := (lt_roundedUp_iff hpos size Number.maxCount).1 hmore
    have hfactor := Nat.le_mul_of_pos_left Number.maxCount hpos
    omega
  · exact Nat.zero_le _

/-- No result is too large for its word when the terms are counted. -/
theorem lengthInWords?_eq (h : p.InWords) : p.lengthInWords? = some p.length := by
  have hdistance := h.natAbs_distance
  have hstep := h.natAbs_step
  unfold lengthInWords? length
  simp only [Number.maxCount] at hdistance
  dsimp only
  rw [Number.wide?_eq_some (by omega)]
  generalize p.stop - p.start = distance at hdistance
  simp only [bind, Option.bind_some]
  split
  · rename_i hsigns
    have hpos : 0 < distance.natAbs := Int.natAbs_pos.2 hsigns.1
    have hnumerator : (distance.natAbs : Int) + p.step.natAbs - 1 =
        (distance.natAbs + p.step.natAbs - 1 : Nat) := by omega
    have hquotient := Nat.div_le_self (distance.natAbs + p.step.natAbs - 1) p.step.natAbs
    rw [Number.wide?_eq_some (by omega), Option.bind_some, Number.wide?_eq_some (by omega),
      Option.bind_some, Number.wide?_eq_some (by omega), Option.bind_some,
      Number.wide?_eq_some (by omega), Option.bind_some, hnumerator, ← Int.ofNat_tdiv]
    generalize (distance.natAbs + p.step.natAbs - 1) / p.step.natAbs = count at hquotient ⊢
    rw [Number.wide?_eq_some (by omega), Option.bind_some]
    rfl
  · rfl

/-- A term lies between the start and the stop. -/
theorem inRange_term (h : p.InWords) (hne : p.step ≠ 0) {k : Nat} (hk : k < p.length) :
    InRange (p.term k) := by
  have hbefore := (lt_length_iff hne k).1 hk
  have hcount : (0 : Int) ≤ k := Int.natCast_nonneg k
  obtain ⟨hstart, hstop, -⟩ := h
  unfold Before term at *
  simp only [InRange] at hstart hstop ⊢
  rcases hbefore with ⟨hup, hless⟩ | ⟨hdown, hmore⟩
  · have hoffset : 0 ≤ p.step * k := Int.mul_nonneg (by omega) hcount
    omega
  · have hoffset : p.step * k ≤ 0 := Int.mul_nonpos_of_nonpos_of_nonneg (by omega) hcount
    omega

/-- No result is too large for its word when a term is computed, and narrowing keeps the term. -/
theorem termInWords?_eq (h : p.InWords) (hne : p.step ≠ 0) {k : Nat} (hk : k < p.length) :
    p.termInWords? k = some (p.term k) := by
  have hterm := inRange_term h hne hk
  have hkept := Number.narrowed_eq hterm
  have hcount := length_le_maxCount h hne
  have hstart := h.start
  unfold termInWords? term at *
  simp only [InRange, Number.minInt, Number.maxInt] at hterm hstart
  simp only [Number.maxCount] at hcount
  generalize hoffset : p.step * (k : Int) = offset at hterm hkept ⊢
  rw [Number.wide?_eq_some (by omega)]
  simp only [bind, Option.bind_some]
  rw [hoffset, Number.wide?_eq_some (by omega), Option.bind_some, Number.wide?_eq_some (by omega),
    Option.bind_some, hkept]
  rfl

/-! ## The list of the terms -/

/-- The terms are the integers before the stop that steps from the start lead to, in this order. -/
theorem getElem?_terms (h : p.step ≠ 0) (k : Nat) :
    p.terms[k]? = if p.Before (p.term k) then some (p.term k) else none := by
  unfold terms
  rw [List.getElem?_map]
  by_cases hk : k < p.length
  · rw [List.getElem?_range hk, if_pos ((lt_length_iff h k).1 hk)]
    rfl
  · rw [List.getElem?_eq_none (by rw [List.length_range]; omega),
      if_neg fun hbefore => hk ((lt_length_iff h k).2 hbefore)]
    rfl

/-- The call that lists the terms. -/
def listed (p : Progression) : Metered Value :=
  Builtin.range.call ⟨[.int p.start, .int p.stop, .int p.step], []⟩

/-- The meter when the terms are charged. -/
def charged (p : Progression) (meter : Meter) : Meter :=
  { meter with operations := meter.operations + p.length }

/-- The number of terms is checked and charged before a list is made. -/
theorem listed_eq (hne : p.step ≠ 0) :
    p.listed = (do
      Metered.checkLength p.length
      Metered.charge p.length
      Metered.list (p.terms.map .int)) := by
  have hread : (do
      let found ← ofValues (← (Arguments.mk [.int p.start, .int p.stop, .int p.step] []).unnamed
        "range")
      if found.step = 0 then throw .zeroStep
      return found : Except Refusal Progression) = .ok p := by
    change (if p.step = 0 then .error .zeroStep else .ok p : Except Refusal Progression) = _
    rw [if_neg hne]
  change rangeOf _ = _
  unfold rangeOf
  rw [hread]
  rfl

theorem listed_tooLong (hne : p.step ≠ 0) {limits : Limits} (h : limits.collection < p.length)
    (meter : Meter) :
    p.listed.outcome limits meter =
      (.error (Fault.refusal (.tooLong p.length limits.collection)), meter) := by
  rw [listed_eq hne]
  refine Act.outcome_bind_error _ _ ?_ _
  simp only [Metered.checkLength, Act.outcome_bind, Act.outcome_read, if_pos h]
  rfl

theorem listed_overBudget (hne : p.step ≠ 0) {limits : Limits} {meter : Meter}
    (h : p.length ≤ limits.collection) (hover : limits.operations < meter.operations + p.length) :
    p.listed.outcome limits meter =
      (.error (Fault.of (.budget limits.operations)), p.charged meter) := by
  rw [listed_eq hne, Act.outcome_bind_ok _ _ (Metered.outcome_checkLength h meter)]
  refine Act.outcome_bind_error _ _ ?_ _
  rw [Metered.outcome_charge, if_pos hover]
  rfl

theorem listed_within (hne : p.step ≠ 0) {limits : Limits} {meter : Meter}
    (h : p.length ≤ limits.collection) (hroom : meter.operations + p.length ≤ limits.operations) :
    p.listed.outcome limits meter =
      (.ok (.list (Sequence.ofItems (p.terms.map .int) meter.nextStamp)),
        { p.charged meter with nextStamp := meter.nextStamp + 1 }) := by
  have hcharge : (Metered.charge p.length).outcome limits meter = (.ok ⟨⟩, p.charged meter) := by
    rw [Metered.outcome_charge, if_neg (Nat.not_lt.2 hroom)]
    rfl
  rw [listed_eq hne, Act.outcome_bind_ok _ _ (Metered.outcome_checkLength h meter),
    Act.outcome_bind_ok _ _ hcharge]
  rfl

/-- A progression is listed exactly. Its terms are the integers that steps from the start lead to as
long as they lie before the stop, in this order, and all of them are script integers. More terms than
a list may have are refused before anything is charged, and where the budget does not cover them they
are charged and no list is made. Computed in words, the number of terms and every term are the same,
and no result on the way to them is too large for its word. -/
theorem listed_exact (h : p.InWords) (hne : p.step ≠ 0) (limits : Limits) (meter : Meter) :
    (∀ k, k < p.length ↔ p.Before (p.term k)) ∧
    (∀ k, k < p.length → InRange (p.term k)) ∧
    (limits.collection < p.length → p.listed.outcome limits meter =
      (.error (Fault.refusal (.tooLong p.length limits.collection)), meter)) ∧
    (p.length ≤ limits.collection → limits.operations < meter.operations + p.length →
      p.listed.outcome limits meter =
        (.error (Fault.of (.budget limits.operations)), p.charged meter)) ∧
    (p.length ≤ limits.collection → meter.operations + p.length ≤ limits.operations →
      ∃ s after, p.listed.outcome limits meter = (.ok (.list s), after) ∧
        ∀ k : Nat, s.items[k]? = if p.Before (p.term k) then some (.int (p.term k)) else none) ∧
    p.lengthInWords? = some p.length ∧ p.length ≤ Number.maxCount ∧
    ∀ k, k < p.length → p.termInWords? k = some (p.term k) := by
  refine ⟨lt_length_iff hne, fun _ => inRange_term h hne, fun hlong => listed_tooLong hne hlong meter,
    listed_overBudget hne, fun hfits hroom => ?_, lengthInWords?_eq h, length_le_maxCount h hne,
    fun _ => termInWords?_eq h hne⟩
  refine ⟨_, _, listed_within hne hfits hroom, fun k => ?_⟩
  change (p.terms.map Value.int)[k]? = _
  rw [List.getElem?_map, getElem?_terms hne]
  split <;> rfl

/-- From the greatest integer down by the least one there are two terms, and from the least integer to
the greatest one there are more than a list may have. -/
theorem listed_exact_extremes :
    let down : Progression := ⟨Number.maxInt, Number.minInt, Number.minInt⟩
    let up : Progression := ⟨Number.minInt, Number.maxInt, 1⟩
    down.InWords ∧ down.step ≠ 0 ∧ up.InWords ∧ up.step ≠ 0 ∧
      (∃ s after, down.listed.outcome Limits.standard Meter.zero = (.ok (.list s), after) ∧
        s.items[0]? = some (.int Number.maxInt) ∧ s.items[1]? = some (.int (-1)) ∧
        s.items[2]? = none) ∧
      up.listed.outcome Limits.standard Meter.zero =
        (.error (Fault.refusal (.tooLong Number.maxCount 100000)), Meter.zero) := by
  intro down up
  have hdown : down.InWords := ⟨by decide, by decide, by decide⟩
  have hup : up.InWords := ⟨by decide, by decide, by decide⟩
  have hsteps : down.step ≠ 0 ∧ up.step ≠ 0 := by decide
  obtain ⟨-, -, -, -, hlisted, -⟩ := listed_exact hdown hsteps.1 Limits.standard Meter.zero
  obtain ⟨-, -, hlong, -⟩ := listed_exact hup hsteps.2 Limits.standard Meter.zero
  obtain ⟨s, after, hrun, hitems⟩ := hlisted (by decide) (by decide)
  have hlength : up.length = Number.maxCount := by decide
  rw [hlength] at hlong
  refine ⟨hdown, hsteps.1, hup, hsteps.2, ⟨s, after, hrun, ?_, ?_, ?_⟩, hlong (by decide)⟩
  · rw [hitems 0, if_pos (by decide)]
    rfl
  · rw [hitems 1, if_pos (by decide)]
    rfl
  · rw [hitems 2, if_neg (by decide)]

end Builtin.Progression

end LandPattern
