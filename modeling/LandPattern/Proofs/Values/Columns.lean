import LandPattern.Proofs.Values.Copies
import Mathlib.Algebra.BigOperators.Group.Finset.Basic
import Mathlib.Algebra.Field.Rat
import Mathlib.Algebra.Group.Even
import Mathlib.Tactic.Ring

/-!
# Columns of pads

Read on rationals, where nothing is rounded, the formulas for the places of a row put the two columns
symmetrically about the origin, the pads of a column one pitch apart, and a single column evenly about
the horizontal axis. How far doubles round these places is left open here.
-/

namespace LandPattern.Layout

open Finset (sum_range_succ)

section Symmetry

variable (spanX pitchY : ℚ) (count index : ℕ)

/-- A pad on the right is the reflection of its partner on the left in the origin. -/
theorem dualPlace_reflected {count index : ℕ} (h : index < count / 2) :
    dualPlace Nat.cast spanX pitchY count (index + count / 2) =
      -dualPlace Nat.cast spanX pitchY count index := by
  rw [dualPlace_right, dualPlace_left _ _ _ h, Prod.neg_mk]
  unfold leftColumn rightColumn downward upward
  congr 1 <;> ring

/-- With an even number of pads, those on the left and those on the right that are as far down face
each other. -/
theorem dualPlace_facing {half index other : ℕ} (h : index + other + 1 = half) :
    dualPlace Nat.cast spanX pitchY (half + half) (other + half) =
      (-(dualPlace Nat.cast spanX pitchY (half + half) index).1,
        (dualPlace Nat.cast spanX pitchY (half + half) index).2) := by
  have hhalf : (half + half) / 2 = half := by omega
  have hleft : index < (half + half) / 2 := by omega
  have hright := dualPlace_right Nat.cast spanX pitchY (half + half) other
  rw [hhalf] at hright
  rw [hright, dualPlace_left _ _ _ hleft, ← h]
  unfold leftColumn rightColumn downward upward columnSpan
  push_cast
  congr 1 <;> ring

/-- With an even number of pads, a row that is read backwards is its mirror image. -/
theorem dualPlace_mirrored {count index : ℕ} (heven : Even count) (h : index < 2 * (count / 2)) :
    dualPlace Nat.cast spanX pitchY count (2 * (count / 2) - 1 - index) =
      (-(dualPlace Nat.cast spanX pitchY count index).1,
        (dualPlace Nat.cast spanX pitchY count index).2) := by
  obtain ⟨half, rfl⟩ := heven
  have hhalf : (half + half) / 2 = half := by omega
  rw [hhalf] at h ⊢
  by_cases hleft : index < half
  · have hpartner : 2 * half - 1 - index = half - 1 - index + half := by omega
    have hfacing := dualPlace_facing spanX pitchY
      (show index + (half - 1 - index) + 1 = half by omega)
    rw [hpartner, hfacing]
  · obtain ⟨other, rfl⟩ := Nat.exists_eq_add_of_le (Nat.le_of_not_lt hleft)
    have hpartner : 2 * half - 1 - (half + other) = half - 1 - other := by omega
    have hfacing := dualPlace_facing spanX pitchY
      (show half - 1 - other + other + 1 = half by omega)
    rw [hpartner, Nat.add_comm half other, hfacing, neg_neg]

/-- Going down on the left, each pad is one pitch further. -/
theorem dualPlace_step_left {count index : ℕ} (h : index + 1 < count / 2) :
    dualPlace Nat.cast spanX pitchY count (index + 1) -
      dualPlace Nat.cast spanX pitchY count index = (0, pitchY) := by
  rw [dualPlace_left _ _ _ h, dualPlace_left _ _ _ (Nat.lt_of_succ_lt h), Prod.mk_sub_mk]
  unfold downward
  push_cast
  congr 1 <;> ring

/-- Going up on the right, each pad is one pitch back. -/
theorem dualPlace_step_right :
    dualPlace Nat.cast spanX pitchY count (index + 1 + count / 2) -
      dualPlace Nat.cast spanX pitchY count (index + count / 2) = (0, -pitchY) := by
  rw [dualPlace_right, dualPlace_right, Prod.mk_sub_mk]
  unfold upward
  push_cast
  congr 1 <;> ring

theorem singlePlace_step :
    singlePlace Nat.cast pitchY count (index + 1) - singlePlace Nat.cast pitchY count index =
      (0, pitchY) := by
  unfold singlePlace downward
  rw [Prod.mk_sub_mk]
  push_cast
  congr 1 <;> ring

/-- The y coordinates of the first pads of a column of this height. -/
theorem sum_downward (span pitch : ℚ) (count : ℕ) :
    ∑ index ∈ Finset.range count, downward span pitch index = count * (pitch * count - span) / 2 := by
  induction count with
  | zero => simp
  | succ count ih =>
    rw [sum_range_succ, ih, downward]
    push_cast
    ring

theorem sum_singlePlace :
    ∑ index ∈ Finset.range count, (singlePlace Nat.cast pitchY count index).2 = 0 := by
  unfold singlePlace columnSpan
  rw [sum_downward, sub_self, mul_zero, zero_div]

end Symmetry

/-- Rows repeat their template faithfully. Of a pad, two columns have twice the half of the count and
one column all of it; every copy has its number or the shared name, stands where the formulas put it,
and is the template in everything else. Anything but a pad is refused. Read exactly, the formulas put
the pads on the right opposite those on the left with respect to the origin; of an even count, they
put the pads of a row and those of the same row read backwards face to face; the pads of a column are
one pitch apart; and a single column is balanced about the horizontal axis. -/
theorem rows_faithful (template : Element) (count : ℕ) :
    (template.isPad = true → ∀ (spanX pitchY : Float) (name : Option PadName),
      (∃ pads, dual template spanX pitchY count name = .ok pads ∧
        Repeats template name (2 * (count / 2)) (dualPlace Float.ofNat spanX pitchY count) pads) ∧
      ∃ pads, single template pitchY count name = .ok pads ∧
        Repeats template name count (singlePlace Float.ofNat pitchY count) pads) ∧
    (template.isPad = false → ∀ (spanX pitchY : Float) (name : Option PadName),
      dual template spanX pitchY count name = .error (.notATemplate template.tag) ∧
      single template pitchY count name = .error (.notATemplate template.tag)) ∧
    ∀ spanX pitchY : ℚ,
      let place := dualPlace Nat.cast spanX pitchY count
      let half := count / 2
      (∀ index, index < half → place (index + half) = -place index) ∧
      (Even count → ∀ index, index < 2 * half →
        place (2 * half - 1 - index) = (-(place index).1, (place index).2)) ∧
      (∀ index, index + 1 < half → place (index + 1) - place index = (0, pitchY) ∧
        place (index + 1 + half) - place (index + half) = (0, -pitchY)) ∧
      (∀ index, singlePlace Nat.cast pitchY count (index + 1) -
        singlePlace Nat.cast pitchY count index = (0, pitchY)) ∧
      ∑ index ∈ Finset.range count, (singlePlace Nat.cast pitchY count index).2 = 0 := by
  refine ⟨fun hpad spanX pitchY name => ⟨⟨_, dual_eq_ok_iff.2 ⟨hpad, rfl⟩, ?_⟩,
    ⟨_, single_eq_ok_iff.2 ⟨hpad, rfl⟩, ?_⟩⟩, fun hother spanX pitchY name => ?_,
    fun spanX pitchY => ?_⟩
  · exact repeats_row hpad name _ _
  · exact repeats_row hpad name _ _
  · rw [dual_eq, single_eq, hother]
    exact ⟨rfl, rfl⟩
  · exact ⟨fun _ => dualPlace_reflected spanX pitchY, fun heven _ => dualPlace_mirrored _ _ heven,
      fun _ hnext => ⟨dualPlace_step_left _ _ hnext, dualPlace_step_right _ _ _ _⟩,
      singlePlace_step _ _, sum_singlePlace _ _⟩

/-- Five copies of a hole are asked for in two columns: four are made, the third is number three and
is as bare as the hole, and a link to a model cannot be copied. The second and the fifth of six pads
face each other. -/
theorem rows_faithful_hole :
    let hole : Element := .drilled (Drilled.new .hole (.number 9) 2.0 1.0)
    let link : Element := .model ⟨"part.step"⟩
    let place := dualPlace (Nat.cast : ℕ → ℚ) 4 (3 / 2) 6
    hole.isPad = true ∧ link.isPad = false ∧ Even 6 ∧
      (∃ pads, dual hole 4.0 1.5 5 none = .ok pads ∧ pads.length = 4 ∧
        ∀ pad, pads[2]? = some pad → pad.get? "name" = some (.pad (.number 3)) ∧
          pad.get? "plated" = some (.flag false)) ∧
      dual link 4.0 1.5 5 none = .error (.notATemplate "Model") ∧
      place 1 = (-2, 0) ∧ place 4 = (2, 0) := by
  intro hole link place
  have hpad : hole.isPad = true := rfl
  have hlink : link.isPad = false := rfl
  have heven : Even 6 := by decide
  obtain ⟨hcopies, -, -⟩ := rows_faithful hole 5
  obtain ⟨-, hrefused, -⟩ := rows_faithful link 5
  obtain ⟨-, -, hplaces⟩ := rows_faithful hole 6
  obtain ⟨⟨pads, hpads, hrepeats⟩, -⟩ := hcopies hpad 4.0 1.5 none
  obtain ⟨-, hmirrored, -⟩ := hplaces 4 (3 / 2)
  have hsecond : place 1 = (-2, 0) := by
    change (leftColumn (4 : ℚ), downward (columnSpan (3 / 2 : ℚ) (6 : ℕ) / 2) (3 / 2) (1 : ℕ)) = _
    unfold leftColumn downward columnSpan
    norm_num
  refine ⟨hpad, hlink, heven, ⟨pads, hpads, hrepeats.length, fun pad hthird => ?_⟩,
    (hrefused hlink 4.0 1.5 none).1, hsecond, ?_⟩
  · have hcopy := hrepeats.copies 2 pad hthird
    exact ⟨hcopy.named, hcopy.others "plated" (by decide) (by decide) (by decide)⟩
  · have hfifth := hmirrored heven 1 (by decide)
    change place 4 = (-(place 1).1, (place 1).2) at hfifth
    rw [hfifth, hsecond, neg_neg]

end LandPattern.Layout
