import LandPattern.Proofs.Number.Doubles
import LandPattern.Proofs.Values.Copies

/-!
# Coordinates in rows of pads

The distance of two columns is only halved, so that the columns lie at finite places. The places in a
column are sums and products that may exceed the largest double: where the height of the column does
not, none of them does, and where it does, all of them do.
-/

namespace LandPattern.Layout

open Number

/-- The columns of a row lie at finite places. -/
theorem finite_columns {span : Float} (h : span.isFinite = true) :
    (leftColumn span).isFinite = true ∧ (rightColumn span).isFinite = true :=
  ⟨(half_finite (neg_finite h).1).1, (half_finite h).1⟩

/-- A height reaches as far as the pitch, and the way to a pad goes in the same direction. -/
def Reaches (height pitch way : ℚ) : Prop :=
  0 ≤ pitch ∧ pitch ≤ height ∧ 0 ≤ way ∨ height ≤ pitch ∧ pitch ≤ 0 ∧ way ≤ 0

theorem Reaches.neg {height pitch way : ℚ} (h : Reaches height pitch way) :
    Reaches (-height) (-pitch) (-way) := by
  rcases h with ⟨hpitch, hheight, hway⟩ | ⟨hheight, hpitch, hway⟩
  · exact .inr ⟨by linarith, by linarith, by linarith⟩
  · exact .inl ⟨by linarith, by linarith, by linarith⟩

/-- From the end of a column back toward its other end all sums are finite, since the parts that are
added lie on different sides of zero. -/
theorem finite_steps {start sum way total : Float} {first : ℚ} (hstart : start.isFinite = true)
    (hway : way.isFinite = true) (hsum : IsNearest sum (value start + first))
    (htotal : sum.isFinite = true → IsNearest total (value sum + value way))
    (h : Reaches (-value start) first (value way)) : total.isFinite = true := by
  obtain ⟨hnone, hzero⟩ := finite_zero
  -- The first sum lies between the end of the column and zero, and the way leads on from there to
  -- the other side, so that each sum lies between two finite doubles.
  rcases h with ⟨hfirst, hback, hforth⟩ | ⟨hback, hfirst, hforth⟩
  · obtain ⟨hfinite, -, hhigh⟩ := hsum.between hstart hnone (by linarith) (by linarith)
    exact ((htotal hfinite).between hfinite hway (by linarith) (by linarith)).1
  · obtain ⟨hfinite, hlow, -⟩ := hsum.between hnone hstart (by linarith) (by linarith)
    exact ((htotal hfinite).between hway hfinite (by linarith) (by linarith)).1

section

variable {height pitch index : Float}

theorem Reaches.halves (hheight : height.isFinite = true) (hpitch : pitch.isFinite = true)
    {way : ℚ} (h : Reaches (value height) (value pitch) way) :
    Reaches (value (height / 2)) (value (pitch / 2)) way := by
  rw [(half_finite hheight).2, (half_finite hpitch).2]
  rcases h with ⟨hpos, hle, hway⟩ | ⟨hle, hneg, hway⟩
  · exact .inl ⟨rounded_nonneg (by linarith), rounded_mono (by linarith), hway⟩
  · exact .inr ⟨rounded_mono (by linarith), rounded_nonpos (by linarith), hway⟩

variable (hheight : height.isFinite = true) (hpitch : pitch.isFinite = true)
  (hway : (pitch * index).isFinite = true)
  (h : Reaches (value height) (value pitch) (value (pitch * index)))

include hheight hpitch hway h

theorem finite_downward : (downward height pitch index).isFinite = true := by
  obtain ⟨hneg, hvalue⟩ := neg_finite hheight
  obtain ⟨hstart, hhalf⟩ := half_finite hneg
  obtain ⟨hfirst, -⟩ := half_finite hpitch
  have hreach := h.halves hheight hpitch
  have hends : value (height / 2) = -value (-height / 2) := by
    rw [hhalf, (half_finite hheight).2, hvalue, neg_div, rounded_neg, neg_neg]
  rw [hends] at hreach
  exact finite_steps hstart hway (isNearest_add hstart hfirst)
    (fun hsum => isNearest_add hsum hway) hreach

theorem finite_upward : (upward height pitch index).isFinite = true := by
  obtain ⟨hstart, -⟩ := half_finite hheight
  obtain ⟨hfirst, -⟩ := half_finite hpitch
  obtain ⟨hback, hvalue⟩ := neg_finite hway
  have hreach := (h.halves hheight hpitch).neg
  rw [← hvalue] at hreach
  have hsum := isNearest_sub hstart hfirst
  rw [sub_eq_add_neg] at hsum
  refine finite_steps hstart hback hsum (fun hfinite => ?_) hreach
  have htotal := isNearest_sub hfinite hway
  rw [sub_eq_add_neg, ← hvalue] at htotal
  exact htotal

end

/-! ## Rows that are not too high -/

section

variable {pitch : Float} {count index : ℕ} (hpitch : pitch.isFinite = true)
  (hspan : (columnSpan pitch (Float.ofNat count)).isFinite = true)

include hpitch hspan

/-- The way to a pad is shorter than the height of the column, and goes in the direction of the
pitch. -/
theorem finite_way (h : index < count) :
    (pitch * Float.ofNat index).isFinite = true ∧
      (0 ≤ value pitch → 0 ≤ value (pitch * Float.ofNat index)) ∧
      (value pitch ≤ 0 → value (pitch * Float.ofNat index) ≤ 0) := by
  have hcount := finite_of_mul hspan
  have hle : (index : ℚ) ≤ count := by exact_mod_cast h.le
  have hindex : (Float.ofNat index).isFinite = true := by
    refine (isNearest_ofNat index).smaller (isNearest_ofNat count) hcount ?_
    rw [abs_of_nonneg (Nat.cast_nonneg index), abs_of_nonneg (Nat.cast_nonneg count)]
    exact hle
  have hpos : 0 ≤ value (Float.ofNat index) := by
    rw [(isNearest_ofNat index).denotes hindex]
    exact rounded_nonneg (Nat.cast_nonneg index)
  have hbelow : value (Float.ofNat index) ≤ value (Float.ofNat count) := by
    rw [(isNearest_ofNat index).denotes hindex, (isNearest_ofNat count).denotes hcount]
    exact rounded_mono hle
  have hproduct := isNearest_mul hpitch hindex
  have hway : (pitch * Float.ofNat index).isFinite = true := by
    refine hproduct.smaller (isNearest_mul hpitch hcount) hspan ?_
    rw [abs_mul, abs_mul, abs_of_nonneg hpos, abs_of_nonneg (le_trans hpos hbelow)]
    exact mul_le_mul_of_nonneg_left hbelow (abs_nonneg _)
  rw [hproduct.denotes hway]
  exact ⟨hway, fun hdown => rounded_nonneg (mul_nonneg hdown hpos),
    fun hup => rounded_nonpos (mul_nonpos_of_nonpos_of_nonneg hup hpos)⟩

/-- A column of so many pads is at least so many times as high as the pitch. -/
theorem span_of_le {times : ℕ} (hbits : times < 2 ^ 53) (h : times ≤ count)
    (hkept : rounded (times * value pitch) = times * value pitch) :
    (0 ≤ value pitch → times * value pitch ≤ value (columnSpan pitch (Float.ofNat count))) ∧
      (value pitch ≤ 0 → value (columnSpan pitch (Float.ofNat count)) ≤ times * value pitch) := by
  have hcount := finite_of_mul hspan
  have htimes : (times : ℚ) ≤ value (Float.ofNat count) := by
    rw [(isNearest_ofNat count).denotes hcount, ← rounded_natCast hbits]
    exact rounded_mono (by exact_mod_cast h)
  have hvalue : value (columnSpan pitch (Float.ofNat count)) =
      rounded (value pitch * value (Float.ofNat count)) :=
    (isNearest_mul hpitch hcount).denotes hspan
  rw [hvalue, ← hkept]
  exact ⟨fun hdown => rounded_mono (by nlinarith), fun hup => rounded_mono (by nlinarith)⟩

/-- In one column, every pad lies at a finite place. -/
theorem finite_singleColumn (h : index < count) :
    (downward (columnSpan pitch (Float.ofNat count)) pitch (Float.ofNat index)).isFinite = true := by
  obtain ⟨hway, hdown, hup⟩ := finite_way hpitch hspan h
  have hkept : rounded ((1 : ℕ) * value pitch) = (1 : ℕ) * value pitch := by
    rw [Nat.cast_one, one_mul]
    exact rounded_value hpitch
  obtain ⟨habove, hbelow⟩ := span_of_le hpitch hspan (by norm_num) (by omega) hkept
  rw [Nat.cast_one, one_mul] at habove hbelow
  refine finite_downward hspan hpitch hway ?_
  rcases le_total 0 (value pitch) with hpos | hneg
  · exact .inl ⟨hpos, habove hpos, hdown hpos⟩
  · exact .inr ⟨hbelow hneg, hneg, hup hneg⟩

/-- In two columns, half as high as one column of all pads, every pad lies at a finite place. -/
theorem finite_dualColumns (h : index < count / 2) :
    (downward (columnSpan pitch (Float.ofNat count) / 2) pitch (Float.ofNat index)).isFinite = true ∧
      (upward (columnSpan pitch (Float.ofNat count) / 2) pitch (Float.ofNat index)).isFinite =
        true := by
  obtain ⟨hway, hdown, hup⟩ := finite_way hpitch hspan (show index < count by omega)
  have hkept : rounded ((2 : ℕ) * value pitch) = (2 : ℕ) * value pitch := by
    rw [Nat.cast_ofNat]
    exact rounded_twice hpitch
  obtain ⟨habove, hbelow⟩ := span_of_le hpitch hspan (by norm_num) (show 2 ≤ count by omega) hkept
  rw [Nat.cast_ofNat] at habove hbelow
  obtain ⟨hhalf, hvalue⟩ := half_finite hspan
  have hreach : Reaches (value (columnSpan pitch (Float.ofNat count) / 2)) (value pitch)
      (value (pitch * Float.ofNat index)) := by
    rw [hvalue]
    rcases le_total 0 (value pitch) with hpos | hneg
    · have hhigh : value pitch ≤ value (columnSpan pitch (Float.ofNat count)) / 2 := by
        linarith [habove hpos]
      have hmono := rounded_mono hhigh
      rw [rounded_value hpitch] at hmono
      exact .inl ⟨hpos, hmono, hdown hpos⟩
    · have hlow : value (columnSpan pitch (Float.ofNat count)) / 2 ≤ value pitch := by
        linarith [hbelow hneg]
      have hmono := rounded_mono hlow
      rw [rounded_value hpitch] at hmono
      exact .inr ⟨hmono, hneg, hup hneg⟩
  exact ⟨finite_downward hhalf hpitch hway hreach, finite_upward hhalf hpitch hway hreach⟩

end

/-! ## Rows that are too high -/

section

variable {height pitch index : Float}

theorem finite_of_downward (h : (downward height pitch index).isFinite = true) :
    height.isFinite = true :=
  finite_of_neg (finite_of_half (finite_of_add (finite_of_add h)))

theorem finite_of_upward (h : (upward height pitch index).isFinite = true) :
    height.isFinite = true :=
  finite_of_half (finite_of_sub (finite_of_sub h))

end

/-- The places, from top to bottom, of pads in rows of no more than so many, at a finite pitch, whose
height is not finite. -/
inductive Overlong (most : ℕ) : Float → Prop where
  /-- A pad in one column. -/
  | single {pitch : Float} {count index : ℕ} (hpitch : pitch.isFinite = true) (hcount : count ≤ most)
    (hindex : index < count) (hspan : (columnSpan pitch (Float.ofNat count)).isFinite = false) :
    Overlong most (downward (columnSpan pitch (Float.ofNat count)) pitch (Float.ofNat index))
  /-- A pad in the left of two columns. -/
  | left {pitch : Float} {count index : ℕ} (hpitch : pitch.isFinite = true) (hcount : count ≤ most)
    (hindex : index < count / 2) (hspan : (columnSpan pitch (Float.ofNat count)).isFinite = false) :
    Overlong most (downward (columnSpan pitch (Float.ofNat count) / 2) pitch (Float.ofNat index))
  /-- A pad in the right of two columns. -/
  | right {pitch : Float} {count index : ℕ} (hpitch : pitch.isFinite = true) (hcount : count ≤ most)
    (hindex : index < count / 2) (hspan : (columnSpan pitch (Float.ofNat count)).isFinite = false) :
    Overlong most (upward (columnSpan pitch (Float.ofNat count) / 2) pitch (Float.ofNat index))

/-- None of these places is finite. -/
theorem Overlong.not_finite {most : ℕ} {y : Float} (h : Overlong most y) : y.isFinite = false := by
  rw [Bool.eq_false_iff]
  intro hfinite
  cases h with
  | single _ _ _ hspan => exact Bool.eq_false_iff.1 hspan (finite_of_downward hfinite)
  | left _ _ _ hspan => exact Bool.eq_false_iff.1 hspan (finite_of_half (finite_of_downward hfinite))
  | right _ _ _ hspan => exact Bool.eq_false_iff.1 hspan (finite_of_half (finite_of_upward hfinite))

/-- A pad is a template at a finite place, or at a place in a row that is too high. -/
def Copies (most : ℕ) (template pad : Element) : Prop :=
  ∃ label x y, pad = template.place label x y ∧ x.isFinite = true ∧
    (y.isFinite = true ∨ template.isPad = true ∧ Overlong most y)

/-- Every pad of a row copies its template. -/
theorem copies_single {template : Element} {pitch : Float} {count most : ℕ} {name : Option PadName}
    {pads : List Element} (hpitch : pitch.isFinite = true) (hcount : count ≤ most)
    (h : single template pitch count name = .ok pads) :
    ∀ pad ∈ pads, Copies most template pad := by
  intro pad hpad
  obtain ⟨htemplate, rfl⟩ := single_eq_ok_iff.1 h
  obtain ⟨index, hindex, rfl⟩ := exists_of_mem_row hpad
  refine ⟨_, _, _, rfl, finite_zero.1, ?_⟩
  unfold singlePlace
  cases hspan : (columnSpan pitch (Float.ofNat count)).isFinite with
  | true => exact .inl (finite_singleColumn hpitch hspan hindex)
  | false => exact .inr ⟨htemplate, .single hpitch hcount hindex hspan⟩

theorem copies_dual {template : Element} {spanX pitch : Float} {count most : ℕ}
    {name : Option PadName} {pads : List Element} (hx : spanX.isFinite = true)
    (hpitch : pitch.isFinite = true) (hcount : count ≤ most)
    (h : dual template spanX pitch count name = .ok pads) :
    ∀ pad ∈ pads, Copies most template pad := by
  intro pad hpad
  obtain ⟨htemplate, rfl⟩ := dual_eq_ok_iff.1 h
  obtain ⟨index, hindex, rfl⟩ := exists_of_mem_row hpad
  obtain ⟨hleft, hright⟩ := finite_columns hx
  refine ⟨_, _, _, rfl, ?_⟩
  by_cases hside : index < count / 2
  · rw [dualPlace_left _ _ _ hside]
    refine ⟨hleft, ?_⟩
    cases hspan : (columnSpan pitch (Float.ofNat count)).isFinite with
    | true => exact .inl (finite_dualColumns hpitch hspan hside).1
    | false => exact .inr ⟨htemplate, .left hpitch hcount hside hspan⟩
  · obtain ⟨other, rfl⟩ := Nat.exists_eq_add_of_le' (Nat.le_of_not_lt hside)
    have hother : other < count / 2 := by omega
    rw [dualPlace_right]
    refine ⟨hright, ?_⟩
    cases hspan : (columnSpan pitch (Float.ofNat count)).isFinite with
    | true => exact .inl (finite_dualColumns hpitch hspan hother).2
    | false => exact .inr ⟨htemplate, .right hpitch hcount hother hspan⟩

end LandPattern.Layout
