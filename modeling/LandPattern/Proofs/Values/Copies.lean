import LandPattern.Element.Field
import LandPattern.Element.Layout

/-!
# Copies of a pad

A row of pads is its template, repeated in the places of the row. The places come of formulas that
make sense for any numbers; pads stand where these put them on doubles. Every pad has its own name and
place and is the template in everything else.
-/

namespace LandPattern.Layout

/-! ## Places -/

section Places

variable {α : Type} [Add α] [Sub α] [Mul α] [Div α] [Neg α] [OfNat α 0] [OfNat α 2]

/-- Where a pad of two columns stands. The first half of the pads go down on the left and the others
back up on the right; `ofCount` makes numbers of counts. -/
def dualPlace (ofCount : Nat → α) (spanX pitchY : α) (count index : Nat) : α × α :=
  let half := count / 2
  let span := columnSpan pitchY (ofCount count) / 2
  if index < half then (leftColumn spanX, downward span pitchY (ofCount index))
  else (rightColumn spanX, upward span pitchY (ofCount (index - half)))

/-- Where a pad of one column stands. -/
def singlePlace (ofCount : Nat → α) (pitchY : α) (count index : Nat) : α × α :=
  (0, downward (columnSpan pitchY (ofCount count)) pitchY (ofCount index))

omit [OfNat α 0]

variable (ofCount : Nat → α) (spanX pitchY : α)

theorem dualPlace_left {count index : Nat} (h : index < count / 2) :
    dualPlace ofCount spanX pitchY count index = (leftColumn spanX,
      downward (columnSpan pitchY (ofCount count) / 2) pitchY (ofCount index)) :=
  if_pos h

theorem dualPlace_right (count index : Nat) :
    dualPlace ofCount spanX pitchY count (index + count / 2) = (rightColumn spanX,
      upward (columnSpan pitchY (ofCount count) / 2) pitchY (ofCount index)) := by
  have hright : ¬ index + count / 2 < count / 2 := by omega
  rw [dualPlace, if_neg hright, Nat.add_sub_cancel]

end Places

/-! ## Rows -/

/-- A template repeated so many times in the places of a row. -/
def row (template : Element) (name : Option PadName) (count : Nat)
    (place : Nat → Float × Float) : List Element :=
  (List.range count).map fun index =>
    template.place (identifier name index) (place index).1 (place index).2

section

variable {template : Element} {name : Option PadName} {spanX pitchY : Float} {count : Nat}
  {place : Nat → Float × Float} {pads : List Element}

@[simp] theorem length_row : (row template name count place).length = count := by
  rw [row, List.length_map, List.length_range]

theorem getElem?_row {index : Nat} {pad : Element}
    (h : (row template name count place)[index]? = some pad) :
    pad = template.place (identifier name index) (place index).1 (place index).2 := by
  rw [row, List.getElem?_map] at h
  obtain ⟨found, hfound, rfl⟩ := Option.map_eq_some_iff.1 h
  obtain ⟨-, rfl⟩ := List.getElem?_eq_some_iff.1 hfound
  rw [List.getElem_range]

theorem exists_of_mem_row {pad : Element} (h : pad ∈ row template name count place) :
    ∃ index, index < count ∧
      pad = template.place (identifier name index) (place index).1 (place index).2 := by
  obtain ⟨index, hindex, rfl⟩ := List.mem_map.1 h
  exact ⟨index, List.mem_range.1 hindex, rfl⟩

/-- The pads on the left and those on the right are one row, numbered through. -/
theorem dualCopies_eq_row (template : Element) (spanX pitchY : Float) (count : Nat)
    (name : Option PadName) :
    dualCopies template spanX pitchY count name =
      row template name (2 * (count / 2)) (dualPlace Float.ofNat spanX pitchY count) := by
  rw [row, Nat.two_mul, List.range_add, List.map_append, List.map_map]
  unfold dualCopies
  dsimp only
  congr 1
  · refine List.map_congr_left fun index hindex => ?_
    rw [dualPlace_left _ _ _ (List.mem_range.1 hindex)]
  · refine List.map_congr_left fun index _ => ?_
    rw [Function.comp_apply, Nat.add_comm (count / 2) index, dualPlace_right]

/-- Two columns are a row of a pad; anything else is refused. -/
theorem dual_eq (template : Element) (spanX pitchY : Float) (count : Nat) (name : Option PadName) :
    dual template spanX pitchY count name =
      if template.isPad then
        .ok (row template name (2 * (count / 2)) (dualPlace Float.ofNat spanX pitchY count))
      else .error (.notATemplate template.tag) := by
  rw [dual, dualCopies_eq_row]

/-- One column is a row of a pad; anything else is refused. -/
theorem single_eq (template : Element) (pitchY : Float) (count : Nat) (name : Option PadName) :
    single template pitchY count name =
      if template.isPad then .ok (row template name count (singlePlace Float.ofNat pitchY count))
      else .error (.notATemplate template.tag) := rfl

theorem dual_eq_ok_iff :
    dual template spanX pitchY count name = .ok pads ↔ template.isPad = true ∧
      pads = row template name (2 * (count / 2)) (dualPlace Float.ofNat spanX pitchY count) := by
  rw [dual_eq]
  cases template.isPad <;> simp [@eq_comm _ pads]

theorem single_eq_ok_iff :
    single template pitchY count name = .ok pads ↔ template.isPad = true ∧
      pads = row template name count (singlePlace Float.ofNat pitchY count) := by
  rw [single_eq]
  cases template.isPad <;> simp [@eq_comm _ pads]

end

/-! ## Copies -/

/-- A pad is a copy of a template: it has this name and this place, and it is the template in every
other attribute and in all that a new name and place leave of it. -/
structure IsCopy (template : Element) (name : PadName) (place : Float × Float) (pad : Element) :
    Prop where
  named : pad.get? "name" = some (.pad name)
  across : pad.get? "x" = some (.number place.1)
  down : pad.get? "y" = some (.number place.2)
  tag : pad.tag = template.tag
  others : ∀ field, field ≠ "name" → field ≠ "x" → field ≠ "y" →
    pad.get? field = template.get? field
  apart : ∀ other x y, pad.place other x y = template.place other x y

/-- Placing a pad changes its name and its place only. -/
theorem get?_place_of_ne (template : Element) (name : PadName) (x y : Float) {field : String}
    (hname : field ≠ "name") (hx : field ≠ "x") (hy : field ≠ "y") :
    (template.place name x y).get? field = template.get? field := by
  cases template with
  | smd s =>
    unfold Element.place Element.get? Smd.get?
    split
    · rfl
    · dsimp only
      split <;> first | rfl | contradiction
  | drilled p =>
    unfold Element.place Element.get? Drilled.get?
    split
    · rfl
    · dsimp only
      split <;> first | rfl | contradiction
  | rect | line | caption | model => rfl

theorem isCopy_place {template : Element} (h : template.isPad = true) (name : PadName)
    (place : Float × Float) : IsCopy template name place (template.place name place.1 place.2) := by
  have hothers := fun field => @get?_place_of_ne template name place.1 place.2 field
  cases template with
  | smd s => exact ⟨rfl, rfl, rfl, rfl, hothers, fun _ _ _ => rfl⟩
  | drilled p => exact ⟨rfl, rfl, rfl, rfl, hothers, fun _ _ _ => rfl⟩
  | rect | line | caption | model => cases h

/-- Pads repeat a template so many times, in the places of a row: numbered from one, unless they
share a name. -/
structure Repeats (template : Element) (name : Option PadName) (count : Nat)
    (place : Nat → Float × Float) (pads : List Element) : Prop where
  length : pads.length = count
  copies : ∀ (index : Nat) (pad : Element), pads[index]? = some pad →
    IsCopy template (name.getD (.number (index + 1))) (place index) pad

theorem repeats_row {template : Element} (h : template.isPad = true) (name : Option PadName)
    (count : Nat) (place : Nat → Float × Float) :
    Repeats template name count place (row template name count place) := by
  refine ⟨length_row, fun index pad hpad => ?_⟩
  rw [getElem?_row hpad]
  exact isCopy_place h _ _

end LandPattern.Layout
