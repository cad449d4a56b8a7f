import LandPattern.Element.Basic

/-!
# Rows of pads

Copies of a template pad in one column or in two. Copies are numbered from one unless they share a
name; in two columns the numbers go down on the left and back up on the right. The coordinate
formulas are stated over any numbers, so that they can be read exactly as well as run on doubles.
-/

namespace LandPattern.Layout

section Coordinates

variable {α : Type} [Add α] [Sub α] [Mul α] [Div α] [Neg α] [OfNat α 2]

/-- The height of a column of `count` pads. -/
def columnSpan (pitch count : α) : α := pitch * count

/-- The y coordinate of a pad, counted from the top of a column of this height. -/
def downward (span pitch index : α) : α := -span / 2 + pitch / 2 + pitch * index

/-- The y coordinate of a pad, counted from the bottom of a column of this height. -/
def upward (span pitch index : α) : α := span / 2 - pitch / 2 - pitch * index

/-- The x coordinate of the left of two columns. -/
def leftColumn (span : α) : α := -span / 2

/-- The x coordinate of the right of two columns. -/
def rightColumn (span : α) : α := span / 2

end Coordinates

/-- The identifier of a copy: the shared one, or its number. -/
def identifier (name : Option PadName) (index : Nat) : PadName :=
  name.getD (.number (index + 1))

/-- Copies in two columns, half of `count` in each; of an odd count one is dropped. -/
def dualCopies (template : Element) (spanX pitchY : Float) (count : Nat)
    (name : Option PadName) : List Element :=
  let half := count / 2
  let span := columnSpan pitchY (Float.ofNat count) / 2
  let left := (List.range half).map fun i =>
    template.place (identifier name i) (leftColumn spanX) (downward span pitchY (Float.ofNat i))
  let right := (List.range half).map fun i =>
    template.place (identifier name (i + half)) (rightColumn spanX)
      (upward span pitchY (Float.ofNat i))
  left ++ right

/-- Copies in one column. -/
def singleCopies (template : Element) (pitchY : Float) (count : Nat) (name : Option PadName) :
    List Element :=
  let span := columnSpan pitchY (Float.ofNat count)
  (List.range count).map fun i =>
    template.place (identifier name i) 0 (downward span pitchY (Float.ofNat i))

/-- Two columns of copies of a pad. -/
def dual (template : Element) (spanX pitchY : Float) (count : Nat) (name : Option PadName) :
    Except ElementRefusal (List Element) :=
  if template.isPad then .ok (dualCopies template spanX pitchY count name)
  else .error (.notATemplate template.tag)

/-- One column of copies of a pad. -/
def single (template : Element) (pitchY : Float) (count : Nat) (name : Option PadName) :
    Except ElementRefusal (List Element) :=
  if template.isPad then .ok (singleCopies template pitchY count name)
  else .error (.notATemplate template.tag)

end LandPattern.Layout
