import LandPattern.Arguments
import LandPattern.Element.Layout
import LandPattern.Value.Attribute

/-!
# Making elements

The makers of the vocabulary. Required arguments make the element, and every other argument is then
written to the attribute of the same name, so that a keyword argument is an assignment. The makers
of rows copy a pad, and are charged by the number of pads they are asked for.
-/

namespace LandPattern.Builtin

open Metered (charge checkLength)

/-- Writes every argument that was not taken to the attribute of the same name. -/
def writeLeftover (e : Element) : Binding Element := do
  (← Binding.leftover).foldlM (fun e (field, v) => e.write field v) e

/-- The parameters of rectangles. -/
def rectParams : List String := ["dx", "dy", "x", "y", "w", "filled", "layer", "corner"]

/-- A rectangle: its width and height, and any attributes. -/
def makeRect (kind : RectKind) (args : Arguments) : Except Refusal Element :=
  Binding.run (do
    let dx ← Binding.required "dx" Value.asNumber
    let dy ← Binding.required "dy" Value.asNumber
    writeLeftover (.rect (Rect.new kind ⟨dx, dy⟩))) args kind.tag rectParams

/-- The parameters of lines. -/
def lineParams : List String := ["p1", "p2", "w", "layer"]

/-- A line: its ends, and any attributes. -/
def makeLine (args : Arguments) : Except Refusal Element :=
  Binding.run (do
    let (x1, y1) ← Binding.required "p1" Value.asPair
    let (x2, y2) ← Binding.required "p2" Value.asPair
    writeLeftover (.line (Line.new ⟨x1, y1⟩ ⟨x2, y2⟩))) args "Line" lineParams

/-- The parameters of captions. -/
def captionParams : List String := ["txt", "dy", "x", "y", "w", "layer"]

/-- A caption: its text, and any attributes. Only a reference can do without a text. -/
def makeCaption (kind : CaptionKind) (args : Arguments) : Except Refusal Element :=
  Binding.run (do
    let txt ← match kind with
      | .reference => do
        pure ((← Binding.optional "txt" Value.asText).getD referencePlaceholder)
      | .text | .name => Binding.required "txt" Value.asText
    writeLeftover (.caption (Caption.new kind txt))) args kind.tag captionParams

/-- The parameters of surface pads. The second of two positional arguments is the size; otherwise
the position comes before it. -/
def smdParams (positional : Nat) : List String :=
  if positional = 2 then ["name", "size", "x", "y", "shape", "layers", "pos"]
  else ["name", "pos", "size", "x", "y", "shape", "layers"]

/-- A surface pad: its identifier and size, a position, and any attributes. -/
def makeSmd (args : Arguments) : Except Refusal Element :=
  Binding.run (do
    let name ← Binding.required "name" Value.asPadName
    let (dx, dy) ← Binding.required "size" Value.asPair
    let pad := Smd.new name ⟨dx, dy⟩
    let placed ← match ← Binding.optional "pos" Value.asPair with
      | some (x, y) => pure { pad with x := x, y := y }
      | none => pure pad
    writeLeftover (.smd placed)) args "Smd" (smdParams args.positional.length)

/-- The parameters of drilled pads; the plating of a hole is no parameter. -/
def drilledParams : Bore → List String
  | .pad _ => ["name", "d", "drill", "x", "y", "plated", "layers"]
  | .hole => ["name", "d", "drill", "x", "y", "layers"]

/-- A drilled pad or hole: its identifier and diameters, and any attributes. -/
def makeDrilled (bore : Bore) (args : Arguments) : Except Refusal Element :=
  Binding.run (do
    let name ← Binding.required "name" Value.asPadName
    let d ← Binding.required "d" Value.asNumber
    let drill ← Binding.required "drill" Value.asNumber
    writeLeftover (.drilled (Drilled.new bore name d drill))) args bore.tag (drilledParams bore)

/-- A model: the name of its file. -/
def makeModel (args : Arguments) : Except Refusal Element :=
  Binding.run (do
    let filename ← Binding.required "filename" Value.asText
    return .model ⟨filename⟩) args "Model" ["filename"]

/-- The element that a row copies. -/
def asTemplate (v : Value) (_ : String) : Except Refusal Element :=
  match v with
  | .element e => .ok e
  | other => .error (.elements (.notATemplate other.type))

/-- An identifier for all pads of a row; the value `none` asks for numbers. -/
def asSharedName (v : Value) (what : String) : Except Refusal (Option PadName) :=
  match v with
  | .nothing => .ok none
  | other => some <$> other.asPadName what

/-- A row of `count` pads as a list, charged before it is made. -/
def makeRow (count : Nat) (row : Unit → Except ElementRefusal (List Element)) :
    Metered Value := do
  checkLength count
  charge count
  match row () with
  | .ok pads => Metered.list (pads.map .element)
  | .error why => Metered.refuse (.elements why)

/-- Two columns of pads: the template, the distance of the columns, the pitch in them, how many
pads, and an identifier for all of them. -/
def makeDual (args : Arguments) : Metered Value := do
  let (count, row) ← Act.ofExcept <| Binding.run (do
    let template ← Binding.required "template" asTemplate
    let spanX ← Binding.required "span_x" Value.asNumber
    let pitchY ← Binding.required "pitch_y" Value.asNumber
    let count ← Binding.required "count" Value.asCount
    let name ← Binding.optional "name" asSharedName
    return (count, fun (_ : Unit) => Layout.dual template spanX pitchY count (name.getD none)))
    args "dual" ["template", "span_x", "pitch_y", "count", "name"]
  makeRow count row

/-- One column of pads: the template, the pitch, how many pads, and an identifier for all of
them. -/
def makeSingle (args : Arguments) : Metered Value := do
  let (count, row) ← Act.ofExcept <| Binding.run (do
    let template ← Binding.required "template" asTemplate
    let pitchY ← Binding.required "pitch_y" Value.asNumber
    let count ← Binding.required "count" Value.asCount
    let name ← Binding.optional "name" asSharedName
    return (count, fun (_ : Unit) => Layout.single template pitchY count (name.getD none)))
    args "single" ["template", "pitch_y", "count", "name"]
  makeRow count row

end LandPattern.Builtin
