import LandPattern.Element.Basic

/-!
# The vocabulary

The names every script starts with: makers of elements, makers of rows of pads, and a few functions
on plain values.
-/

namespace LandPattern

/-- A function of the vocabulary. -/
inductive Builtin where
  | rect (kind : RectKind)
  | line
  | caption (kind : CaptionKind)
  | smd
  /-- A drilled pad; new ones are plated. -/
  | pad
  | hole
  | model
  /-- Two columns of pads. -/
  | dual
  /-- One column of pads. -/
  | single
  | range
  | len
  | abs
  | min
  | max
  | str
  | int
  | float
  deriving DecidableEq, Repr

namespace Builtin

/-- The name by which messages call a function of the vocabulary. -/
def name : Builtin → String
  | .rect kind => kind.tag
  | .line => "Line"
  | .caption kind => kind.tag
  | .smd => "Smd"
  | .pad => "Pad"
  | .hole => "Hole"
  | .model => "Model"
  | .dual => "dual"
  | .single => "single"
  | .range => "range"
  | .len => "len"
  | .abs => "abs"
  | .min => "min"
  | .max => "max"
  | .str => "str"
  | .int => "int"
  | .float => "float"

/-- The functions that have no alias. -/
def plain : List Builtin :=
  [.line, .caption .text, .caption .name, .caption .reference, .smd, .pad, .hole, .model, .dual,
    .single, .range, .len, .abs, .min, .max, .str, .int, .float]

/-- What a name of the vocabulary stands for. Rectangles are also found by the names of the layers
they lie on. -/
def ofName? (word : String) : Option Builtin :=
  match RectKind.ofName? word with
  | some kind => some (.rect kind)
  | none => plain.find? fun function => function.name == word

end Builtin

end LandPattern
