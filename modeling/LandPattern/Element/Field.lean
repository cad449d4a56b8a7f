import LandPattern.Element.Basic

/-!
# Attributes of elements

The attributes of an element by name: what stands in each, and the element with one of them
replaced. Every element also shows its tag as the attribute `t`, which cannot be replaced.
-/

namespace LandPattern

/-- What an attribute holds. -/
inductive Datum where
  | number (value : Float)
  | flag (value : Bool)
  | text (value : String)
  | pad (value : PadName)
  | shape (value : PadShape)
  | layers (value : List String)
  deriving BEq, Repr

/-- The sorts of data that attributes hold. -/
inductive Datum.Sort where
  | number | flag | text | pad | shape | layers
  deriving DecidableEq, Repr

/-- The sort of a datum. -/
def Datum.sort : Datum → Datum.Sort
  | .number _ => .number
  | .flag _ => .flag
  | .text _ => .text
  | .pad _ => .pad
  | .shape _ => .shape
  | .layers _ => .layers

/-- What stands in an attribute of a rectangle. -/
def Rect.get? (r : Rect) (field : String) : Option Datum :=
  match field with
  | "x" => some (.number r.x)
  | "y" => some (.number r.y)
  | "dx" => some (.number r.dx)
  | "dy" => some (.number r.dy)
  | "w" => some (.number r.w)
  | "filled" => some (.flag r.filled)
  | "layer" => some (.text r.layer)
  | "corner" => some (.number r.corner)
  | _ => none

/-- What stands in an attribute of a line. -/
def Line.get? (l : Line) (field : String) : Option Datum :=
  match field with
  | "x1" => some (.number l.x1)
  | "y1" => some (.number l.y1)
  | "x2" => some (.number l.x2)
  | "y2" => some (.number l.y2)
  | "w" => some (.number l.w)
  | "layer" => some (.text l.layer)
  | _ => none

/-- What stands in an attribute of a caption. -/
def Caption.get? (c : Caption) (field : String) : Option Datum :=
  match field with
  | "txt" => some (.text c.txt)
  | "x" => some (.number c.x)
  | "y" => some (.number c.y)
  | "dy" => some (.number c.dy)
  | "w" => some (.number c.w)
  | "layer" => some (.text c.layer)
  | _ => none

/-- What stands in an attribute of a surface pad. -/
def Smd.get? (s : Smd) (field : String) : Option Datum :=
  match field with
  | "name" => some (.pad s.name)
  | "x" => some (.number s.x)
  | "y" => some (.number s.y)
  | "dx" => some (.number s.dx)
  | "dy" => some (.number s.dy)
  | "shape" => some (.shape s.shape)
  | "layers" => some (.layers s.layers)
  | _ => none

/-- What stands in an attribute of a drilled pad or hole. -/
def Drilled.get? (p : Drilled) (field : String) : Option Datum :=
  match field with
  | "name" => some (.pad p.name)
  | "x" => some (.number p.x)
  | "y" => some (.number p.y)
  | "d" => some (.number p.d)
  | "drill" => some (.number p.drill)
  | "plated" => some (.flag p.bore.plated)
  | "layers" => some (.layers p.layers)
  | _ => none

/-- What stands in an attribute of a model. -/
def Model.get? (m : Model) (field : String) : Option Datum :=
  match field with
  | "filename" => some (.text m.filename)
  | _ => none

/-- What stands in an attribute; nothing, if the variant has no such attribute. -/
def Element.get? (e : Element) (field : String) : Option Datum :=
  if field = "t" then some (.text e.tag)
  else match e with
    | .rect r => r.get? field
    | .line l => l.get? field
    | .caption c => c.get? field
    | .smd s => s.get? field
    | .drilled p => p.get? field
    | .model m => m.get? field

/-- The rectangle with an attribute replaced by a datum of its sort. -/
def Rect.put? (r : Rect) (field : String) (value : Datum) : Option Rect :=
  match field, value with
  | "x", .number v => some { r with x := v }
  | "y", .number v => some { r with y := v }
  | "dx", .number v => some { r with dx := v }
  | "dy", .number v => some { r with dy := v }
  | "w", .number v => some { r with w := v }
  | "filled", .flag v => some { r with filled := v }
  | "layer", .text v => some { r with layer := v }
  | "corner", .number v => some { r with corner := v }
  | _, _ => none

/-- The line with an attribute replaced by a datum of its sort. -/
def Line.put? (l : Line) (field : String) (value : Datum) : Option Line :=
  match field, value with
  | "x1", .number v => some { l with x1 := v }
  | "y1", .number v => some { l with y1 := v }
  | "x2", .number v => some { l with x2 := v }
  | "y2", .number v => some { l with y2 := v }
  | "w", .number v => some { l with w := v }
  | "layer", .text v => some { l with layer := v }
  | _, _ => none

/-- The caption with an attribute replaced by a datum of its sort. -/
def Caption.put? (c : Caption) (field : String) (value : Datum) : Option Caption :=
  match field, value with
  | "txt", .text v => some { c with txt := v }
  | "x", .number v => some { c with x := v }
  | "y", .number v => some { c with y := v }
  | "dy", .number v => some { c with dy := v }
  | "w", .number v => some { c with w := v }
  | "layer", .text v => some { c with layer := v }
  | _, _ => none

/-- The surface pad with an attribute replaced by a datum of its sort. -/
def Smd.put? (s : Smd) (field : String) (value : Datum) : Option Smd :=
  match field, value with
  | "name", .pad v => some { s with name := v }
  | "x", .number v => some { s with x := v }
  | "y", .number v => some { s with y := v }
  | "dx", .number v => some { s with dx := v }
  | "dy", .number v => some { s with dy := v }
  | "shape", .shape v => some { s with shape := v }
  | "layers", .layers v => some { s with layers := v }
  | _, _ => none

/-- The drilled pad or hole with an attribute replaced by a datum of its sort. A hole accepts a
plating and stays unplated. -/
def Drilled.put? (p : Drilled) (field : String) (value : Datum) : Option Drilled :=
  match field, value with
  | "name", .pad v => some { p with name := v }
  | "x", .number v => some { p with x := v }
  | "y", .number v => some { p with y := v }
  | "d", .number v => some { p with d := v }
  | "drill", .number v => some { p with drill := v }
  | "plated", .flag v => some { p with bore := p.bore.withPlating v }
  | "layers", .layers v => some { p with layers := v }
  | _, _ => none

/-- The model with an attribute replaced by a datum of its sort. -/
def Model.put? (_ : Model) (field : String) (value : Datum) : Option Model :=
  match field, value with
  | "filename", .text v => some ⟨v⟩
  | _, _ => none

/-- The element with an attribute replaced; nothing, if the variant has no such attribute or the
datum is of another sort. -/
def Element.put? (e : Element) (field : String) (value : Datum) : Option Element :=
  match e with
  | .rect r => (r.put? field value).map .rect
  | .line l => (l.put? field value).map .line
  | .caption c => (c.put? field value).map .caption
  | .smd s => (s.put? field value).map .smd
  | .drilled p => (p.put? field value).map .drilled
  | .model m => (m.put? field value).map .model

end LandPattern
