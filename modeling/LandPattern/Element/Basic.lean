import LandPattern.Geometry

/-!
# Elements

The closed set of things a footprint is made of. An element is plain data; changing an attribute
gives a new element. Rectangles, captions and drilled pads come in kinds that share attributes and
differ in their tag and in what a new one starts with.
-/

namespace LandPattern

/-- The kinds of rectangles. -/
inductive RectKind where
  /-- A plain rectangle on the silkscreen. -/
  | rect
  /-- An outline on the silkscreen. -/
  | outline
  /-- The boundary that other parts keep clear of. -/
  | courtyard
  /-- The outline of the body on the fabrication drawing. -/
  | fabrication
  /-- A filled opening for solder paste. -/
  | paste
  /-- A filled opening in the solder mask. -/
  | mask
  deriving DecidableEq, Repr

namespace RectKind

/-- The tag of the kind. -/
def tag : RectKind → String
  | .rect => "Rect"
  | .outline => "Outline"
  | .courtyard => "Courtyard"
  | .fabrication => "Fabrication"
  | .paste => "Paste"
  | .mask => "Mask"

/-- Where a new rectangle lies. -/
def layer : RectKind → String
  | .rect | .outline => "F.SilkS"
  | .courtyard => "F.CrtYd"
  | .fabrication => "F.Fab"
  | .paste => "F.Paste"
  | .mask => "F.Mask"

/-- The stroke width of a new rectangle. -/
def strokeWidth : RectKind → Float
  | .rect | .outline => 0.12
  | .courtyard => 0.05
  | .fabrication => 0.1
  | .paste | .mask => 0

/-- Whether a new rectangle is filled. -/
def filled : RectKind → Bool
  | .paste | .mask => true
  | _ => false

/-- The names of the kinds: their tags, and aliases after the layers they lie on. -/
def names : List (String × RectKind) :=
  [("Rect", .rect), ("Outline", .outline), ("FSilkS", .outline), ("Courtyard", .courtyard),
    ("FCrtYd", .courtyard), ("CrtYd", .courtyard), ("Fabrication", .fabrication),
    ("FFab", .fabrication), ("Paste", .paste), ("FPaste", .paste), ("Mask", .mask),
    ("FMask", .mask)]

/-- The kind with this name. -/
def ofName? (name : String) : Option RectKind := names.lookup name

end RectKind

/-- What the making of elements refuses. -/
inductive ElementRefusal where
  /-- No rectangle is called this. -/
  | unknownRectKind (name : String)
  /-- A row is asked for of something that is not a pad, by its type. -/
  | notATemplate (type : String)
  deriving DecidableEq, Repr

/-- The refusal in words. -/
def ElementRefusal.message : ElementRefusal → String
  | .unknownRectKind name => s!"unknown rectangle kind `{name}`"
  | .notATemplate type => s!"layout template must be an Smd, Pad or Hole, got {type}"

/-- The kind with this name, or the refusal of an unknown name. -/
def RectKind.ofName (name : String) : Except ElementRefusal RectKind :=
  match RectKind.ofName? name with
  | some kind => .ok kind
  | none => .error (.unknownRectKind name)

/-- A rectangle centred on its position. -/
structure Rect where
  kind : RectKind
  x : Float
  y : Float
  /-- Width. -/
  dx : Float
  /-- Height. -/
  dy : Float
  /-- Stroke width. -/
  w : Float
  filled : Bool
  layer : String
  /-- Size of the cut corners. -/
  corner : Float
  deriving BEq, Repr

/-- A new rectangle at the origin. -/
def Rect.new (kind : RectKind) (size : Size) : Rect :=
  ⟨kind, 0, 0, size.width, size.height, kind.strokeWidth, kind.filled, kind.layer, 0⟩

/-- A stroke from one point to another. -/
structure Line where
  x1 : Float
  y1 : Float
  x2 : Float
  y2 : Float
  /-- Stroke width. -/
  w : Float
  layer : String
  deriving BEq, Repr

/-- A new line on the silkscreen. -/
def Line.new (start stop : Point) : Line :=
  ⟨start.x, start.y, stop.x, stop.y, 0.12, "F.SilkS"⟩

/-- The kinds of captions. -/
inductive CaptionKind where
  /-- Free text on the silkscreen. -/
  | text
  /-- The name of the footprint, on the fabrication drawing. -/
  | name
  /-- The reference designator, on the silkscreen. -/
  | reference
  deriving DecidableEq, Repr

/-- The tag of the kind. -/
def CaptionKind.tag : CaptionKind → String
  | .text => "Text"
  | .name => "Name"
  | .reference => "Reference"

/-- Where a new caption lies. -/
def CaptionKind.layer : CaptionKind → String
  | .text | .reference => "F.SilkS"
  | .name => "F.Fab"

/-- What a reference shows until a designator replaces it. -/
def referencePlaceholder : String := "REF**"

/-- A text centred on its position. -/
structure Caption where
  kind : CaptionKind
  txt : String
  x : Float
  y : Float
  /-- Height of the glyphs. -/
  dy : Float
  /-- Stroke width. -/
  w : Float
  layer : String
  deriving BEq, Repr

/-- A new caption at the origin. -/
def Caption.new (kind : CaptionKind) (txt : String) : Caption :=
  ⟨kind, txt, 0, 0, 1, 0.15, kind.layer⟩

/-- What identifies a pad. A pin number stays a number in the records. -/
inductive PadName where
  | number (value : Int)
  | text (value : String)
  deriving DecidableEq, Repr

/-- The copper shape of a surface pad. -/
inductive PadShape where
  | rect
  | circle
  deriving DecidableEq, Repr

/-- The shape as records and scripts write it. -/
def PadShape.tag : PadShape → String
  | .rect => "rect"
  | .circle => "circle"

/-- The shape that is written this way. -/
def PadShape.ofTag? (tag : String) : Option PadShape :=
  if tag == "rect" then some .rect
  else if tag == "circle" then some .circle
  else none

/-- A pad on the surface. -/
structure Smd where
  name : PadName
  x : Float
  y : Float
  /-- Width. -/
  dx : Float
  /-- Height. -/
  dy : Float
  shape : PadShape
  layers : List String
  deriving BEq, Repr

/-- A new surface pad at the origin: front copper, paste and mask. -/
def Smd.new (name : PadName) (size : Size) : Smd :=
  ⟨name, 0, 0, size.width, size.height, .rect, ["F.Cu", "F.Paste", "F.Mask"]⟩

/-- What a bore is for. Only a pad can be plated. -/
inductive Bore where
  | pad (plated : Bool)
  | hole
  deriving DecidableEq, Repr

/-- Whether the wall of the bore is plated. -/
def Bore.plated : Bore → Bool
  | .pad plated => plated
  | .hole => false

/-- The tag of the kind. -/
def Bore.tag : Bore → String
  | .pad _ => "Pad"
  | .hole => "Hole"

/-- The bore with another plating; a hole stays as it is. -/
def Bore.withPlating (plated : Bool) : Bore → Bore
  | .pad _ => .pad plated
  | .hole => .hole

/-- A round pad or hole through the board. -/
structure Drilled where
  bore : Bore
  name : PadName
  x : Float
  y : Float
  /-- Diameter of the copper. -/
  d : Float
  /-- Diameter of the bore. -/
  drill : Float
  layers : List String
  deriving BEq, Repr

/-- A new drilled pad or hole at the origin: copper and mask on every side. -/
def Drilled.new (bore : Bore) (name : PadName) (d drill : Float) : Drilled :=
  ⟨bore, name, 0, 0, d, drill, ["*.Cu", "*.Mask"]⟩

/-- A link to a model of the part in space. -/
structure Model where
  filename : String
  deriving BEq, Repr

/-- One thing that a footprint is made of. -/
inductive Element where
  | rect (r : Rect)
  | line (l : Line)
  | caption (c : Caption)
  | smd (s : Smd)
  | drilled (p : Drilled)
  | model (m : Model)
  deriving BEq, Repr

namespace Element

/-- The tag that names the variant, with the kind where there are kinds. -/
def tag : Element → String
  | .rect r => r.kind.tag
  | .line _ => "Line"
  | .caption c => c.kind.tag
  | .smd _ => "Smd"
  | .drilled p => p.bore.tag
  | .model _ => "Model"

/-- Pads and holes can be copied to other places. -/
def isPad : Element → Bool
  | .smd _ | .drilled _ => true
  | _ => false

/-- A copy of a pad or hole with another identifier at another place; any other element is
unchanged. -/
def place (name : PadName) (x y : Float) : Element → Element
  | .smd s => .smd { s with name := name, x := x, y := y }
  | .drilled p => .drilled { p with name := name, x := x, y := y }
  | other => other

/-- A surface pad becomes a circle; any other element is unchanged. -/
def round : Element → Element
  | .smd s => .smd { s with shape := .circle }
  | other => other

/-- The box that an element covers, strokes included. The width of a caption is an estimate from
its length, and models cover nothing. -/
def extent? : Element → Option Extent
  | .rect r => some ((Extent.around ⟨r.x, r.y⟩ ⟨r.dx, r.dy⟩).expand (r.w / 2))
  | .line l => some ((Extent.ofCorners ⟨l.x1, l.y1⟩ ⟨l.x2, l.y2⟩).expand (l.w / 2))
  | .caption c =>
    let width := Float.ofNat c.txt.length * c.dy * 0.8
    some ((Extent.around ⟨c.x, c.y⟩ ⟨width, c.dy⟩).expand (c.w / 2))
  | .smd s => some (Extent.around ⟨s.x, s.y⟩ ⟨s.dx, s.dy⟩)
  | .drilled p => some (Extent.around ⟨p.x, p.y⟩ ⟨p.d, p.d⟩)
  | .model _ => none

end Element

/-- The box that covers all elements; nothing when none of them covers anything. -/
def extentOf (elements : List Element) : Option Extent :=
  Extent.mergeAll (elements.filterMap Element.extent?)

end LandPattern
