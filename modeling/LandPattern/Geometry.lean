/-!
# Points, sizes and extents

Coordinates are relative to the placement point of a footprint, with y growing downward. An extent
is the box between a least and a greatest corner; joining extents passes over coordinates that are
no numbers.
-/

namespace LandPattern

/-- A position in the plane of a footprint. -/
structure Point where
  x : Float
  y : Float
  deriving DecidableEq, Repr

/-- A width and a height. -/
structure Size where
  width : Float
  height : Float
  deriving DecidableEq, Repr

/-- The smaller of two coordinates; the first of two equal ones, and the other one of a pair in
which one is no number. -/
def lesser (a b : Float) : Float := if a.isNaN || b < a then b else a

/-- The larger of two coordinates, with the same preference. -/
def greater (a b : Float) : Float := if a.isNaN || a < b then b else a

/-- A box with sides along the axes. -/
structure Extent where
  minX : Float
  minY : Float
  maxX : Float
  maxY : Float
  deriving DecidableEq, Repr

namespace Extent

/-- The smallest box that holds two corners, given in any order. -/
def ofCorners (a b : Point) : Extent :=
  ⟨lesser a.x b.x, lesser a.y b.y, greater a.x b.x, greater a.y b.y⟩

/-- The box of a size around its centre. -/
def around (center : Point) (size : Size) : Extent :=
  let halfWidth := size.width / 2
  let halfHeight := size.height / 2
  ⟨center.x - halfWidth, center.y - halfHeight, center.x + halfWidth, center.y + halfHeight⟩

/-- How wide the box is. -/
def width (b : Extent) : Float := b.maxX - b.minX

/-- How high the box is. -/
def height (b : Extent) : Float := b.maxY - b.minY

/-- The smallest box that holds two boxes. -/
def merge (a b : Extent) : Extent :=
  ⟨lesser a.minX b.minX, lesser a.minY b.minY, greater a.maxX b.maxX, greater a.maxY b.maxY⟩

/-- The box grown by an amount on every side. -/
def expand (b : Extent) (amount : Float) : Extent :=
  ⟨b.minX - amount, b.minY - amount, b.maxX + amount, b.maxY + amount⟩

/-- The smallest box that holds all of several boxes; nothing for none. -/
def mergeAll : List Extent → Option Extent
  | [] => none
  | b :: rest => some (rest.foldl merge b)

end Extent

end LandPattern
