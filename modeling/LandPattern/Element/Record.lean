import LandPattern.Element.Field
import LandPattern.Json

/-!
# Records

An element becomes a JSON object with its tag first and its attributes in a fixed order. Nothing is
rounded or converted. A failed evaluation becomes a single record with the tag `Error`.
-/

namespace LandPattern

/-- The JSON value of a datum. -/
def Datum.json : Datum → Json
  | .number value => .float value
  | .flag value => .bool value
  | .text value => .text value
  | .pad (.number value) => .int value
  | .pad (.text value) => .text value
  | .shape value => .text value.tag
  | .layers value => .array (value.map .text)

/-- The attributes of an element in the order of its record, without the tag. -/
def Element.attributes : Element → List (String × Datum)
  | .rect r =>
    [("x", .number r.x), ("y", .number r.y), ("dx", .number r.dx), ("dy", .number r.dy),
      ("w", .number r.w), ("filled", .flag r.filled), ("layer", .text r.layer),
      ("corner", .number r.corner)]
  | .line l =>
    [("x1", .number l.x1), ("y1", .number l.y1), ("x2", .number l.x2), ("y2", .number l.y2),
      ("w", .number l.w), ("layer", .text l.layer)]
  | .caption c =>
    [("txt", .text c.txt), ("x", .number c.x), ("y", .number c.y), ("dy", .number c.dy),
      ("w", .number c.w), ("layer", .text c.layer)]
  | .smd s =>
    [("name", .pad s.name), ("x", .number s.x), ("y", .number s.y), ("dx", .number s.dx),
      ("dy", .number s.dy), ("shape", .shape s.shape), ("layers", .layers s.layers)]
  | .drilled p =>
    [("name", .pad p.name), ("x", .number p.x), ("y", .number p.y), ("d", .number p.d),
      ("drill", .number p.drill), ("plated", .flag p.bore.plated), ("layers", .layers p.layers)]
  | .model m => [("filename", .text m.filename)]

/-- The record of an element. -/
def Element.record (e : Element) : List (String × Datum) := ("t", .text e.tag) :: e.attributes

/-- What a record of the output stands for. -/
inductive Record where
  | element (e : Element)
  /-- A report that stands in place of all output. -/
  | error (message : String)

namespace Record

/-- The tag of a record. -/
def tag : Record → String
  | .element e => e.tag
  | .error _ => "Error"

/-- The record as a JSON object. -/
def json : Record → Json
  | .element e => .object (e.record.map fun (key, value) => (key, value.json))
  | .error message => .object [("t", .text "Error"), ("message", .text message)]

end Record

/-- The records of elements, in order. -/
def records (elements : List Element) : List Record := elements.map .element

/-- Records as a JSON array. -/
def recordArray (rs : List Record) : Json := .array (rs.map Record.json)

/-- The record text of one element, on one line. -/
def Element.text (e : Element) : String := (Record.element e).json.compact

end LandPattern
