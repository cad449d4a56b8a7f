import LandPattern.Element.Field
import LandPattern.Meter
import LandPattern.Value.Expected

/-!
# Attributes as values

Reading an attribute of an element gives a value, and writing one takes a value: a number is stored
as a double, a tuple of layers as a list, and the tag cannot be written.
-/

namespace LandPattern

/-- A datum as a value; a list of layers is a new list. -/
def Datum.value (datum : Datum) : Metered Value :=
  match datum with
  | .number x => pure (.float x)
  | .flag b => pure (.bool b)
  | .text s => pure (.text s)
  | .pad (.number n) => pure (.int n)
  | .pad (.text s) => pure (.text s)
  | .shape form => pure (.text form.tag)
  | .layers names => Metered.list (names.map .text)

/-- A value as a datum of the sort that an attribute holds. -/
def Value.asDatum (v : Value) (sort : Datum.Sort) (field : String) : Except Refusal Datum :=
  match sort with
  | .number => Datum.number <$> v.asNumber field
  | .flag => Datum.flag <$> v.asBool field
  | .text => Datum.text <$> v.asText field
  | .pad => Datum.pad <$> v.asPadName field
  | .shape => Datum.shape <$> v.asShape field
  | .layers => Datum.layers <$> v.asLayers field

/-- The element with an attribute replaced by a value. -/
def Element.write (e : Element) (field : String) (v : Value) : Except Refusal Element :=
  if field = "t" then .error .readOnlyTag
  else
    let missing : Except Refusal Element := .error (.noField e.tag field)
    match e.get? field with
    | none => missing
    | some held => do
      let datum ← v.asDatum held.sort field
      match e.put? field datum with
      | some written => return written
      | none => missing

end LandPattern
