import LandPattern.Arguments
import LandPattern.Value.Attribute
import LandPattern.Value.Equality

/-!
# Methods

What lists and elements can be asked to do. A call gives back the receiver as it is afterwards
together with the result; only the methods listed as mutating ever change it.
-/

namespace LandPattern.Method

open Act (ofExcept)
open Metered (refuse charge checkLength checkSequence freshStamp)

/-- The methods that change their receiver. -/
def mutating : List String := ["append", "extend", "remove", "pop", "circle"]

/-- Whether a method changes its receiver. -/
def mutates (method : String) : Bool := mutating.contains method

/-- Adds an item at the end. -/
def append (s : Sequence Value) (item : Value) : Metered (Sequence Value) := do
  checkLength (s.length + 1)
  let grown := s.push item (← freshStamp)
  checkSequence grown
  return grown

/-- Adds the items of a list or tuple at the end. -/
def extend (s : Sequence Value) (items : Value) : Metered (Sequence Value) := do
  match items.sequence? with
  | none => refuse (.expects "extend" .sequence items.type)
  | some other =>
    checkLength (s.length + other.length)
    charge other.length
    return s.append other (← freshStamp)

/-- Removes the first item that equals a value. -/
def remove (s : Sequence Value) (v : Value) : Metered (Sequence Value) := do
  match ← v.findIn s.items with
  | some position => return s.erase position (← freshStamp)
  | none => refuse (.notInList v.literal)

/-- Removes the last item and gives it back. -/
def pop (s : Sequence Value) : Metered (Sequence Value × Value) := do
  match s.pop? (← freshStamp) with
  | some result => return result
  | none => refuse .popFromEmpty

/-- A method of a list. -/
def callOnList (s : Sequence Value) (method : String) (args : Arguments) :
    Metered (Value × Value) := do
  match method with
  | "append" =>
    let item ← ofExcept (args.onlyOfMethod method)
    return (.list (← append s item), .nothing)
  | "extend" =>
    let items ← ofExcept (args.onlyOfMethod method)
    return (.list (← extend s items), .nothing)
  | "remove" =>
    let v ← ofExcept (args.onlyOfMethod method)
    return (.list (← remove s v), .nothing)
  | "pop" =>
    ofExcept (args.noneOfMethod method)
    let (rest, last) ← pop s
    return (.list rest, last)
  | "contains" =>
    let v ← ofExcept (args.onlyOfMethod method)
    return (.list s, .bool (← v.findIn s.items).isSome)
  | _ => refuse (.noMethod "list" method)

/-- A copy of a pad with another identifier at another place. -/
def placed (e : Element) (args : Arguments) : Except Refusal Element :=
  Binding.run (do
    let name ← Binding.required "name" Value.asPadName
    let x ← Binding.required "x" Value.asNumber
    let y ← Binding.required "y" Value.asNumber
    return e.place name x y) args "at" ["name", "x", "y"]

/-- A method of an element: pads and holes are copied by `at`, and a surface pad becomes a circle
by `circle`. -/
def callOnElement (e : Element) (method : String) (args : Arguments) :
    Except Refusal (Value × Value) := do
  match method, e with
  | "at", .smd _ | "at", .drilled _ => return (.element e, .element (← placed e args))
  | "circle", .smd _ =>
    args.noneOfMethod method
    return (.element e.round, .nothing)
  | _, _ => throw (.noMethod e.tag method)

/-- Calls a method: the receiver afterwards, and the result. -/
def call (receiver : Value) (method : String) (args : Arguments) : Metered (Value × Value) :=
  match receiver with
  | .list s => callOnList s method args
  | .element e => ofExcept (callOnElement e method args)
  | other => refuse (.noMethod other.type method)

end LandPattern.Method
