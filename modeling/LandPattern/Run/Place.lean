import LandPattern.Run.Machine
import LandPattern.Value.Attribute

/-!
# Places

A place is a variable followed by attribute and index steps. Writing to it replaces the component at
its end and everything above that component; the variable changes only if all of it succeeds and the
new value respects the limits.
-/

namespace LandPattern

open Script (Name Span)

/-- A step from a value to one of its components. -/
inductive Step where
  | field (name : Name)
  /-- An index that is evaluated already, and where it stands. -/
  | index (position : Int) (span : Span)

/-- A variable and the steps that lead from it to a component. -/
structure Place where
  /-- The name of the variable. -/
  root : String
  /-- Where the name stands. -/
  rootSpan : Span
  /-- The steps, from the variable on. -/
  steps : List Step

namespace Value

/-- The attribute of a value that is an element. -/
def readField (v : Value) (field : String) : Metered Value :=
  match v with
  | .element e =>
    match e.get? field with
    | some datum => datum.value
    | none => Metered.refuse (.noField e.tag field)
  | other => Metered.refuse (.noField other.type field)

/-- The item of a list or tuple, or the character of a text, at an index. -/
def readIndex (v : Value) (index : Int) : Except Refusal Value :=
  match v with
  | .list s | .tuple s =>
    match s.get? index with
    | some item => .ok item
    | none => .error (.indexOutOfRange index s.length)
  | .text s =>
    match (Sequence.position? s.length index).bind fun p => s.toList[p]? with
    | some c => .ok (.text c.toString)
    | none => .error (.indexOutOfRange index s.length)
  | other => .error (.notIndexable other.type)

/-- The refusal of an operation at a place, as a fault. -/
def failAt {α : Type} (span : Span) (why : Refusal) : Metered α :=
  throw ((Fault.refusal why).locate span)

/-- Writes to the component that the steps lead to: the value with the component replaced, and what
the write gives back. -/
def update {α : Type} (v : Value) (steps : List Step)
    (write : Value → Metered (Value × α)) : Metered (Value × α) :=
  match steps with
  | [] => write v
  | .field name :: rest =>
    match v with
    | .element e =>
      match e.get? name.text with
      | none => failAt name.span (.noField e.tag name.text)
      | some datum => do
        let (component, result) ← update (← datum.value) rest write
        match e.write name.text component with
        | .ok written => return (.element written, result)
        | .error why => failAt name.span why
    | other => failAt name.span (.noField other.type name.text)
  | .index position span :: rest =>
    match v with
    | .list s =>
      match Sequence.position? s.length position with
      | none => failAt span (.indexOutOfRange position s.length)
      | some p =>
        match s.items[p]? with
        | none => failAt span (.indexOutOfRange position s.length)
        | some item => do
          let (component, result) ← update item rest write
          return (.list (s.set p component (← Metered.freshStamp)), result)
    | other => failAt span (.noItemAssignment other.type)

/-- Writes to the component that the steps lead to, and checks the whole value afterwards. -/
def updateWithin {α : Type} (v : Value) (steps : List Step)
    (write : Value → Metered (Value × α)) : Metered (Value × α) := do
  let (written, result) ← v.update steps write
  Metered.checkValue written
  return (written, result)

end Value

namespace Evaluation

/-- The refusal of writing to a name that is no variable: definitions, the vocabulary and unknown
names are told apart. -/
def notWritable (name : String) : Evaluation Refusal :=
  consult fun function? globals _ =>
    if (globals.lookup name).isSome || (function? name).isSome then .ok (.readOnlyTopLevel name)
    else if (Builtin.ofName? name).isSome then .ok (.readOnlyBuiltin name)
    else .ok (.undefinedTarget name)

/-- Writes to a place: what the write gives back. -/
def updatePlace {α : Type} (place : Place) (write : Value → Metered (Value × α)) :
    Evaluation α := do
  match ← local? place.root with
  | none => refuseAt place.rootSpan (← notWritable place.root)
  | some root =>
    let (written, result) ← ofMetered (root.updateWithin place.steps write)
    modifyLocals fun locals => locals.set place.root written
    return result

end Evaluation

end LandPattern
