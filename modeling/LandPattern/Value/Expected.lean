import LandPattern.Fault.Cause
import LandPattern.Value.Text

/-!
# Expected values

Reading a value as what an operation waits for. What is named in a refusal is the attribute,
parameter or operator that waits for it.
-/

namespace LandPattern.Value

/-- A finite number. -/
def asNumber (v : Value) (what : String) : Except Refusal Float :=
  match v.number? with
  | none => .error (.expects what .number v.type)
  | some x => if x.isFinite then .ok x else .error (.notFinite what)

/-- A truth value. -/
def asBool (v : Value) (what : String) : Except Refusal Bool :=
  match v with
  | .bool b => .ok b
  | other => .error (.expects what .bool other.type)

/-- A text. -/
def asText (v : Value) (what : String) : Except Refusal String :=
  match v with
  | .text s => .ok s
  | other => .error (.expects what .text other.type)

/-- An integer. -/
def asInt (v : Value) (what : String) : Except Refusal Int :=
  match v with
  | .int n => .ok n
  | other => .error (.expects what .int other.type)

/-- An integer that is not negative. -/
def asCount (v : Value) (what : String) : Except Refusal Nat :=
  match v with
  | .int n => if n < 0 then .error (.negativeCount what n) else .ok n.toNat
  | other => .error (.expects what .int other.type)

/-- What identifies a pad: an integer or a text. -/
def asPadName (v : Value) (what : String) : Except Refusal PadName :=
  match v with
  | .int n => .ok (.number n)
  | .text s => .ok (.text s)
  | other => .error (.expects what .padName other.type)

/-- Two finite numbers in a list or tuple. -/
def asPair (v : Value) (what : String) : Except Refusal (Float × Float) :=
  match v.sequence? with
  | some ⟨[first, second], _, _⟩ => do
    let a ← first.asNumber what
    let b ← second.asNumber what
    return (a, b)
  | _ => .error (.expects what .pair v.describe)

/-- Texts in a list or tuple. -/
def asLayers (v : Value) (what : String) : Except Refusal (List String) :=
  match v.sequence? with
  | some s => s.items.mapM fun item => item.asText what
  | none => .error (.expects what .layers v.type)

/-- The name of a pad shape. -/
def asShape (v : Value) (what : String) : Except Refusal PadShape := do
  let tag ← v.asText what
  match PadShape.ofTag? tag with
  | some shape => return shape
  | none => throw (.unknownShape tag)

end LandPattern.Value
