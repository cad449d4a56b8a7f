import LandPattern.Arguments
import LandPattern.Meter
import LandPattern.Number.Reading
import LandPattern.Text.Blank
import LandPattern.Value.Order

/-!
# Functions on plain values

The functions of the vocabulary that make no elements: progressions of integers, lengths, absolute
and extreme values, and conversions between texts and numbers.
-/

namespace LandPattern.Builtin

open Act (ofExcept)
open Metered (charge checkLength)

/-- Start, stop and step of a progression. -/
structure Progression where
  start : Int
  stop : Int
  step : Int

/-- Reads one to three bounds; the start is zero and the step one unless they are given. -/
def Progression.ofValues (values : List Value) : Except Refusal Progression :=
  match values with
  | [stop] => do
    return ⟨0, ← stop.asInt "stop", 1⟩
  | [start, stop] => do
    let first ← start.asInt "start"
    return ⟨first, ← stop.asInt "stop", 1⟩
  | [start, stop, step] => do
    let first ← start.asInt "start"
    let last ← stop.asInt "stop"
    return ⟨first, last, ← step.asInt "step"⟩
  | others => .error (.rangeArguments others.length)

/-- How many terms lie before the stop, in the direction of the step. -/
def Progression.length (p : Progression) : Nat :=
  let distance := p.stop - p.start
  if distance ≠ 0 ∧ (0 < distance ↔ 0 < p.step) then
    (distance.natAbs + p.step.natAbs - 1) / p.step.natAbs
  else 0

/-- The terms, in order. -/
def Progression.terms (p : Progression) : List Int :=
  (List.range p.length).map fun (k : Nat) => p.start + p.step * k

/-- The terms of a progression, charged before they are listed. -/
def rangeOf (args : Arguments) : Metered Value := do
  let p ← ofExcept do
    let p ← Progression.ofValues (← args.unnamed "range")
    if p.step = 0 then throw .zeroStep
    return p
  checkLength p.length
  charge p.length
  Metered.list (p.terms.map .int)

/-- How many items or characters there are. -/
def lengthOf (args : Arguments) : Except Refusal Value := do
  match ← args.only "len" with
  | .list s | .tuple s => return .int s.items.length
  | .text s => return .int s.length
  | other => throw (.expects "len" .measurable other.type)

/-- The absolute value of a number. -/
def absoluteOf (args : Arguments) : Except Refusal Value := do
  match ← args.only "abs" with
  | .int n =>
    match Number.inRange? n.natAbs with
    | some m => return .int m
    | none => throw .absoluteOverflow
  | .float x => return .float x.abs
  | other => throw (.expects "abs" .number other.type)

/-- The extreme among candidates, the first of equal ones. -/
def extremeFrom (callee : String) (wanted : Ordering) (best : Value) :
    List Value → Except Refusal Value
  | [] =>
    if best.number?.isSome then .ok best else .error (.notNumber callee best.type)
  | candidate :: rest =>
    match Value.numberOrder? candidate best with
    | some (some found) =>
      extremeFrom callee wanted (if found == wanted then candidate else best) rest
    | _ => .error (.notNumbers callee candidate.type best.type)

/-- The extreme of the arguments, or of the items of a single list or tuple. -/
def extremeOf (callee : String) (wanted : Ordering) (args : Arguments) : Except Refusal Value := do
  let values ← args.unnamed callee
  let candidates := match values with
    | [.list s] | [.tuple s] => s.items
    | others => others
  match candidates with
  | [] => throw (.emptySequence callee)
  | first :: rest => extremeFrom callee wanted first rest

/-- The literal form of a value, as far as a text may be long. -/
def literalOf (v : Value) : Metered String := do
  let limit := (← read).collection
  match v.literalWithin limit with
  | some written => return written
  | none => Metered.refuse (.textTooLong limit)

/-- The literal form of a value as a text; a text stays as it is. -/
def textOf (args : Arguments) : Metered Value := do
  match ← ofExcept (args.only "str") with
  | .text s => return .text s
  | other => return .text (← literalOf other)

/-- The integer of a bool, of a float without its fraction, or of a text in decimal. -/
def intOf (args : Arguments) : Except Refusal Value := do
  match ← args.only "int" with
  | .int n => return .int n
  | .bool b => return .int (if b then 1 else 0)
  | .float x =>
    match (Number.truncate? x).bind Number.inRange? with
    | some n => return .int n
    | none => throw (.notConvertibleToInt (Number.valueText.write x))
  | .text s =>
    match Number.readInt? (Text.trim s.toList) with
    | some n => return .int n
    | none => throw (.invalidInt s)
  | other => throw (.notConvertibleToInt other.type)

/-- The double of an integer or of a text in decimal. -/
def floatOf (args : Arguments) : Except Refusal Value := do
  match ← args.only "float" with
  | .int n => return .float (Float.ofInt n)
  | .float x => return .float x
  | .text s =>
    match Number.readFloat? (Text.trim s.toList) with
    | some x => return .float x
    | none => throw (.invalidFloat s)
  | other => throw (.notConvertibleToFloat other.type)

end LandPattern.Builtin
