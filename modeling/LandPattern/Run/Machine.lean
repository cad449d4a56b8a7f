import LandPattern.Arguments
import LandPattern.Meter
import LandPattern.Run.Locals

/-!
# The machine

The state of an evaluation: the constants that are evaluated, the variables of the active calls, and
the meter. It outlives a fault, and whatever is opened for a while (a block, a call, the count of
what is being evaluated) is closed on every way out.
-/

namespace LandPattern

open Script (Function Span)

/-- What is stored at one moment of an evaluation. -/
structure Moment where
  /-- The constants evaluated so far. -/
  globals : Scope
  /-- The variables of the active calls, innermost first. -/
  frames : List Locals
  /-- The value of the expression that ends at this moment, if one does. -/
  value : Option Value

/-- The state of an evaluation. -/
structure Machine where
  /-- The constants evaluated so far, in order. -/
  globals : Scope
  /-- The variables of the active calls, innermost first. -/
  frames : List Locals
  /-- What has been used. -/
  meter : Meter
  /-- The moments so far: after every change of what is stored, and after every expression. Nothing
  depends on them. -/
  history : Moment → Prop

namespace Machine

/-- The state before anything is evaluated. -/
def start : Machine := ⟨[], [], Meter.zero, fun _ => False⟩

/-- The moment at which this state is reached. -/
def moment (machine : Machine) (value : Option Value) : Moment :=
  ⟨machine.globals, machine.frames, value⟩

/-- The state with this moment in its history. -/
def noted (machine : Machine) (value : Option Value) : Machine :=
  { machine with
    history := fun moment => moment = machine.moment value ∨ machine.history moment }

/-- Replaces the variables of all calls. -/
def withFrames (machine : Machine) (frames : List Locals) : Machine :=
  { machine with frames := frames }.noted none

/-- Replaces the constants. -/
def withGlobals (machine : Machine) (globals : Scope) : Machine :=
  { machine with globals := globals }.noted none

/-- Replaces the meter. -/
def withMeter (machine : Machine) (meter : Meter) : Machine := { machine with meter := meter }

end Machine

/-- What an evaluation depends on and never changes. -/
structure Context where
  /-- The functions of the script. -/
  functions : List Function
  /-- The limits. -/
  limits : Limits

/-- The function of the script with this name. -/
def Context.function? (context : Context) (name : String) : Option Function :=
  context.functions.find? fun function => function.name.text == name

/-- A step of an evaluation. -/
abbrev Evaluation := Act Context Machine

/-- What was left behind by a statement: nothing, or the result of the whole function. -/
inductive Flow where
  | next
  | giveBack (value : Value)

namespace Evaluation

open Act (closing mapFault ofExcept ofOutcome)

variable {α : Type}

/-- What is charged is charged to the machine's meter. -/
def ofMetered (act : Metered α) : Evaluation α :=
  ofOutcome fun context machine =>
    let (result, meter) := act.outcome context.limits machine.meter
    (result, machine.withMeter meter)

/-- Ends with a refused operation at a place. -/
def refuseAt (span : Span) (why : Refusal) : Evaluation α :=
  throw ((Fault.refusal why).locate span)

/-- Places the fault of a step, unless it has a place. -/
def locating (span : Span) (act : Evaluation α) : Evaluation α :=
  mapFault (·.locate span) act

/-- Counts a step as active while it runs. -/
def counted (act : Evaluation α) : Evaluation α := do
  modify fun machine => machine.withMeter machine.meter.begin
  closing (fun machine => machine.withMeter machine.meter.finish) act

/-- Takes note of the value of a step. -/
def noting (act : Evaluation Value) : Evaluation Value := do
  let v ← act
  modify fun machine => machine.noted (some v)
  return v

/-- Looks something up among the functions of the script, the constants, and the variables of the
innermost call. -/
def consult (look : (String → Option Function) → Scope → Option Locals → Except Refusal α) :
    Evaluation α := do
  let context ← read
  let machine ← get
  ofExcept (look context.function? machine.globals machine.frames.head?)

/-- Changes the variables of the innermost call. -/
def modifyLocals (change : Locals → Locals) : Evaluation Unit := do
  let machine ← get
  match machine.frames with
  | [] => throw (Fault.of .noActiveFunction)
  | locals :: outer => set (machine.withFrames (change locals :: outer))

/-- Closes the innermost block of the innermost call. -/
def closeBlock (machine : Machine) : Machine :=
  match machine.frames with
  | [] => machine
  | locals :: outer => machine.withFrames (locals.pop :: outer)

/-- Runs a step in a block of its own. -/
def inBlock (act : Evaluation α) : Evaluation α := do
  modifyLocals Locals.push
  closing closeBlock act

/-- Runs a step as a call with these variables. -/
def inCall (locals : Locals) (act : Evaluation α) : Evaluation α := do
  modify fun machine => machine.withFrames (locals :: machine.frames)
  closing (fun machine => machine.withFrames machine.frames.tail) act

/-- The variable of the innermost call with this name. -/
def local? (name : String) : Evaluation (Option Value) :=
  consult fun _ _ locals => .ok (locals.bind fun locals => locals.get? name)

end Evaluation

end LandPattern
