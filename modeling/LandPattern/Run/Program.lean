import LandPattern.Run.Eval
import LandPattern.Run.Result

/-!
# Running a script

Constants are evaluated in order, each seeing the ones before it and all functions. Then the entry
point is called, and its result becomes the elements of the footprint. Calls of script functions may
be nested only so deep: every call takes one from the number of calls that may still be opened.
-/

namespace LandPattern

open Script (Function Item Name Program Span)

/-- The name that frames of constants have in tracebacks. -/
def topLevel : String := "<top-level>"

namespace Evaluation

open Act (mapFault ofExcept)

/-- The variables that a call starts with: every parameter with its argument. -/
def bindParams (function : Function) (args : Arguments) : Except Refusal Scope :=
  let params := function.params.map Name.text
  Binding.run (params.foldlM (fun (scope : Scope) param => do
    let v ← Binding.required param fun v _ => pure v
    return scope.declare param v) []) args function.name.text params

/-- How a function is entered: with its parameters, and where it is called. -/
abbrev Entrance := Function → Scope → Span → Evaluation Value

/-- Calls functions of the script by name, given how a function is entered. -/
def callNamed (enter : Entrance) : Caller := fun name args span => do
  let function ← consult fun function? _ _ =>
    match function? name with
    | none => .error (.undefinedFunction name)
    | some function => .ok function
  enter function (← ofExcept (bindParams function args)) span

/-- Runs the body of a function; a function that ends without a result gives back `none`. -/
def runBody (caller : Caller) (function : Function) (params : Scope) (callSpan : Span) :
    Evaluation Value :=
  mapFault (·.leave function.name.text callSpan) do
    match ← inCall (Locals.ofParams params) (execBlock caller function.body) with
    | .giveBack v => return v
    | .next => return .nothing

/-- Refuses a call, since too many functions are active. -/
def refuseCall (callSpan : Span) : Evaluation Value := do
  let context ← read
  refuseAt callSpan (.callDepth context.limits.callDepth)

/-- Enters a function, while `remaining` calls may still be opened. -/
def enter (remaining : Nat) : Entrance := fun function params callSpan =>
  match remaining with
  | 0 => refuseCall callSpan
  | rest + 1 => runBody (callNamed (enter rest)) function params callSpan

/-- Evaluates the constants in order. -/
def loadConstants (caller : Caller) : List Item → Evaluation Unit
  | [] => return ()
  | .function _ :: rest => loadConstants caller rest
  | .constant name value :: rest => do
    let v ← mapFault (·.leave topLevel name.span) (eval caller value)
    modify fun machine => machine.withGlobals (machine.globals.declare name.text v)
    loadConstants caller rest

/-- Calls the entry point. -/
def callEntryPoint (enter : Entrance) (program : Program) : Evaluation Value := do
  match ← consult fun function? _ _ => .ok (function? entryPoint) with
  | some function =>
    match function.params with
    | [] => enter function [] function.name.span
    | first :: _ =>
      throw ((Fault.of (.entryPointParameters function.params.length)).locate first.span)
  | none =>
    match ← consult fun _ globals _ => .ok (globals.lookup entryPoint) with
    | none => throw (Fault.of .noEntryPoint)
    | some v =>
      let fault := Fault.of (.entryPointNotFunction v.type)
      match (program.items.map Item.name).find? fun name => name.text == entryPoint with
      | some name => throw (fault.locate name.span)
      | none => throw fault

/-- The elements of a result, as many as there may be. -/
def collect (v : Value) : Evaluation (List Element) := do
  let context ← read
  match v.elements context.limits.collection with
  | .ok elements => return elements
  | .error fault => throw fault

/-- Runs a script to the elements of its footprint, given how functions are entered. -/
def runProgram (enter : Entrance) (program : Program) : Evaluation (List Element) := do
  loadConstants (callNamed enter) program.items
  collect (← callEntryPoint enter program)

end Evaluation

/-- Runs a script under limits: its elements or its fault, and the machine as it stands then. -/
def Script.Program.run (program : Program) (limits : Limits) :
    Except Fault (List Element) × Machine :=
  (Evaluation.runProgram (Evaluation.enter limits.callDepth) program).outcome
    ⟨program.functions, limits⟩ Machine.start

end LandPattern
