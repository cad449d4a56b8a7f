import LandPattern.Value.Expected

/-!
# Arguments

The evaluated arguments of a call, and their binding to parameters: positional arguments in order,
then keywords by name. Bound arguments are taken out one by one, and what is left keeps its order.
-/

namespace LandPattern

/-- The arguments of a call. -/
structure Arguments where
  /-- The arguments without a name, in order. -/
  positional : List Value
  /-- The arguments with a name, in order; no name occurs twice. -/
  keywords : List (String × Value)

namespace Arguments

/-- No arguments. -/
def empty : Arguments := ⟨[], []⟩

/-- The arguments with one more without a name. -/
def add (args : Arguments) (v : Value) : Arguments :=
  { args with positional := args.positional ++ [v] }

/-- The arguments with one more under a name, which must be new. -/
def addKeyword (args : Arguments) (name : String) (v : Value) : Except Refusal Arguments :=
  if (args.keywords.lookup name).isSome then .error (.repeatedKeyword name)
  else .ok { args with keywords := args.keywords ++ [(name, v)] }

/-- The arguments of a call that takes none with a name. -/
def unnamed (args : Arguments) (callee : String) : Except Refusal (List Value) :=
  match args.keywords with
  | [] => .ok args.positional
  | (name, _) :: _ => .error (.unexpectedKeyword callee name)

/-- The only argument of a function. -/
def only (args : Arguments) (callee : String) : Except Refusal Value := do
  match ← args.unnamed callee with
  | [v] => return v
  | others => throw (.functionTakesOne callee others.length)

/-- The only argument of a method. -/
def onlyOfMethod (args : Arguments) (method : String) : Except Refusal Value := do
  match ← args.unnamed method with
  | [v] => return v
  | others => throw (.methodTakesOne method others.length)

/-- Nothing, for a method without arguments. -/
def noneOfMethod (args : Arguments) (method : String) : Except Refusal Unit := do
  match ← args.unnamed method with
  | [] => return ()
  | others => throw (.methodTakesNone method others.length)

end Arguments

/-- Arguments bound to parameters. -/
structure Bound where
  /-- The name of what is called. -/
  callee : String
  /-- The values that are not taken yet, by parameter. -/
  values : List (String × Value)

namespace Bound

/-- Binds keywords to parameters that have no value yet. -/
def withKeywords (params : List String) (bound : Bound) :
    List (String × Value) → Except Refusal Bound
  | [] => .ok bound
  | (name, v) :: rest =>
    if !params.contains name then .error (.unexpectedKeyword bound.callee name)
    else if (bound.values.lookup name).isSome then .error (.doubledArgument bound.callee name)
    else withKeywords params { bound with values := bound.values ++ [(name, v)] } rest

/-- The value of a parameter, and what is left. -/
def take (bound : Bound) (param : String) : Option Value × Bound :=
  (bound.values.lookup param,
    { bound with values := bound.values.filter fun entry => entry.1 != param })

/-- The value that a parameter must have, and what is left. -/
def require (bound : Bound) (param : String) : Except Refusal (Value × Bound) :=
  match bound.take param with
  | (some v, rest) => .ok (v, rest)
  | (none, _) => .error (.missingArgument bound.callee param)

end Bound

/-- Binds arguments to parameters. -/
def Arguments.bind (args : Arguments) (callee : String) (params : List String) :
    Except Refusal Bound :=
  if params.length < args.positional.length then
    .error (.tooManyArguments callee params.length args.positional.length)
  else Bound.withKeywords params ⟨callee, params.zip args.positional⟩ args.keywords

/-- Reads bound arguments one after another. -/
abbrev Binding := StateT Bound (Except Refusal)

namespace Binding

/-- The value of a parameter, read in some way under the parameter's name. -/
def required {α : Type} (param : String) (read : Value → String → Except Refusal α) :
    Binding α := do
  let (v, rest) ← (← get).require param
  set rest
  read v param

/-- The value of a parameter, if it has one, read in some way. -/
def optional {α : Type} (param : String) (read : Value → String → Except Refusal α) :
    Binding (Option α) := do
  let (found, rest) := (← get).take param
  set rest
  match found with
  | none => return none
  | some v => return some (← read v param)

/-- The values that were not taken, in the order in which they were bound. -/
def leftover : Binding (List (String × Value)) := do
  return (← get).values

/-- Binds the arguments of a call and reads them. -/
def run {α : Type} (reading : Binding α) (args : Arguments) (callee : String)
    (params : List String) : Except Refusal α := do
  let bound ← args.bind callee params
  let (result, _) ← reading bound
  return result

end Binding

end LandPattern
