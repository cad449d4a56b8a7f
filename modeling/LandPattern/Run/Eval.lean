import LandPattern.Builtin.Call
import LandPattern.Method
import LandPattern.Run.Place
import LandPattern.Script.Syntax
import LandPattern.Value.Operator

/-!
# Evaluation of expressions and statements

The meaning of a tree. Calls of script functions are a parameter, so that the recursion here follows
the tree alone. Every statement and every expression charges one operation before anything else, and
places the faults that pass through it unless they have a place.
-/

namespace LandPattern

open Script (Argument AssignOp BinaryOp Block Branch Expr Function Name Span Stmt UnaryOp)

/-- How a script function is called: its name, its arguments, and where the call stands. -/
abbrev Caller := String → Arguments → Span → Evaluation Value

namespace Evaluation

open Act (ofExcept)

/-- What a name stands for: a variable, a constant, a function of the script, or a word of the
vocabulary. -/
def lookup (name : String) : Evaluation Value :=
  consult fun function? globals locals =>
    match locals.bind fun locals => locals.get? name, globals.lookup name with
    | some v, _ => .ok v
    | none, some v => .ok v
    | none, none =>
      if (function? name).isSome then .ok (.function name)
      else match Builtin.ofName? name with
        | some word => .ok (.builtin word)
        | none => .error (.undefinedName name)

/-- The truth value of an operand at a place. -/
def truth (what : String) (span : Span) (v : Value) : Evaluation Bool :=
  match v with
  | .bool b => pure b
  | other => refuseAt span (.expects what .bool other.type)

/-- The index that a value at a place stands for. -/
def position (span : Span) (v : Value) : Evaluation Int :=
  match v with
  | .int n => pure n
  | other => refuseAt span (.indexNotInt other.type)

/-- The items to loop over. -/
def iterated (span : Span) (v : Value) : Evaluation (List Value) :=
  match v.sequence? with
  | some s => pure s.items
  | none => refuseAt span (.notIterable v.type)

/-- Builds a sequence of a number of items, which is checked before any of them is evaluated. -/
def collected (length : Nat) (items : Evaluation (List Value)) : Evaluation (Sequence Value) := do
  ofMetered (Metered.checkLength length)
  let values ← items
  ofMetered do
    let s ← Metered.sequence values
    Metered.checkSequence s
    return s

/-- Calls a value at a place with arguments. -/
def apply (caller : Caller) (callee : Value) (calleeSpan : Span) (args : Arguments)
    (callSpan : Span) : Evaluation Value :=
  match callee with
  | .builtin word => ofMetered (word.call args)
  | .function name => caller name args callSpan
  | other => refuseAt calleeSpan (.notCallable other.type)

/-- Runs a body once for every item, until one of the rounds ends the function; `each` is what one
round counts as. -/
def rounds (each : Rounds) (body : Value → Evaluation Flow) : List Value → Evaluation Flow
  | [] => return .next
  | item :: rest => do
    ofMetered (Metered.countRounds each)
    match ← body item with
    | .giveBack v => return .giveBack v
    | .next => rounds each body rest

/-- Stores the result of an assignment. -/
def store (place : Place) (op : AssignOp) (v : Value) : Evaluation Unit :=
  updatePlace place fun old => return (← old.assigned op v, ())

mutual

/-- The value of an expression. -/
def eval (caller : Caller) (e : Expr) : Evaluation Value :=
  counted <| locating e.span <| noting do
    ofMetered (Metered.charge 1)
    match e with
    | .int _ n => return .int n
    | .float _ x => return .float x
    | .text _ s => return .text s
    | .bool _ b => return .bool b
    | .none _ => return .nothing
    | .name _ name => lookup name
    | .list _ items => return .list (← collected items.length (evalAll caller items))
    | .tuple _ items => return .tuple (← collected items.length (evalAll caller items))
    | .unary _ .neg operand => ofExcept (← eval caller operand).negate
    | .unary _ .not operand => return .bool (!(← truth "not" operand.span (← eval caller operand)))
    | .binary _ .and left right => do
      if ← truth BinaryOp.and.symbol left.span (← eval caller left) then
        return .bool (← truth BinaryOp.and.symbol right.span (← eval caller right))
      else return .bool false
    | .binary _ .or left right => do
      if ← truth BinaryOp.or.symbol left.span (← eval caller left) then return .bool true
      else return .bool (← truth BinaryOp.or.symbol right.span (← eval caller right))
    | .binary _ op left right => do
      let a ← eval caller left
      let b ← eval caller right
      ofMetered (a.combine op b)
    | .call span callee args => do
      let target ← eval caller callee
      let args ← evalArgs caller Arguments.empty args
      apply caller target callee.span args span
    | .method _ receiver method args => locating method.span do
      if Method.mutates method.text && receiver.isPlace then
        let place ← resolve caller receiver
        let args ← evalArgs caller Arguments.empty args
        updatePlace place fun old => Method.call old method.text args
      else
        let object ← eval caller receiver
        let args ← evalArgs caller Arguments.empty args
        return (← ofMetered (Method.call object method.text args)).2
    | .field _ object field => do
      let object ← eval caller object
      locating field.span (ofMetered (object.readField field.text))
    | .index _ object index => do
      let object ← eval caller object
      let p ← position index.span (← eval caller index)
      locating index.span (ofExcept (object.readIndex p))
termination_by structural e

/-- The values of expressions, from the left. -/
def evalAll (caller : Caller) (items : List Expr) : Evaluation (List Value) :=
  match items with
  | [] => return []
  | e :: rest => do
    let v ← eval caller e
    return v :: (← evalAll caller rest)
termination_by structural items

/-- The arguments of a call after those that are evaluated already, from the left. -/
def evalArgs (caller : Caller) (done : Arguments) (args : List Argument) :
    Evaluation Arguments :=
  match args with
  | [] => return done
  | .positional e :: rest => do
    evalArgs caller (done.add (← eval caller e)) rest
  | .keyword name e :: rest => do
    let v ← eval caller e
    evalArgs caller (← locating name.span (ofExcept (done.addKeyword name.text v))) rest
termination_by structural args

/-- The place that an expression names; its indices are evaluated from the left. -/
def resolve (caller : Caller) (e : Expr) : Evaluation Place :=
  match e with
  | .name span name => return ⟨name, span, []⟩
  | .field _ object field => do
    let place ← resolve caller object
    return { place with steps := place.steps ++ [.field field] }
  | .index _ object index => do
    let place ← resolve caller object
    let p ← position index.span (← eval caller index)
    return { place with steps := place.steps ++ [.index p index.span] }
  | other => refuseAt other.span .notAPlace
termination_by structural e

end

mutual

/-- Runs a statement. -/
def exec (caller : Caller) (statement : Stmt) : Evaluation Flow :=
  counted do
    locating statement.span (ofMetered (Metered.charge 1))
    match statement with
    | .bind _ name value => do
      let v ← eval caller value
      modifyLocals fun locals => locals.declare name.text v
      return .next
    | .assign _ target op value => do
      let v ← eval caller value
      let place ← resolve caller target
      locating target.span (store place op v)
      return .next
    | .expr _ value => do
      let _ ← eval caller value
      return .next
    | .giveBack _ none => return .giveBack .nothing
    | .giveBack _ (some value) => return .giveBack (← eval caller value)
    | .choose _ branches otherwise => do
      match ← execBranches caller branches with
      | some flow => return flow
      | none => execOtherwise caller otherwise
    | .loop _ var iterable (.mk _ body) => do
      let items ← iterated iterable.span (← eval caller iterable)
      rounds (.ofLoop body.length) (fun item => inBlock do
        modifyLocals fun locals => locals.declare var.text item
        execAll caller body) items
termination_by structural statement

/-- Runs the block of the first condition that holds; nothing, when none of them does. -/
def execBranches (caller : Caller) (branches : List Branch) : Evaluation (Option Flow) :=
  match branches with
  | [] => return none
  | .mk condition block :: rest => do
    if ← truth "if" condition.span (← eval caller condition) then
      return some (← execBlock caller block)
    else execBranches caller rest
termination_by structural branches

/-- Runs the block of a choice that is left when no condition holds, if there is one. -/
def execOtherwise (caller : Caller) (otherwise : Option Block) : Evaluation Flow :=
  match otherwise with
  | none => return .next
  | some block => execBlock caller block
termination_by structural otherwise

/-- Runs the statements of a block with variables of its own. -/
def execBlock (caller : Caller) (block : Block) : Evaluation Flow :=
  match block with
  | .mk _ statements => inBlock (execAll caller statements)
termination_by structural block

/-- Runs statements in order, until one of them ends the function. -/
def execAll (caller : Caller) (statements : List Stmt) : Evaluation Flow :=
  match statements with
  | [] => return .next
  | statement :: rest => do
    match ← exec caller statement with
    | .giveBack v => return .giveBack v
    | .next => execAll caller rest
termination_by structural statements

end

end Evaluation

end LandPattern
