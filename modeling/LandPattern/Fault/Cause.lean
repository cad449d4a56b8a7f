import LandPattern.Element.Basic
import LandPattern.Script.Diagnostic
import LandPattern.Script.Syntax
import LandPattern.Text.Utf8

/-!
# Causes of faults

Why an evaluation can end without a result. A cause holds the facts; its kind, its message and the
help that goes with it are derived from them, so that no wording stands anywhere else.
-/

namespace LandPattern

open Script (BinaryOp Diagnostic)

/-- The categories of faults. -/
inductive Fault.Kind where
  /-- The script could not be read, or is too large. -/
  | load
  /-- The text is not a script. -/
  | grammar
  /-- The function that makes the footprint is missing or not callable without arguments. -/
  | entryPoint
  /-- An operation failed while the script ran. -/
  | runtime
  /-- The result is not made of elements. -/
  | shape
  /-- The budget ran out. -/
  | timeout
  /-- The evaluation itself failed. -/
  | internal
  deriving DecidableEq, Repr

/-- The kind as reports write it. -/
def Fault.Kind.word : Fault.Kind → String
  | .load => "load"
  | .grammar => "syntax"
  | .entryPoint => "entry point"
  | .runtime => "runtime"
  | .shape => "shape"
  | .timeout => "timeout"
  | .internal => "internal"

/-- The name of the function that makes the footprint. -/
def entryPoint : String := "footprint"

/-- What an operation waits for in place of the value it got. -/
inductive Wanted where
  | number | int | bool | text | padName | pair | layers | sequence | measurable
  deriving DecidableEq, Repr

/-- The wanted thing in words. -/
def Wanted.words : Wanted → String
  | .number => "a number"
  | .int => "an int"
  | .bool => "a bool"
  | .text => "a str"
  | .padName => "an int or str pad name"
  | .pair => "a pair of numbers"
  | .layers => "a list of layer names"
  | .sequence => "a list or tuple"
  | .measurable => "a list, tuple or str"

/-- What running operations refuse. Types are held by name, as messages show them. -/
inductive Refusal where
  /-- A name that stands for nothing is read. -/
  | undefinedName (name : String)
  /-- A name that stands for nothing is written to. -/
  | undefinedTarget (name : String)
  /-- A top-level definition is written to. -/
  | readOnlyTopLevel (name : String)
  /-- A name of the vocabulary is written to. -/
  | readOnlyBuiltin (name : String)
  /-- An expression that names no storage is written to. -/
  | notAPlace
  /-- A function that the script does not define is called. -/
  | undefinedFunction (name : String)
  /-- Too many functions are active. -/
  | callDepth (limit : Nat)
  | notCallable (type : String)
  | repeatedKeyword (keyword : String)
  | unexpectedKeyword (callee keyword : String)
  | doubledArgument (callee keyword : String)
  | missingArgument (callee param : String)
  | tooManyArguments (callee : String) (most got : Nat)
  /-- A function of one argument got another number of them. -/
  | functionTakesOne (callee : String) (got : Nat)
  /-- A method of one argument got another number of them. -/
  | methodTakesOne (method : String) (got : Nat)
  | methodTakesNone (method : String) (got : Nat)
  | rangeArguments (got : Nat)
  /-- A value is not what the named thing waits for. -/
  | expects (what : String) (wanted : Wanted) (got : String)
  | notFinite (what : String)
  | negativeCount (what : String) (count : Int)
  | unknownShape (shape : String)
  /-- The making of elements refuses. -/
  | elements (why : ElementRefusal)
  | notIterable (type : String)
  | notIndexable (type : String)
  | indexNotInt (type : String)
  | indexOutOfRange (index : Int) (length : Nat)
  | noItemAssignment (type : String)
  | noField (owner field : String)
  | noMethod (owner method : String)
  | readOnlyTag
  | unsupportedOperands (op : BinaryOp) (left right : String)
  | incomparable (op : BinaryOp) (left right : String)
  | overflow (op : BinaryOp)
  | divisionByZero (op : BinaryOp)
  | negationOverflow
  | negationOperand (type : String)
  | absoluteOverflow
  | tooLong (length limit : Nat)
  | tooDeep (limit : Nat)
  | textTooLong (limit : Nat)
  | zeroStep
  | emptySequence (callee : String)
  | notNumbers (callee left right : String)
  | notNumber (callee type : String)
  /-- A value, given in words, has no integer. -/
  | notConvertibleToInt (what : String)
  | notConvertibleToFloat (type : String)
  | invalidInt (text : String)
  | invalidFloat (text : String)
  /-- A value, given by its text, is not among the items. -/
  | notInList (value : String)
  | popFromEmpty
  deriving DecidableEq, Repr

/-- The refusal in words. -/
def Refusal.message : Refusal → String
  | .undefinedName name | .undefinedTarget name => s!"undefined name `{name}`"
  | .readOnlyTopLevel name => s!"cannot assign to top-level `{name}`"
  | .readOnlyBuiltin name => s!"cannot assign to builtin `{name}`"
  | .notAPlace => "cannot assign to this expression"
  | .undefinedFunction name => s!"undefined function `{name}`"
  | .callDepth limit => s!"maximum call depth of {limit} exceeded"
  | .notCallable type => s!"{type} is not callable"
  | .repeatedKeyword keyword => s!"keyword argument `{keyword}` given more than once"
  | .unexpectedKeyword callee keyword =>
    s!"`{callee}` got an unexpected keyword argument `{keyword}`"
  | .doubledArgument callee keyword =>
    s!"`{callee}` got multiple values for argument `{keyword}`"
  | .missingArgument callee param => s!"`{callee}` is missing required argument `{param}`"
  | .tooManyArguments callee most got => s!"`{callee}` takes at most {most} arguments, got {got}"
  | .functionTakesOne callee got => s!"`{callee}` takes exactly 1 argument, got {got}"
  | .methodTakesOne method got => s!"`{method}` takes 1 argument, got {got}"
  | .methodTakesNone method got => s!"`{method}` takes no arguments, got {got}"
  | .rangeArguments got => s!"`range` takes 1 to 3 arguments, got {got}"
  | .expects what wanted got => s!"`{what}` expects {wanted.words}, got {got}"
  | .notFinite what => s!"`{what}` must be a finite number"
  | .negativeCount what count => s!"`{what}` must not be negative, got {count}"
  | .unknownShape shape =>
    "unknown pad shape \"" ++ shape ++ "\", expected \"rect\" or \"circle\""
  | .elements why => why.message
  | .notIterable type => s!"cannot iterate over {type}"
  | .notIndexable type => s!"{type} is not indexable"
  | .indexNotInt type => s!"indices must be ints, got {type}"
  | .indexOutOfRange index length => s!"index {index} is out of range for length {length}"
  | .noItemAssignment type => s!"{type} does not support item assignment"
  | .noField owner field => s!"{owner} has no field `{field}`"
  | .noMethod owner method => s!"{owner} has no method `{method}`"
  | .readOnlyTag => "the `t` tag of an element is read-only"
  | .unsupportedOperands op left right =>
    s!"unsupported operand types for {op.symbol}: {left} and {right}"
  | .incomparable op left right => s!"cannot compare {left} and {right} with `{op.symbol}`"
  | .overflow op => s!"integer overflow in `{op.symbol}`"
  | .divisionByZero op => s!"division by zero in `{op.symbol}`"
  | .negationOverflow => "integer overflow in unary `-`"
  | .negationOperand type => s!"bad operand type for unary `-`: {type}"
  | .absoluteOverflow => "integer overflow in `abs`"
  | .tooLong length limit => s!"collection of length {length} exceeds the limit of {limit}"
  | .tooDeep limit => s!"value nesting depth exceeds the limit of {limit}"
  | .textTooLong limit => s!"string form exceeds the limit of {limit} bytes"
  | .zeroStep => "`range` step must not be zero"
  | .emptySequence callee => s!"`{callee}` of an empty sequence"
  | .notNumbers callee left right => s!"`{callee}` expects numbers, got {left} and {right}"
  | .notNumber callee type => s!"`{callee}` expects numbers, got {type}"
  | .notConvertibleToInt what => s!"cannot convert {what} to an int"
  | .notConvertibleToFloat type => s!"cannot convert {type} to a float"
  | .invalidInt text => "invalid int literal \"" ++ text ++ "\""
  | .invalidFloat text => "invalid float literal \"" ++ text ++ "\""
  | .notInList value => s!"{value} is not in the list"
  | .popFromEmpty => "pop from an empty list"

/-- The help that goes with a refusal. -/
def Refusal.help? : Refusal → Option String
  | .undefinedTarget name => some s!"declare it first with `let {name} = ...;`"
  | .readOnlyTopLevel name => some s!"copy it into a local first: `let {name} = {name};`"
  | _ => none

/-- Why an evaluation ends without a result. -/
inductive Fault.Cause where
  /-- The script is larger than the limit, both in bytes. -/
  | oversized (length limit : Nat)
  /-- A file cannot be read, for a reason in words. -/
  | unreadable (path reason : String)
  /-- A file is not a text. -/
  | notText (path : String) (encoding : Text.BadEncoding)
  /-- The text is not a script; this is the first of its problems. -/
  | problem (diagnostic : Diagnostic)
  /-- The text is not a script, and nothing more is known. -/
  | notAScript
  | noEntryPoint
  | entryPointNotFunction (type : String)
  | entryPointParameters (count : Nat)
  /-- An operation refused. -/
  | refusal (why : Refusal)
  /-- The result holds more elements than the limit. -/
  | tooManyElements (limit : Nat)
  /-- Something in the result, at a path of positions, is not an element. -/
  | notAnElement (path : List Nat) (what : String)
  /-- The operations charged exceed the limit. -/
  | budget (limit : Nat)
  /-- A statement runs although no function is active. -/
  | noActiveFunction
  /-- An operator that decides before its second operand is applied to two values. -/
  | eagerOperator (op : BinaryOp)
  /-- A fault that a host raises in words of its own. -/
  | stated (kind : Fault.Kind) (message : String)
  deriving DecidableEq

namespace Fault.Cause

/-- The category of a cause. -/
def kind : Fault.Cause → Fault.Kind
  | .oversized _ _ | .unreadable _ _ | .notText _ _ => .load
  | .problem _ | .notAScript => .grammar
  | .noEntryPoint | .entryPointNotFunction _ | .entryPointParameters _ => .entryPoint
  | .refusal _ => .runtime
  | .tooManyElements _ | .notAnElement _ _ => .shape
  | .budget _ => .timeout
  | .noActiveFunction | .eagerOperator _ => .internal
  | .stated kind _ => kind

/-- The cause in words. -/
def message : Fault.Cause → String
  | .oversized length limit =>
    s!"script is {length} bytes, larger than the limit of {limit} bytes"
  | .unreadable path reason => s!"cannot read `{path}`: {reason}"
  | .notText path encoding => s!"`{path}` is not valid UTF-8: {encoding.words}"
  | .problem diagnostic => diagnostic.line
  | .notAScript => "invalid script"
  | .noEntryPoint => s!"script does not define `{entryPoint}`"
  | .entryPointNotFunction type => s!"`{entryPoint}` must be a function, got {type}"
  | .entryPointParameters count => s!"`{entryPoint}` must take no parameters, but takes {count}"
  | .refusal why => why.message
  | .tooManyElements limit => s!"footprint returned more than {limit} elements"
  | .notAnElement path what =>
    "footprint result" ++ String.join (path.map fun index => s!"[{index}]") ++
      s!" is {what}, expected an element"
  | .budget limit => s!"evaluation exceeded the budget of {limit} operations"
  | .noActiveFunction => "statement executed outside of a function"
  | .eagerOperator op => s!"`{op.symbol}` reached the eager operator table"
  | .stated _ message => message

/-- The help that goes with a cause. -/
def help? : Fault.Cause → Option String
  | .problem diagnostic => diagnostic.problem.help?
  | .noEntryPoint =>
    some s!"define `fn {entryPoint}() \x7b ... \x7d` returning the footprint's elements"
  | .entryPointParameters _ => some s!"declare it as `fn {entryPoint}() \x7b ... \x7d`"
  | .refusal why => why.help?
  | .notAnElement _ _ => some s!"return an element or a list of elements from `{entryPoint}`"
  | _ => none

end Fault.Cause

end LandPattern
