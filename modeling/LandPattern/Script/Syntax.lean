import LandPattern.Script.Span

/-!
# Script trees

A script is a row of top-level functions and constants. Every node keeps the span it was read
from; an expression in grouping parentheses is the inner expression with the wider span.
-/

namespace LandPattern.Script

/-- Operators with one operand. -/
inductive UnaryOp where
  | neg | not
  deriving DecidableEq, Repr

/-- Operators with two operands. -/
inductive BinaryOp where
  | add | sub | mul | div | mod
  | eq | ne | lt | le | gt | ge
  | and | or
  deriving DecidableEq, Repr

/-- The operator as a script writes it. -/
def BinaryOp.symbol : BinaryOp → String
  | .add => "+"
  | .sub => "-"
  | .mul => "*"
  | .div => "/"
  | .mod => "%"
  | .eq => "=="
  | .ne => "!="
  | .lt => "<"
  | .le => "<="
  | .gt => ">"
  | .ge => ">="
  | .and => "and"
  | .or => "or"

/-- How an assignment combines the old value with the new one. -/
inductive AssignOp where
  | set | add | sub | mul | div
  deriving DecidableEq, Repr

/-- The operator that a compound assignment applies; plain assignment applies none. -/
def AssignOp.operator? : AssignOp → Option BinaryOp
  | .set => none
  | .add => some .add
  | .sub => some .sub
  | .mul => some .mul
  | .div => some .div

mutual

/-- An expression with its span. -/
inductive Expr where
  | int (span : Span) (value : Int)
  | float (span : Span) (value : Float)
  | text (span : Span) (value : String)
  | bool (span : Span) (value : Bool)
  | none (span : Span)
  | name (span : Span) (text : String)
  | list (span : Span) (items : List Expr)
  | tuple (span : Span) (items : List Expr)
  | unary (span : Span) (op : UnaryOp) (operand : Expr)
  | binary (span : Span) (op : BinaryOp) (left right : Expr)
  | call (span : Span) (callee : Expr) (args : List Argument)
  | method (span : Span) (receiver : Expr) (name : Name) (args : List Argument)
  | field (span : Span) (object : Expr) (name : Name)
  | index (span : Span) (object position : Expr)

/-- One argument of a call. -/
inductive Argument where
  | positional (value : Expr)
  | keyword (name : Name) (value : Expr)

end

/-- Where an expression stands. -/
def Expr.span : Expr → Span
  | .int s _ | .float s _ | .text s _ | .bool s _ | .none s | .name s _ | .list s _ | .tuple s _
  | .unary s _ _ | .binary s _ _ _ | .call s _ _ | .method s _ _ _ | .field s _ _
  | .index s _ _ => s

/-- The same expression with another span. -/
def Expr.withSpan (s : Span) : Expr → Expr
  | .int _ v => .int s v
  | .float _ v => .float s v
  | .text _ v => .text s v
  | .bool _ v => .bool s v
  | .none _ => .none s
  | .name _ t => .name s t
  | .list _ items => .list s items
  | .tuple _ items => .tuple s items
  | .unary _ op e => .unary s op e
  | .binary _ op l r => .binary s op l r
  | .call _ f args => .call s f args
  | .method _ r n args => .method s r n args
  | .field _ o n => .field s o n
  | .index _ o i => .index s o i

/-- Expressions that name storage: a variable followed by field and index steps. -/
def Expr.isPlace : Expr → Bool
  | .name _ _ => true
  | .field _ object _ => object.isPlace
  | .index _ object _ => object.isPlace
  | _ => false

/-- The value that an argument passes. -/
def Argument.value : Argument → Expr
  | .positional value => value
  | .keyword _ value => value

/-- The keyword of an argument. -/
def Argument.name? : Argument → Option Name
  | .positional _ => none
  | .keyword name _ => some name

mutual

/-- A statement with its span. -/
inductive Stmt where
  | bind (span : Span) (name : Name) (value : Expr)
  | assign (span : Span) (target : Expr) (op : AssignOp) (value : Expr)
  | expr (span : Span) (value : Expr)
  | giveBack (span : Span) (value : Option Expr)
  /-- Branches are tried in order. -/
  | choose (span : Span) (branches : List Branch) (otherwise : Option Block)
  | loop (span : Span) (var : Name) (iterable : Expr) (body : Block)

/-- A condition with the block it guards. -/
inductive Branch where
  | mk (condition : Expr) (body : Block)

/-- Statements between braces. -/
inductive Block where
  | mk (span : Span) (statements : List Stmt)

end

/-- Where a statement stands. -/
def Stmt.span : Stmt → Span
  | .bind s _ _ | .assign s _ _ _ | .expr s _ | .giveBack s _ | .choose s _ _
  | .loop s _ _ _ => s

/-- Where a block stands, braces included. -/
def Block.span : Block → Span
  | .mk s _ => s

/-- The statements of a block. -/
def Block.statements : Block → List Stmt
  | .mk _ b => b

/-- A top-level function. -/
structure Function where
  /-- The name it is called by. -/
  name : Name
  /-- The names of its parameters, in order. -/
  params : List Name
  /-- What it does. -/
  body : Block
  /-- From the word that opens it to the end of its body. -/
  span : Span

/-- A top-level definition. -/
inductive Item where
  | function (definition : Function)
  | constant (name : Name) (value : Expr)

/-- The name that a definition introduces. -/
def Item.name : Item → Name
  | .function definition => definition.name
  | .constant name _ => name

/-- A whole script. -/
structure Program where
  /-- The definitions in the order they are written. -/
  items : List Item

/-- The functions in the order they are written. -/
def Program.functions (p : Program) : List Function :=
  p.items.filterMap fun
    | .function definition => some definition
    | .constant _ _ => none

end LandPattern.Script
