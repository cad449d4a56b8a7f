import LandPattern.Script.Diagnostic
import LandPattern.Script.Syntax

/-!
# Well-formed scripts

Rules that a script must keep beyond its grammar. Brackets may nest only so deep; this is checked
on the tokens. Names of definitions and of parameters must be distinct, assignments must name
storage, positional arguments come before keywords, and expressions may be only so deep; this is
checked on the tree, and every breach is reported.
-/

namespace LandPattern.Script

/-- The first bracket that opens a level beyond the limit; `depth` brackets are open before the
tokens. Surplus closing brackets are left for the reader to refuse. -/
def tooDeepBracket? (limit depth : Nat) : List Placed → Option Diagnostic
  | [] => none
  | t :: rest =>
    if t.token.isOpening then
      if limit < depth + 1 then some (.single (.bracketsTooDeep limit) t.span "too deep")
      else tooDeepBracket? limit (depth + 1) rest
    else if t.token.isClosing then tooDeepBracket? limit (depth - 1) rest
    else tooDeepBracket? limit depth rest

/-- The place of an earlier entry with the same name. -/
def earlier? (name : Name) (seen : List (Name × Bool)) : Option (Name × Bool) :=
  seen.find? fun s => s.1.text == name.text

/-- A problem for every definition whose name an earlier one has; `seen` holds the first definition
of each name so far, with whether it is a function. -/
def definitionProblems (seen : List (Name × Bool)) : List Item → List Diagnostic
  | [] => []
  | item :: rest =>
    let name := item.name
    let isFunction := match item with
      | .function _ => true
      | .constant _ _ => false
    match earlier? name seen with
    | none => definitionProblems ((name, isFunction) :: seen) rest
    | some (first, firstIsFunction) =>
      let problem : Problem :=
        if isFunction && firstIsFunction then .duplicateFunction name.text
        else .duplicateDefinition name.text
      .related problem name.span "duplicate definition" first.span "first defined here" ::
        definitionProblems seen rest

/-- A problem for every parameter whose name an earlier one has. -/
def paramProblems (function : String) (seen : List Name) : List Name → List Diagnostic
  | [] => []
  | param :: rest =>
    match seen.find? fun s => s.text == param.text with
    | none => paramProblems function (param :: seen) rest
    | some first =>
      .related (.duplicateParameter param.text function) param.span "duplicate parameter"
        first.span "first declared here" :: paramProblems function seen rest

/-- A problem for every positional argument behind a keyword. -/
def argumentProblems (keyword : Option Span) : List Argument → List Diagnostic
  | [] => []
  | .keyword name _ :: rest => argumentProblems (some (keyword.getD name.span)) rest
  | .positional value :: rest =>
    match keyword with
    | none => argumentProblems none rest
    | some first =>
      .related .positionalAfterKeyword value.span "positional argument" first
        "first keyword argument" :: argumentProblems keyword rest

mutual

/-- The nodes of an expression with their depths, in the order of the report, before `later`: a
node comes before its parts, the parts of an operator and of an index from the left, and items and
arguments from the right. -/
def Expr.visits (depth : Nat) (e : Expr) (later : List (Nat × Expr)) : List (Nat × Expr) :=
  (depth, e) :: match e with
    | .list _ items | .tuple _ items => itemVisits (depth + 1) items later
    | .unary _ _ operand => operand.visits (depth + 1) later
    | .binary _ _ left right => left.visits (depth + 1) (right.visits (depth + 1) later)
    | .call _ callee args => argumentVisits (depth + 1) args (callee.visits (depth + 1) later)
    | .method _ receiver _ args =>
      argumentVisits (depth + 1) args (receiver.visits (depth + 1) later)
    | .field _ object _ => object.visits (depth + 1) later
    | .index _ object position =>
      object.visits (depth + 1) (position.visits (depth + 1) later)
    | _ => later

/-- The nodes of items, from the right. -/
def itemVisits (depth : Nat) (items : List Expr) (later : List (Nat × Expr)) :
    List (Nat × Expr) :=
  match items with
  | [] => later
  | e :: rest => itemVisits depth rest (e.visits depth later)

/-- The nodes of arguments, from the right. -/
def argumentVisits (depth : Nat) (args : List Argument) (later : List (Nat × Expr)) :
    List (Nat × Expr) :=
  match args with
  | [] => later
  | a :: rest => argumentVisits depth rest (a.visits depth later)

/-- The nodes of the value of an argument. -/
def Argument.visits (depth : Nat) (a : Argument) (later : List (Nat × Expr)) : List (Nat × Expr) :=
  match a with
  | .positional value => value.visits depth later
  | .keyword _ value => value.visits depth later

end

/-- The problems of one node alone. -/
def nodeProblems : Expr → List Diagnostic
  | .call _ _ args => argumentProblems none args
  | .method _ _ _ args => argumentProblems none args
  | _ => []

/-- The problems of visited nodes; excess depth is reported once, for the whole expression at
`root`. -/
def visitProblems (limit : Nat) (root : Span) (reported : Bool) :
    List (Nat × Expr) → List Diagnostic
  | [] => []
  | (depth, e) :: rest =>
    if limit < depth && !reported then
      .single (.expressionTooDeep limit) root "expression too deep" ::
        (nodeProblems e ++ visitProblems limit root true rest)
    else nodeProblems e ++ visitProblems limit root reported rest

/-- The problems of a whole expression. -/
def Expr.problems (limit : Nat) (e : Expr) : List Diagnostic :=
  visitProblems limit e.span false (e.visits 1 [])

/-- The problem of an assignment target that names no storage. -/
def targetProblems (target : Expr) : List Diagnostic :=
  if target.isPlace then []
  else [.single .notAPlace target.span "not a variable, field or index"]

mutual

/-- The problems of a statement and the blocks inside it. -/
def Stmt.problems (limit : Nat) (s : Stmt) : List Diagnostic :=
  match s with
  | .bind _ _ value => value.problems limit
  | .assign _ target _ value =>
    targetProblems target ++ target.problems limit ++ value.problems limit
  | .expr _ value => value.problems limit
  | .giveBack _ none => []
  | .giveBack _ (some value) => value.problems limit
  | .choose _ branches otherwise => branchProblems limit branches ++ elseProblems limit otherwise
  | .loop _ _ iterable body => iterable.problems limit ++ body.problems limit

/-- The problems of a row of statements. -/
def statementProblems (limit : Nat) (statements : List Stmt) : List Diagnostic :=
  match statements with
  | [] => []
  | s :: rest => s.problems limit ++ statementProblems limit rest

/-- The problems of a block. -/
def Block.problems (limit : Nat) (block : Block) : List Diagnostic :=
  match block with
  | .mk _ statements => statementProblems limit statements

/-- The problems of branches. -/
def branchProblems (limit : Nat) (branches : List Branch) : List Diagnostic :=
  match branches with
  | [] => []
  | b :: rest => b.problems limit ++ branchProblems limit rest

/-- The problems of one branch. -/
def Branch.problems (limit : Nat) (b : Branch) : List Diagnostic :=
  match b with
  | .mk condition body => condition.problems limit ++ body.problems limit

/-- The problems of the last block of a choice. -/
def elseProblems (limit : Nat) (otherwise : Option Block) : List Diagnostic :=
  match otherwise with
  | none => []
  | some body => body.problems limit

end

/-- The problems of one function. -/
def Function.problems (limit : Nat) (f : Function) : List Diagnostic :=
  paramProblems f.name.text [] f.params ++ f.body.problems limit

/-- The problems of the value of a constant. -/
def Item.valueProblems (limit : Nat) : Item → List Diagnostic
  | .function _ => []
  | .constant _ value => value.problems limit

/-- Every problem of a script: definitions first, then functions, then constants. -/
def Program.problems (limit : Nat) (p : Program) : List Diagnostic :=
  definitionProblems [] p.items ++ p.functions.flatMap (Function.problems limit) ++
    p.items.flatMap (Item.valueProblems limit)

end LandPattern.Script
