import LandPattern.Script.Diagnostic
import LandPattern.Script.Syntax

/-!
# Unfinished scripts

A script is read one token at a time. Between two tokens the reader holds a draft: the finished
definitions, the blocks that are still open, and for the expression being read the operators and
brackets that wait for it. A token either carries the draft one step further or cannot stand where
it stands, and then the draft says what was expected.

From loosest to tightest the operators are `or`, `and`, `not`, comparisons, sums, products and the
unary minus; behind them come calls, indices and fields. Operators of one level group to the left,
and a comparison takes no second one beside it.
-/

namespace LandPattern.Script

/-- How tight a unary operator binds. -/
def UnaryOp.level : UnaryOp → Nat
  | .not => 3
  | .neg => 7

/-- How tight a binary operator binds. -/
def BinaryOp.level : BinaryOp → Nat
  | .or => 1
  | .and => 2
  | .eq | .ne | .lt | .le | .gt | .ge => 4
  | .add | .sub => 5
  | .mul | .div | .mod => 6

/-- The level of the comparisons, which do not chain. -/
def comparisonLevel : Nat := 4

/-- The binary operator that a token writes. -/
def Token.binaryOp? : Token → Option BinaryOp
  | .wordOr => some .or
  | .wordAnd => some .and
  | .equalsEquals => some .eq
  | .bangEquals => some .ne
  | .less => some .lt
  | .lessEquals => some .le
  | .greater => some .gt
  | .greaterEquals => some .ge
  | .plus => some .add
  | .minus => some .sub
  | .star => some .mul
  | .slash => some .div
  | .percent => some .mod
  | _ => none

/-- The assignment that a token writes. -/
def Token.assignOp? : Token → Option AssignOp
  | .equals => some .set
  | .plusEquals => some .add
  | .minusEquals => some .sub
  | .starEquals => some .mul
  | .slashEquals => some .div
  | _ => none

/-- What an argument list belongs to. -/
inductive Head where
  | call (callee : Expr)
  | method (receiver : Expr) (name : Name)

/-- The call that an argument list completes. -/
def Head.apply (head : Head) (args : List Argument) (close : Span) : Expr :=
  match head with
  | .call callee => .call (callee.span.cover close) callee args
  | .method receiver name => .method (receiver.span.cover close) receiver name args

/-- What waits for the expression being read. Finished parts are kept in reverse. -/
inductive Wait where
  /-- A unary operator waits for its operand. -/
  | unary (op : UnaryOp) (span : Span)
  /-- A binary operator waits for its right operand. -/
  | binary (op : BinaryOp) (left : Expr)
  /-- Parentheses hold a group or a tuple. -/
  | group (start : Span) (done : List Expr)
  /-- Brackets hold the items of a list. -/
  | list (start : Span) (done : List Expr)
  /-- Parentheses hold arguments; a keyword waits for its value. -/
  | arguments (head : Head) (done : List Argument) (keyword : Option Name)
  /-- Brackets hold the position in an object. -/
  | index (object : Expr)

/-- Whether a bracket is open here. -/
def Wait.isBracket : Wait → Bool
  | .unary _ _ | .binary _ _ => false
  | _ => true

/-- The expression completes the operators that bind at least as tight as `level`. -/
def settle (level : Nat) : List Wait → Expr → List Wait × Expr
  | .unary op span :: outer, e =>
    if level ≤ op.level then settle level outer (.unary (span.cover e.span) op e)
    else (.unary op span :: outer, e)
  | .binary op left :: outer, e =>
    if level ≤ op.level then settle level outer (.binary (left.span.cover e.span) op left e)
    else (.binary op left :: outer, e)
  | stack, e => (stack, e)

/-- Whether `not` may stand here: not right of an operator that binds tighter. -/
def allowsNot : List Wait → Bool
  | .unary op _ :: _ => op.level ≤ UnaryOp.not.level
  | .binary op _ :: _ => op.level ≤ UnaryOp.not.level
  | _ => true

mutual

/-- A block whose closing brace has not been read, with its statements in reverse. -/
inductive OpenBlock where
  | mk (purpose : Purpose) (start : Span) (done : List Stmt)

/-- What an open block is the body of, with the block around it. -/
inductive Purpose where
  | function (start : Span) (name : Name) (params : List Name)
  | branch (outer : OpenBlock) (start : Span) (done : List Branch) (condition : Expr)
  | otherwise (outer : OpenBlock) (start : Span) (done : List Branch)
  | loop (outer : OpenBlock) (start : Span) (var : Name) (iterable : Expr)

end

/-- The block with one more statement. -/
def OpenBlock.push (block : OpenBlock) (statement : Stmt) : OpenBlock :=
  match block with
  | .mk purpose start done => .mk purpose start (statement :: done)

/-- What the expression being read is a part of. -/
inductive Slot where
  /-- The value of a top-level constant. -/
  | constant (name : Name)
  /-- The value of a local binding. -/
  | bind (block : OpenBlock) (start : Span) (name : Name)
  /-- The value of a return statement. -/
  | giveBack (block : OpenBlock) (start : Span)
  /-- A statement of its own, or the target of an assignment. -/
  | bare (block : OpenBlock)
  /-- The right side of an assignment. -/
  | assign (block : OpenBlock) (target : Expr) (op : AssignOp)
  /-- The condition of a branch. -/
  | condition (block : OpenBlock) (start : Span) (done : List Branch)
  /-- What a loop runs over. -/
  | iterable (block : OpenBlock) (start : Span) (var : Name)

/-- Where the reader stands. -/
inductive Point where
  /-- Between two definitions. -/
  | item
  | functionName (start : Span)
  | functionParams (start : Span) (name : Name)
  /-- Before a parameter or the end of the parameters, which are kept in reverse. -/
  | param (start : Span) (name : Name) (done : List Name)
  | afterParam (start : Span) (name : Name) (done : List Name)
  | constantName
  | constantEquals (name : Name)
  /-- Before the opening brace of a block. -/
  | block (purpose : Purpose)
  /-- Before a statement or the end of the block. -/
  | statement (block : OpenBlock)
  | bindName (block : OpenBlock) (start : Span)
  | bindEquals (block : OpenBlock) (start : Span) (name : Name)
  | loopName (block : OpenBlock) (start : Span)
  | loopIn (block : OpenBlock) (start : Span) (var : Name)
  /-- Behind a branch that ends with the span `last`; more branches may follow. -/
  | afterBranch (block : OpenBlock) (start : Span) (done : List Branch) (last : Span)
  | afterElse (block : OpenBlock) (start : Span) (done : List Branch)
  /-- Before an operand. -/
  | operand (slot : Slot) (stack : List Wait)
  /-- Behind a name that may turn out to be a keyword. -/
  | argumentName (slot : Slot) (stack : List Wait) (name : Name)
  /-- Behind an operand. -/
  | operator (slot : Slot) (stack : List Wait) (e : Expr)
  | fieldName (slot : Slot) (stack : List Wait) (object : Expr)
  /-- Behind a dot and a name, which may turn out to be a method. -/
  | afterField (slot : Slot) (stack : List Wait) (object : Expr) (name : Name)

/-- A script read up to some token. -/
structure Draft where
  /-- The finished definitions in reverse. -/
  items : List Item
  /-- Where the reader stands. -/
  point : Point

/-- Nothing read yet. -/
def Draft.start : Draft := ⟨[], .item⟩

/-- A step of the reader, or what was expected instead. -/
abbrev Step := Except Expectation Draft

/-- What must come behind a finished expression: the innermost bracket closes, or the statement
goes on. -/
def afterExpression (slot : Slot) : List Wait → Expectation
  | [] => match slot with
    | .condition _ _ _ | .iterable _ _ _ => .sign .leftBrace
    | _ => .sign .semicolon
  | .unary _ _ :: outer | .binary _ _ :: outer => afterExpression slot outer
  | .group _ _ :: _ | .arguments _ _ _ :: _ => .sign .rightParen
  | .list _ _ :: _ | .index _ :: _ => .sign .rightBracket

/-- What is expected at a point; `atEnd` tells whether the tokens have run out. -/
def Point.expected (atEnd : Bool) : Point → Expectation
  | .item => .item
  | .functionName _ | .param _ _ _ | .constantName | .bindName _ _ | .loopName _ _
  | .fieldName _ _ _ => .name
  | .functionParams _ _ => .sign .leftParen
  | .afterParam _ _ _ => .sign .rightParen
  | .constantEquals _ | .bindEquals _ _ _ => .sign .equals
  | .block _ | .afterElse _ _ _ => .sign .leftBrace
  | .statement _ | .afterBranch _ _ _ _ => if atEnd then .sign .rightBrace else .expression
  | .loopIn _ _ _ => .sign .wordIn
  | .operand _ _ => .expression
  | .argumentName slot stack _ | .operator slot stack _ | .afterField slot stack _ _ =>
    afterExpression slot stack

/-- The end of a statement that ends with a semicolon at `close`; nothing, for a slot that ends in
a block. -/
def Slot.finish? (slot : Slot) (items : List Item) (e : Expr) (close : Span) : Option Draft :=
  match slot with
  | .constant name => some ⟨.constant name e :: items, .item⟩
  | .bind block start name =>
    some ⟨items, .statement (block.push (.bind (start.cover close) name e))⟩
  | .giveBack block start =>
    some ⟨items, .statement (block.push (.giveBack (start.cover close) (some e)))⟩
  | .bare block => some ⟨items, .statement (block.push (.expr (e.span.cover close) e))⟩
  | .assign block target op =>
    some ⟨items, .statement (block.push (.assign (target.span.cover close) target op e))⟩
  | .condition _ _ _ | .iterable _ _ _ => none

/-- The end of a block, at the closing brace. -/
def OpenBlock.finish (block : OpenBlock) (items : List Item) (close : Span) : Draft :=
  match block with
  | .mk purpose start done =>
    let span := start.cover close
    let body : Block := .mk span done.reverse
    match purpose with
    | .function first name params =>
      ⟨.function ⟨name, params, body, first.cover span⟩ :: items, .item⟩
    | .branch outer first branches condition =>
      ⟨items, .afterBranch outer first (.mk condition body :: branches) span⟩
    | .otherwise outer first branches =>
      ⟨items, .statement (outer.push (.choose (first.cover span) branches.reverse (some body)))⟩
    | .loop outer first var iterable =>
      ⟨items, .statement (outer.push (.loop (first.cover span) var iterable body))⟩

/-- The expression that one token is. -/
def Token.literal? (span : Span) : Token → Option Expr
  | .int value => some (.int span value)
  | .float value => some (.float span value)
  | .text value => some (.text span value)
  | .wordTrue => some (.bool span true)
  | .wordFalse => some (.bool span false)
  | .wordNone => some (.none span)
  | .name value => some (.name span value)
  | _ => none

/-- The bracket closes where an item could have come: it is empty, or a comma stood before. -/
def closeEmpty (items : List Item) (slot : Slot) (stack : List Wait) (t : Placed) : Step :=
  match stack, t.token with
  | .group start done :: outer, .rightParen =>
    .ok ⟨items, .operator slot outer (.tuple (start.cover t.span) done.reverse)⟩
  | .list start done :: outer, .rightBracket =>
    .ok ⟨items, .operator slot outer (.list (start.cover t.span) done.reverse)⟩
  | .arguments head done none :: outer, .rightParen =>
    .ok ⟨items, .operator slot outer (head.apply done.reverse t.span)⟩
  | [], .semicolon => match slot with
    | .giveBack block start =>
      .ok ⟨items, .statement (block.push (.giveBack (start.cover t.span) none))⟩
    | _ => .error .expression
  | _, _ => .error .expression

/-- A token before an operand. -/
def stepOperand (items : List Item) (slot : Slot) (stack : List Wait) (t : Placed) : Step :=
  match t.token with
  | .wordNot =>
    if allowsNot stack then .ok ⟨items, .operand slot (.unary .not t.span :: stack)⟩
    else .error .expression
  | .minus => .ok ⟨items, .operand slot (.unary .neg t.span :: stack)⟩
  | .leftParen => .ok ⟨items, .operand slot (.group t.span [] :: stack)⟩
  | .leftBracket => .ok ⟨items, .operand slot (.list t.span [] :: stack)⟩
  | .name text => match stack with
    | .arguments _ _ none :: _ => .ok ⟨items, .argumentName slot stack ⟨text, t.span⟩⟩
    | _ => .ok ⟨items, .operator slot stack (.name t.span text)⟩
  | token => match token.literal? t.span with
    | some e => .ok ⟨items, .operator slot stack e⟩
    | none => closeEmpty items slot stack t

/-- A binary operator behind an operand. -/
def stepBinary (items : List Item) (slot : Slot) (stack : List Wait) (e : Expr) (op : BinaryOp) :
    Step :=
  let chains := op.level != comparisonLevel
  match settle (if chains then op.level else op.level + 1) stack e with
  | (outer, left) =>
    let beside := match outer with
      | .binary other _ :: _ => other.level == comparisonLevel
      | _ => false
    if !chains && beside then .error (afterExpression slot outer)
    else .ok ⟨items, .operand slot (.binary op left :: outer)⟩

/-- A bracket closes, or an item ends with a comma, behind the finished expression `e`. -/
def stepBracket (items : List Item) (slot : Slot) (stack : List Wait) (e : Expr) (t : Placed) :
    Step :=
  match stack, t.token with
  | .group start done :: outer, .comma =>
    .ok ⟨items, .operand slot (.group start (e :: done) :: outer)⟩
  | .list start done :: outer, .comma =>
    .ok ⟨items, .operand slot (.list start (e :: done) :: outer)⟩
  | .arguments head done keyword :: outer, .comma =>
    .ok ⟨items, .operand slot (.arguments head (argument keyword :: done) none :: outer)⟩
  | .group start [] :: outer, .rightParen =>
    .ok ⟨items, .operator slot outer (e.withSpan (start.cover t.span))⟩
  | .group start done :: outer, .rightParen =>
    .ok ⟨items, .operator slot outer (.tuple (start.cover t.span) (e :: done).reverse)⟩
  | .list start done :: outer, .rightBracket =>
    .ok ⟨items, .operator slot outer (.list (start.cover t.span) (e :: done).reverse)⟩
  | .arguments head done keyword :: outer, .rightParen =>
    .ok ⟨items, .operator slot outer (head.apply (argument keyword :: done).reverse t.span)⟩
  | .index object :: outer, .rightBracket =>
    .ok ⟨items, .operator slot outer (.index (object.span.cover t.span) object e)⟩
  | _, _ => .error (afterExpression slot stack)
where
  /-- The argument with this value. -/
  argument : Option Name → Argument
    | some name => .keyword name e
    | none => .positional e

/-- A token that ends the expression `e` outside all brackets. -/
def stepEnd (items : List Item) (slot : Slot) (e : Expr) (t : Placed) : Step :=
  match t.token with
  | .semicolon => match slot.finish? items e t.span with
    | some draft => .ok draft
    | none => .error (afterExpression slot [])
  | .leftBrace => match slot with
    | .condition block start done =>
      .ok ⟨items, .statement (.mk (.branch block start done e) t.span [])⟩
    | .iterable block start var =>
      .ok ⟨items, .statement (.mk (.loop block start var e) t.span [])⟩
    | _ => .error (afterExpression slot [])
  | token => match slot, token.assignOp? with
    | .bare block, some op => .ok ⟨items, .operand (.assign block e op) []⟩
    | _, _ => .error (afterExpression slot [])

/-- A token behind an operand. -/
def stepOperator (items : List Item) (slot : Slot) (stack : List Wait) (e : Expr) (t : Placed) :
    Step :=
  match t.token with
  | .dot => .ok ⟨items, .fieldName slot stack e⟩
  | .leftParen => .ok ⟨items, .operand slot (.arguments (.call e) [] none :: stack)⟩
  | .leftBracket => .ok ⟨items, .operand slot (.index e :: stack)⟩
  | token => match token.binaryOp? with
    | some op => stepBinary items slot stack e op
    | none => match settle 0 stack e with
      | ([], whole) => stepEnd items slot whole t
      | (outer, whole) => stepBracket items slot outer whole t

/-- A token before a statement or the end of the block. -/
def stepStatement (items : List Item) (block : OpenBlock) (t : Placed) : Step :=
  match t.token with
  | .rightBrace => .ok (block.finish items t.span)
  | .wordLet => .ok ⟨items, .bindName block t.span⟩
  | .wordReturn => .ok ⟨items, .operand (.giveBack block t.span) []⟩
  | .wordIf => .ok ⟨items, .operand (.condition block t.span []) []⟩
  | .wordFor => .ok ⟨items, .loopName block t.span⟩
  | _ => stepOperand items (.bare block) [] t

/-- Reads one token. -/
def Draft.step (draft : Draft) (t : Placed) : Step :=
  let items := draft.items
  let refused : Step := .error (draft.point.expected false)
  match draft.point with
  | .item => match t.token with
    | .wordFn => .ok ⟨items, .functionName t.span⟩
    | .wordLet => .ok ⟨items, .constantName⟩
    | _ => refused
  | .functionName start => match t.token with
    | .name text => .ok ⟨items, .functionParams start ⟨text, t.span⟩⟩
    | _ => refused
  | .functionParams start name => match t.token with
    | .leftParen => .ok ⟨items, .param start name []⟩
    | _ => refused
  | .param start name done => match t.token with
    | .rightParen => .ok ⟨items, .block (.function start name done.reverse)⟩
    | .name text => .ok ⟨items, .afterParam start name (⟨text, t.span⟩ :: done)⟩
    | _ => refused
  | .afterParam start name done => match t.token with
    | .comma => .ok ⟨items, .param start name done⟩
    | .rightParen => .ok ⟨items, .block (.function start name done.reverse)⟩
    | _ => refused
  | .constantName => match t.token with
    | .name text => .ok ⟨items, .constantEquals ⟨text, t.span⟩⟩
    | _ => refused
  | .constantEquals name => match t.token with
    | .equals => .ok ⟨items, .operand (.constant name) []⟩
    | _ => refused
  | .block purpose => match t.token with
    | .leftBrace => .ok ⟨items, .statement (.mk purpose t.span [])⟩
    | _ => refused
  | .statement block => stepStatement items block t
  | .bindName block start => match t.token with
    | .name text => .ok ⟨items, .bindEquals block start ⟨text, t.span⟩⟩
    | _ => refused
  | .bindEquals block start name => match t.token with
    | .equals => .ok ⟨items, .operand (.bind block start name) []⟩
    | _ => refused
  | .loopName block start => match t.token with
    | .name text => .ok ⟨items, .loopIn block start ⟨text, t.span⟩⟩
    | _ => refused
  | .loopIn block start var => match t.token with
    | .wordIn => .ok ⟨items, .operand (.iterable block start var) []⟩
    | _ => refused
  | .afterBranch block start done last => match t.token with
    | .wordElse => .ok ⟨items, .afterElse block start done⟩
    | _ =>
      let choice : Stmt := .choose (start.cover last) done.reverse none
      stepStatement items (block.push choice) t
  | .afterElse block start done => match t.token with
    | .wordIf => .ok ⟨items, .operand (.condition block start done) []⟩
    | .leftBrace => .ok ⟨items, .statement (.mk (.otherwise block start done) t.span [])⟩
    | _ => refused
  | .operand slot stack => stepOperand items slot stack t
  | .argumentName slot stack name => match stack, t.token with
    | .arguments head done none :: outer, .equals =>
      .ok ⟨items, .operand slot (.arguments head done (some name) :: outer)⟩
    | _, _ => stepOperator items slot stack (.name name.span name.text) t
  | .operator slot stack e => stepOperator items slot stack e t
  | .fieldName slot stack object => match t.token with
    | .name text => .ok ⟨items, .afterField slot stack object ⟨text, t.span⟩⟩
    | _ => refused
  | .afterField slot stack object name => match t.token with
    | .leftParen => .ok ⟨items, .operand slot (.arguments (.method object name) [] none :: stack)⟩
    | _ => stepOperator items slot stack (.field (object.span.cover name.span) object name) t

/-- The script, when it may end here; otherwise what was expected. -/
def Draft.finish (draft : Draft) : Except Expectation Program :=
  match draft.point with
  | .item => .ok ⟨draft.items.reverse⟩
  | point => .error (point.expected true)

/-- Reads the remaining tokens. A failure tells what was expected and the token found instead, or
nothing at the end of the script. -/
def Draft.read (draft : Draft) : List Placed → Except (Expectation × Option Placed) Program
  | [] => match draft.finish with
    | .ok program => .ok program
    | .error expected => .error (expected, none)
  | t :: rest => match draft.step t with
    | .ok next => next.read rest
    | .error expected => .error (expected, some t)

/-- The tokens that carry meaning. -/
def significant (tokens : List Placed) : List Placed :=
  tokens.filter fun t => !t.token.isTrivia

/-- The script that a row of tokens writes, or the first token that cannot stand where it stands. -/
def Program.ofTokens (tokens : List Placed) : Except Diagnostic Program :=
  let meaningful := significant tokens
  match Draft.start.read meaningful with
  | .ok program => .ok program
  | .error (expected, some t) =>
    .error (.single (.unexpectedToken expected) t.span ("found `" ++ t.token.written ++ "`"))
  | .error (expected, none) =>
    let last := (meaningful.getLast?.map Placed.span).getD ⟨0, 0⟩
    .error (.single (.unexpectedToken expected) last "found end of input")

end LandPattern.Script
