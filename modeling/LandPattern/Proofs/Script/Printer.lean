import LandPattern.Script.Draft

/-!
# Printing scripts

The tokens that write a tree. Parentheses stand only where an operand binds looser than its place
asks for, and around an attribute that is called, which would be read as a method otherwise. A tuple
of one item keeps its comma; no other list ends with one.
-/

namespace LandPattern.Script

/-- The token of a unary operator. -/
def UnaryOp.token : UnaryOp → Token
  | .neg => .minus
  | .not => .wordNot

/-- The token of a binary operator. -/
def BinaryOp.token : BinaryOp → Token
  | .add => .plus
  | .sub => .minus
  | .mul => .star
  | .div => .slash
  | .mod => .percent
  | .eq => .equalsEquals
  | .ne => .bangEquals
  | .lt => .less
  | .le => .lessEquals
  | .gt => .greater
  | .ge => .greaterEquals
  | .and => .wordAnd
  | .or => .wordOr

/-- The token of an assignment. -/
def AssignOp.token : AssignOp → Token
  | .set => .equals
  | .add => .plusEquals
  | .sub => .minusEquals
  | .mul => .starEquals
  | .div => .slashEquals

/-- How tight a left operand must bind. A comparison takes no other comparison there. -/
def BinaryOp.leftLevel (op : BinaryOp) : Nat :=
  if op.level = comparisonLevel then op.level + 1 else op.level

/-- How tight what stands before a dot or an index must bind. -/
def fieldLevel : Nat := 8

/-- How tight what is called must bind. -/
def calleeLevel : Nat := 9

/-- How tight an expression binds. Only what may be called is as tight as can be, so an attribute
stays one level below. -/
def Expr.level : Expr → Nat
  | .unary _ op _ => op.level
  | .binary _ op _ _ => op.level
  | .field _ _ _ => fieldLevel
  | _ => calleeLevel

/-- Tokens in parentheses. -/
def parenthesized (ts : List Token) : List Token := .leftParen :: ts ++ [.rightParen]

/-- The tokens of an expression that binds as tight as `own`, where `level` is asked for. -/
def fit (level own : Nat) (ts : List Token) : List Token :=
  if own < level then parenthesized ts else ts

/-- Rows of tokens with commas between them, and one behind the last row on demand. -/
def commas (trailing : Bool) : List (List Token) → List Token
  | [] => []
  | [ts] => if trailing then ts ++ [.comma] else ts
  | ts :: us :: rest => ts ++ .comma :: commas trailing (us :: rest)

/-- The tokens of an argument whose value has these tokens. -/
def Argument.tokens (a : Argument) (value : List Token) : List Token :=
  match a with
  | .positional _ => value
  | .keyword name _ => .name name.text :: .equals :: value

mutual

/-- The tokens of an expression, without parentheses around it. -/
def Expr.form (e : Expr) : List Token :=
  match e with
  | .int _ v => [.int v]
  | .float _ v => [.float v]
  | .text _ v => [.text v]
  | .bool _ v => [if v then .wordTrue else .wordFalse]
  | .none _ => [.wordNone]
  | .name _ t => [.name t]
  | .list _ items => .leftBracket :: commas false (forms items) ++ [.rightBracket]
  | .tuple _ items => parenthesized (commas (items.length == 1) (forms items))
  | .unary _ op operand => op.token :: fit op.level operand.level operand.form
  | .binary _ op left right =>
    fit op.leftLevel left.level left.form ++
      op.token :: fit (op.level + 1) right.level right.form
  | .call _ callee args =>
    fit calleeLevel callee.level callee.form ++ parenthesized (commas false (argumentForms args))
  | .method _ receiver name args =>
    fit fieldLevel receiver.level receiver.form ++
      .dot :: .name name.text :: parenthesized (commas false (argumentForms args))
  | .field _ object name => fit fieldLevel object.level object.form ++ [.dot, .name name.text]
  | .index _ object position =>
    fit fieldLevel object.level object.form ++ .leftBracket :: position.form ++ [.rightBracket]
termination_by structural e

/-- The tokens of every item. -/
def forms (items : List Expr) : List (List Token) :=
  match items with
  | [] => []
  | e :: rest => e.form :: forms rest
termination_by structural items

/-- The tokens of every argument. -/
def argumentForms (args : List Argument) : List (List Token) :=
  match args with
  | [] => []
  | a :: rest => a.form :: argumentForms rest
termination_by structural args

/-- The tokens of an argument. -/
def Argument.form (a : Argument) : List Token :=
  match a with
  | .positional value => value.form
  | .keyword name value => .name name.text :: .equals :: value.form
termination_by structural a

end

/-- The tokens of an expression where `level` is asked for. -/
def Expr.print (level : Nat) (e : Expr) : List Token := fit level e.level e.form

theorem forms_eq_map (items : List Expr) : forms items = items.map Expr.form := by
  induction items with
  | nil => rfl
  | cons e rest ih => rw [forms, ih, List.map_cons]

theorem argumentForms_eq_map (args : List Argument) :
    argumentForms args = args.map Argument.form := by
  induction args with
  | nil => rfl
  | cons a rest ih => rw [argumentForms, ih, List.map_cons]

theorem Argument.form_eq_tokens (a : Argument) : a.form = a.tokens a.value.form := by
  cases a with
  | positional value => rw [Argument.form, Argument.tokens, Argument.value]
  | keyword name value => rw [Argument.form, Argument.tokens, Argument.value]

mutual

/-- The tokens of a statement. -/
def Stmt.print (s : Stmt) : List Token :=
  match s with
  | .bind _ name value =>
    .wordLet :: .name name.text :: .equals :: value.form ++ [.semicolon]
  | .assign _ target op value => target.form ++ op.token :: value.form ++ [.semicolon]
  | .expr _ value => value.form ++ [.semicolon]
  | .giveBack _ none => [.wordReturn, .semicolon]
  | .giveBack _ (some value) => .wordReturn :: value.form ++ [.semicolon]
  | .choose _ branches otherwise =>
    .wordIf :: printBranches branches ++ printOtherwise otherwise
  | .loop _ var iterable body =>
    .wordFor :: .name var.text :: .wordIn :: iterable.form ++ body.print
termination_by structural s

/-- The tokens of branches behind the first `if`. -/
def printBranches (branches : List Branch) : List Token :=
  match branches with
  | [] => []
  | b :: rest =>
    b.print ++ if rest.isEmpty then [] else .wordElse :: .wordIf :: printBranches rest
termination_by structural branches

/-- The tokens of a condition and the block it guards. -/
def Branch.print (b : Branch) : List Token :=
  match b with
  | .mk condition body => condition.form ++ body.print
termination_by structural b

/-- The tokens of the last block of a choice. -/
def printOtherwise (otherwise : Option Block) : List Token :=
  match otherwise with
  | none => []
  | some body => .wordElse :: body.print
termination_by structural otherwise

/-- The tokens of a block. -/
def Block.print (block : Block) : List Token :=
  match block with
  | .mk _ statements => .leftBrace :: printStatements statements ++ [.rightBrace]
termination_by structural block

/-- The tokens of a row of statements. -/
def printStatements (statements : List Stmt) : List Token :=
  match statements with
  | [] => []
  | s :: rest => s.print ++ printStatements rest
termination_by structural statements

end

/-- The tokens before the body of a function. -/
def headerTokens (trailing : Bool) (name : Name) (params : List Name) : List Token :=
  .wordFn :: .name name.text ::
    parenthesized (commas trailing (params.map fun param => [.name param.text]))

/-- The tokens of a definition. -/
def Item.print : Item → List Token
  | .function f => headerTokens false f.name f.params ++ f.body.print
  | .constant name value =>
    .wordLet :: .name name.text :: .equals :: value.form ++ [.semicolon]

/-- The tokens of a script. -/
def Program.print (p : Program) : List Token := p.items.flatMap Item.print

theorem BinaryOp.token_of_binaryOp? {t : Token} {op : BinaryOp} (h : t.binaryOp? = some op) :
    t = op.token := by
  cases t <;> simp only [Token.binaryOp?, Option.some.injEq, reduceCtorEq] at h <;> rw [← h] <;> rfl

theorem AssignOp.token_of_assignOp? {t : Token} {op : AssignOp} (h : t.assignOp? = some op) :
    t = op.token := by
  cases t <;> simp only [Token.assignOp?, Option.some.injEq, reduceCtorEq] at h <;> rw [← h] <;> rfl

theorem BinaryOp.level_le_leftLevel (op : BinaryOp) : op.level ≤ op.leftLevel := by
  unfold BinaryOp.leftLevel
  split <;> omega

/-- Rows of tokens with a comma behind each of them. -/
def followed (rows : List (List Token)) : List Token := rows.flatMap (· ++ [.comma])

theorem commas_true (rows : List (List Token)) : commas true rows = followed rows := by
  induction rows with
  | nil => rfl
  | cons ts rest ih =>
    cases rest with
    | nil => simp [commas, followed]
    | cons us more => rw [commas, ih]; simp [followed]

theorem commas_append_singleton (rows : List (List Token)) (ts : List Token) :
    commas false (rows ++ [ts]) = followed rows ++ ts := by
  induction rows with
  | nil => rfl
  | cons us rest ih =>
    cases rest with
    | nil => simp [commas, followed]
    | cons vs more =>
      rw [List.cons_append, List.cons_append, commas, ← List.cons_append, ih]
      simp [followed]

theorem followed_append_singleton (rows : List (List Token)) (ts : List Token) :
    followed (rows ++ [ts]) = followed rows ++ ts ++ [.comma] := by
  simp [followed]

end LandPattern.Script
