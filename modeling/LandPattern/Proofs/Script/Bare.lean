import LandPattern.Script.Syntax

/-!
# Scripts without places

The same script can be written with other blanks, so two trees are compared by what is left of them
when every span is forgotten. Forgetting goes through all parts of a tree and changes nothing else.
-/

namespace LandPattern.Script

/-- The span that stands for no place at all. -/
def Span.nowhere : Span := ⟨0, 0⟩

/-- The name without its place. -/
def Name.bare (name : Name) : Name := ⟨name.text, .nowhere⟩

mutual

/-- The expression without its places. -/
def Expr.bare (e : Expr) : Expr :=
  match e with
  | .int _ v => .int .nowhere v
  | .float _ v => .float .nowhere v
  | .text _ v => .text .nowhere v
  | .bool _ v => .bool .nowhere v
  | .none _ => .none .nowhere
  | .name _ t => .name .nowhere t
  | .list _ items => .list .nowhere (bareItems items)
  | .tuple _ items => .tuple .nowhere (bareItems items)
  | .unary _ op operand => .unary .nowhere op operand.bare
  | .binary _ op left right => .binary .nowhere op left.bare right.bare
  | .call _ callee args => .call .nowhere callee.bare (bareArguments args)
  | .method _ receiver name args =>
    .method .nowhere receiver.bare name.bare (bareArguments args)
  | .field _ object name => .field .nowhere object.bare name.bare
  | .index _ object position => .index .nowhere object.bare position.bare
termination_by structural e

/-- The items without their places. -/
def bareItems (items : List Expr) : List Expr :=
  match items with
  | [] => []
  | e :: rest => e.bare :: bareItems rest
termination_by structural items

/-- The arguments without their places. -/
def bareArguments (args : List Argument) : List Argument :=
  match args with
  | [] => []
  | a :: rest => a.bare :: bareArguments rest
termination_by structural args

/-- The argument without its places. -/
def Argument.bare (a : Argument) : Argument :=
  match a with
  | .positional value => .positional value.bare
  | .keyword name value => .keyword name.bare value.bare
termination_by structural a

end

theorem bareItems_eq_map (items : List Expr) : bareItems items = items.map Expr.bare := by
  induction items with
  | nil => rfl
  | cons e rest ih => rw [bareItems, ih, List.map_cons]

theorem bareArguments_eq_map (args : List Argument) :
    bareArguments args = args.map Argument.bare := by
  induction args with
  | nil => rfl
  | cons a rest ih => rw [bareArguments, ih, List.map_cons]

mutual

/-- The statement without its places. -/
def Stmt.bare (s : Stmt) : Stmt :=
  match s with
  | .bind _ name value => .bind .nowhere name.bare value.bare
  | .assign _ target op value => .assign .nowhere target.bare op value.bare
  | .expr _ value => .expr .nowhere value.bare
  | .giveBack _ value => .giveBack .nowhere (value.map Expr.bare)
  | .choose _ branches otherwise =>
    .choose .nowhere (bareBranches branches) (bareOtherwise otherwise)
  | .loop _ var iterable body => .loop .nowhere var.bare iterable.bare body.bare
termination_by structural s

/-- The branches without their places. -/
def bareBranches (branches : List Branch) : List Branch :=
  match branches with
  | [] => []
  | b :: rest => b.bare :: bareBranches rest
termination_by structural branches

/-- The branch without its places. -/
def Branch.bare (b : Branch) : Branch :=
  match b with
  | .mk condition body => .mk condition.bare body.bare
termination_by structural b

/-- The last block of a choice without its places. -/
def bareOtherwise (otherwise : Option Block) : Option Block :=
  match otherwise with
  | none => none
  | some body => some body.bare
termination_by structural otherwise

/-- The block without its places. -/
def Block.bare (block : Block) : Block :=
  match block with
  | .mk _ statements => .mk .nowhere (bareStatements statements)
termination_by structural block

/-- The statements without their places. -/
def bareStatements (statements : List Stmt) : List Stmt :=
  match statements with
  | [] => []
  | s :: rest => s.bare :: bareStatements rest
termination_by structural statements

end

theorem bareBranches_eq_map (branches : List Branch) :
    bareBranches branches = branches.map Branch.bare := by
  induction branches with
  | nil => rfl
  | cons b rest ih => rw [bareBranches, ih, List.map_cons]

theorem bareStatements_eq_map (statements : List Stmt) :
    bareStatements statements = statements.map Stmt.bare := by
  induction statements with
  | nil => rfl
  | cons s rest ih => rw [bareStatements, ih, List.map_cons]

/-- The function without its places. -/
def Function.bare (f : Function) : Function :=
  ⟨f.name.bare, f.params.map Name.bare, f.body.bare, .nowhere⟩

/-- The definition without its places. -/
def Item.bare : Item → Item
  | .function definition => .function definition.bare
  | .constant name value => .constant name.bare value.bare

/-- The script without its places. -/
def Program.bare (p : Program) : Program := ⟨p.items.map Item.bare⟩

/-- The place of an expression is forgotten, whatever it is. -/
@[simp] theorem Expr.bare_withSpan (s : Span) (e : Expr) : (e.withSpan s).bare = e.bare := by
  cases e <;> simp only [Expr.withSpan, Expr.bare]

end LandPattern.Script
