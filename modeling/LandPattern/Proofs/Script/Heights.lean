import LandPattern.Script.WellFormed

/-!
# Heights of trees

How many expressions lie inside one another, and how many blocks. A walk through an expression meets
a node that is too deep exactly when the expression is too high.
-/

namespace LandPattern.Script

mutual

/-- How many expressions lie inside one another, the outermost one counted. -/
def Expr.height (e : Expr) : Nat :=
  match e with
  | .list _ items | .tuple _ items => itemHeight items + 1
  | .unary _ _ operand => operand.height + 1
  | .binary _ _ left right => max left.height right.height + 1
  | .call _ callee args => max callee.height (argumentHeight args) + 1
  | .method _ receiver _ args => max receiver.height (argumentHeight args) + 1
  | .field _ object _ => object.height + 1
  | .index _ object position => max object.height position.height + 1
  | _ => 1
termination_by structural e

/-- The greatest height among items. -/
def itemHeight (items : List Expr) : Nat :=
  match items with
  | [] => 0
  | e :: rest => max e.height (itemHeight rest)
termination_by structural items

/-- The greatest height among the values of arguments. -/
def argumentHeight (args : List Argument) : Nat :=
  match args with
  | [] => 0
  | .positional e :: rest => max e.height (argumentHeight rest)
  | .keyword _ e :: rest => max e.height (argumentHeight rest)
termination_by structural args

end

mutual

/-- How many blocks lie inside one another in a statement. -/
def Stmt.height (s : Stmt) : Nat :=
  match s with
  | .choose _ branches otherwise => max (branchHeight branches) (otherwiseHeight otherwise)
  | .loop _ _ _ body => body.height
  | _ => 0
termination_by structural s

/-- The greatest height among statements. -/
def statementHeight (statements : List Stmt) : Nat :=
  match statements with
  | [] => 0
  | s :: rest => max s.height (statementHeight rest)
termination_by structural statements

/-- How many blocks lie inside one another, this one counted. -/
def Block.height (block : Block) : Nat :=
  match block with
  | .mk _ statements => statementHeight statements + 1
termination_by structural block

/-- The greatest height among the blocks of branches. -/
def branchHeight (branches : List Branch) : Nat :=
  match branches with
  | [] => 0
  | .mk _ body :: rest => max body.height (branchHeight rest)
termination_by structural branches

/-- The height of the last block of a choice. -/
def otherwiseHeight (otherwise : Option Block) : Nat :=
  match otherwise with
  | none => 0
  | some body => body.height
termination_by structural otherwise

end

/-- No visited node is deeper than the limit. -/
def Shallow (limit : Nat) (visits : List (Nat × Expr)) : Prop := ∀ visit ∈ visits, visit.1 ≤ limit

instance (limit : Nat) (visits : List (Nat × Expr)) : Decidable (Shallow limit visits) :=
  inferInstanceAs (Decidable (∀ visit ∈ visits, visit.1 ≤ limit))

@[simp] theorem shallow_nil (limit : Nat) : Shallow limit [] :=
  fun _ hnone => absurd hnone List.not_mem_nil

theorem shallow_cons {limit depth : Nat} {e : Expr} {visits : List (Nat × Expr)} :
    Shallow limit ((depth, e) :: visits) ↔ depth ≤ limit ∧ Shallow limit visits :=
  List.forall_mem_cons

theorem Expr.height_pos (e : Expr) : 1 ≤ e.height := by
  cases e <;> simp only [Expr.height] <;> omega

mutual

/-- No node is visited too deep exactly when the heights below a depth fit between it and the
limit. -/
theorem Expr.shallow_visits {limit depth : Nat} (e : Expr) {later : List (Nat × Expr)} :
    Shallow limit (e.visits depth later) ↔
      e.height + depth ≤ limit + 1 ∧ Shallow limit later := by
  unfold Expr.visits
  rw [shallow_cons]
  match e with
  | .int _ _ | .float _ _ | .text _ _ | .bool _ _ | .none _ | .name _ _ =>
    refine and_congr_left' ?_
    simp only [Expr.height]
    omega
  | .list _ items | .tuple _ items =>
    dsimp only
    rw [shallow_itemVisits items, ← and_assoc]
    refine and_congr_left' ?_
    simp only [Expr.height]
    omega
  | .unary _ _ operand =>
    dsimp only
    rw [operand.shallow_visits, ← and_assoc]
    refine and_congr_left' ?_
    simp only [Expr.height]
    omega
  | .binary _ _ left right =>
    dsimp only
    rw [left.shallow_visits, right.shallow_visits, ← and_assoc, ← and_assoc]
    refine and_congr_left' ?_
    simp only [Expr.height]
    omega
  | .call _ callee args =>
    dsimp only
    rw [shallow_argumentVisits args, callee.shallow_visits, ← and_assoc, ← and_assoc]
    refine and_congr_left' ?_
    simp only [Expr.height]
    omega
  | .method _ receiver _ args =>
    dsimp only
    rw [shallow_argumentVisits args, receiver.shallow_visits, ← and_assoc, ← and_assoc]
    refine and_congr_left' ?_
    simp only [Expr.height]
    omega
  | .field _ object _ =>
    dsimp only
    rw [object.shallow_visits, ← and_assoc]
    refine and_congr_left' ?_
    simp only [Expr.height]
    omega
  | .index _ object position =>
    dsimp only
    rw [object.shallow_visits, position.shallow_visits, ← and_assoc, ← and_assoc]
    refine and_congr_left' ?_
    simp only [Expr.height]
    omega
termination_by structural e

theorem shallow_itemVisits {limit depth : Nat} (items : List Expr) {later : List (Nat × Expr)} :
    Shallow limit (itemVisits depth items later) ↔
      itemHeight items ≤ limit + 1 - depth ∧ Shallow limit later := by
  match items with
  | [] => exact ⟨fun h => ⟨Nat.zero_le _, h⟩, And.right⟩
  | e :: rest =>
    have hpos := e.height_pos
    rw [itemVisits, shallow_itemVisits rest, e.shallow_visits, ← and_assoc, itemHeight]
    refine and_congr_left' ?_
    omega
termination_by structural items

theorem shallow_argumentVisits {limit depth : Nat} (args : List Argument)
    {later : List (Nat × Expr)} :
    Shallow limit (argumentVisits depth args later) ↔
      argumentHeight args ≤ limit + 1 - depth ∧ Shallow limit later := by
  match args with
  | [] => exact ⟨fun h => ⟨Nat.zero_le _, h⟩, And.right⟩
  | .positional e :: rest | .keyword _ e :: rest =>
    have hpos := e.height_pos
    rw [argumentVisits, shallow_argumentVisits rest, Argument.visits, e.shallow_visits,
      ← and_assoc, argumentHeight]
    refine and_congr_left' ?_
    omega
termination_by structural args

end

/-- Read from its root, no node of an expression is too deep exactly when it is not too high. -/
theorem Expr.shallow_iff {limit : Nat} {e : Expr} :
    Shallow limit (e.visits 1 []) ↔ e.height ≤ limit := by
  rw [e.shallow_visits]
  simp

end LandPattern.Script
