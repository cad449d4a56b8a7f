import LandPattern.Proofs.Script.DraftExtents
import LandPattern.Proofs.Script.Names
import LandPattern.Proofs.Script.Rules

/-!
# Nodes of a script

What stands in a script at one place: functions, blocks, statements, expressions, and the names that
are no expressions. The places of a script are those of its nodes, with the places of their parts,
so they nest as the nodes do: a node covers its parts, and neither these nor successive definitions
overlap. A constant has no place of its own and stands for its name and its value. Everything that
the rules of a script look at is one of its nodes.
-/

namespace LandPattern.Script

/-- Something that stands at one place. -/
inductive Node where
  | function (definition : Function)
  | block (block : Block)
  | statement (statement : Stmt)
  | expression (expression : Expr)
  | name (name : Name)

/-- Where a node stands. -/
def Node.span : Node → Span
  | .function f => f.span
  | .block body => body.span
  | .statement s => s.span
  | .expression e => e.span
  | .name n => n.span

/-- An argument with its keyword. -/
def Argument.nodes : Argument → List Node
  | .positional value => [.expression value]
  | .keyword name value => [.name name, .expression value]

/-- A condition with what it guards. -/
def Branch.nodes : Branch → List Node
  | .mk condition body => [.expression condition, .block body]

/-- The parts of an expression in the order of the source. -/
def Expr.nodes : Expr → List Node
  | .int _ _ | .float _ _ | .text _ _ | .bool _ _ | .none _ | .name _ _ => []
  | .list _ items | .tuple _ items => items.map .expression
  | .unary _ _ operand => [.expression operand]
  | .binary _ _ left right => [.expression left, .expression right]
  | .call _ callee args => .expression callee :: args.flatMap Argument.nodes
  | .method _ receiver n args => .expression receiver :: .name n :: args.flatMap Argument.nodes
  | .field _ object n => [.expression object, .name n]
  | .index _ object position => [.expression object, .expression position]

/-- The parts of a statement in the order of the source. -/
def Stmt.nodes : Stmt → List Node
  | .bind _ name value => [.name name, .expression value]
  | .assign _ target _ value => [.expression target, .expression value]
  | .expr _ value => [.expression value]
  | .giveBack _ value => value.toList.map .expression
  | .choose _ branches otherwise =>
    branches.flatMap Branch.nodes ++ otherwise.toList.map .block
  | .loop _ var iterable body => [.name var, .expression iterable, .block body]

/-- The parts of a node in the order of the source. -/
def Node.parts : Node → List Node
  | .function f => .name f.name :: (f.params.map .name ++ [.block f.body])
  | .block body => body.statements.map .statement
  | .statement s => s.nodes
  | .expression e => e.nodes
  | .name _ => []

/-- What a definition consists of. -/
def Item.nodes : Item → List Node
  | .function definition => [.function definition]
  | .constant name value => [.name name, .expression value]

/-- What the definitions of a script consist of. -/
def Program.nodes (p : Program) : List Node := p.items.flatMap Item.nodes

/-- The node is one of a script, at any depth. -/
inductive Program.Has (p : Program) : Node → Prop where
  | top {n : Node} (h : n ∈ p.nodes) : Has p n
  | part {n part : Node} (h : Has p n) (hp : part ∈ n.parts) : Has p part

/-- The places of a node. -/
def Node.extent : Node → Extent
  | .function f => f.extent
  | .block body => body.extent
  | .statement s => s.extent
  | .expression e => e.extent
  | .name n => n.extent

theorem itemExtents_eq_map (items : List Expr) :
    itemExtents items = (items.map Node.expression).map Node.extent := by
  induction items with
  | nil => rfl
  | cons e rest ih => rw [itemExtents, ih, List.map_cons, List.map_cons, Node.extent]

theorem argumentExtents_eq_map (args : List Argument) :
    argumentExtents args = (args.flatMap Argument.nodes).map Node.extent := by
  induction args with
  | nil => rfl
  | cons arg rest ih =>
    rw [List.flatMap_cons, List.map_append, ← ih]
    cases arg <;> rfl

theorem statementExtents_eq_map (statements : List Stmt) :
    statementExtents statements = (statements.map Node.statement).map Node.extent := by
  induction statements with
  | nil => rfl
  | cons s rest ih => rw [statementExtents, ih, List.map_cons, List.map_cons, Node.extent]

theorem branchExtents_eq_map (branches : List Branch) :
    branchExtents branches = (branches.flatMap Branch.nodes).map Node.extent := by
  induction branches with
  | nil => rfl
  | cons branch rest ih =>
    rw [List.flatMap_cons, List.map_append, ← ih]
    cases branch
    rfl

theorem otherwiseExtents_eq_map (otherwise : Option Block) :
    otherwiseExtents otherwise = (otherwise.toList.map Node.block).map Node.extent := by
  cases otherwise <;> rfl

@[simp] theorem Node.span_extent (n : Node) : n.extent.span = n.span := by
  cases n with
  | function f => rfl
  | block body => exact body.span_extent
  | statement s => exact s.span_extent
  | expression e => exact e.span_extent
  | name n => rfl

theorem Expr.parts_extent (e : Expr) : e.extent.parts = e.nodes.map Node.extent := by
  cases e <;> simp only [Expr.extent, Extent.parts, Expr.nodes, Node.extent, itemExtents_eq_map,
    argumentExtents_eq_map, List.map_cons, List.map_nil]

theorem Stmt.parts_extent (s : Stmt) : s.extent.parts = s.nodes.map Node.extent := by
  rcases s with _ | _ | _ | ⟨_, _ | _⟩ | _ | _ <;>
    simp only [Stmt.extent, Extent.parts, Stmt.nodes, Node.extent, branchExtents_eq_map,
      otherwiseExtents_eq_map, Option.toList_none, Option.toList_some, List.map_append,
      List.map_cons, List.map_nil]

@[simp] theorem Node.parts_extent (n : Node) : n.extent.parts = n.parts.map Node.extent := by
  cases n with
  | function f =>
    simp only [Node.extent, Node.parts, Function.extent, Extent.parts, List.map_cons,
      List.map_append, List.map_map, List.map_nil, Function.comp_def]
  | block body =>
    obtain ⟨s, statements⟩ := body
    exact statementExtents_eq_map statements
  | statement s => exact s.parts_extent
  | expression e => exact e.parts_extent
  | name n => rfl

theorem Program.extents_eq_map (p : Program) : p.extents = p.nodes.map Node.extent := by
  have hitem : Item.extents = fun item => item.nodes.map Node.extent := by
    funext item
    cases item <;> rfl
  rw [Program.extents, Program.nodes, List.map_flatMap, hitem]

/-- What holds of the places of a script holds of the place of every node in it. -/
theorem Gathers.has {R : List Extent → Prop} (hR : Gathers R) {p : Program} (h : R p.extents)
    {n : Node} (hn : p.Has n) : R [n.extent] := by
  induction hn with
  | top hn =>
    rw [Program.extents_eq_map] at h
    exact hR.sublist h (List.singleton_sublist.2 (List.mem_map_of_mem hn))
  | part _ hp ih =>
    have halone : R ([] ++ _ :: []) := ih
    have hparts := hR.parts halone
    rw [List.nil_append, List.append_nil, Node.parts_extent] at hparts
    exact hR.sublist hparts (List.singleton_sublist.2 (List.mem_map_of_mem hp))

/-! ## Nesting -/

/-- The first node ends before the second one starts. -/
def Node.Before (first second : Node) : Prop := first.span.stop ≤ second.span.start

/-- A node of a text of so many bytes that stands where its parts do. -/
structure Node.Nests (length : Nat) (n : Node) : Prop where
  /-- Something is written there. -/
  nonempty : n.span.start < n.span.stop
  /-- It lies in the text. -/
  within : n.span.stop ≤ length
  /-- It covers its parts. -/
  covers : ∀ part ∈ n.parts, part.span.Inside n.span
  /-- Its parts follow one another. -/
  ordered : n.parts.Pairwise Node.Before

/-- Nodes whose places are in a row follow one another. -/
theorem Row.ordered {lo hi : Nat} {nodes : List Node} (h : Row lo hi (nodes.map Node.extent)) :
    nodes.Pairwise Node.Before := by
  have hpairs := List.pairwise_map.1 h.pairwise
  simp only [Node.span_extent] at hpairs
  exact hpairs

theorem Row.nests {lo hi : Nat} {n : Node} (h : Row lo hi [n.extent]) : n.Nests hi := by
  obtain ⟨-, hs, hstop, hparts⟩ := Row.singleton_iff.1 h
  rw [Node.span_extent] at hs hstop hparts
  rw [Node.parts_extent] at hparts
  refine ⟨hs, hstop, fun part hpart => ?_, hparts.ordered⟩
  have hmem := Row.singleton_iff.1 (hparts.mem (List.mem_map_of_mem hpart))
  rw [Node.span_extent] at hmem
  exact ⟨hmem.1, hmem.2.2.1⟩

/-- In an accepted script, every node is written somewhere in the text and covers its parts, and
neither the parts of a node nor successive definitions overlap or change places. -/
theorem Program.nests_of_ofText {depths : Depths} {source : String} {p : Program}
    (h : Program.ofText depths source = .ok p) :
    (∀ n, p.Has n → n.Nests source.utf8ByteSize) ∧ p.nodes.Pairwise Node.Before := by
  have hrow := Program.row_of_ofText h
  rw [byteLength_toList] at hrow
  refine ⟨fun n hn => ((Row.gathers _ _).has hrow hn).nests, ?_⟩
  rw [Program.extents_eq_map] at hrow
  exact hrow.ordered

/-- The grouped sum covers its parentheses, and the call of a method on it covers the sum. -/
theorem Program.nests_of_ofText_grouped :
    ∃ p, Program.ofText ⟨2, 4⟩ "let a=(1+b).c(d=2);fn f(x)\x7bx=1;\x7d" = .ok p ∧
      p.Has (.expression (.binary ⟨6, 11⟩ .add (.int ⟨7, 8⟩ 1) (.name ⟨9, 10⟩ "b"))) ∧
      (∀ n, p.Has n → n.Nests 32) ∧ p.nodes.Pairwise Node.Before := by
  have hread : readLexemes 0 0 [] [] "let a=(1+b).c(d=2);fn f(x)\x7bx=1;\x7d".toList =
      ([⟨.wordLet, ⟨0, 3⟩⟩, ⟨.blank, ⟨3, 4⟩⟩, ⟨.name "a", ⟨4, 5⟩⟩, ⟨.equals, ⟨5, 6⟩⟩,
        ⟨.leftParen, ⟨6, 7⟩⟩, ⟨.int 1, ⟨7, 8⟩⟩, ⟨.plus, ⟨8, 9⟩⟩, ⟨.name "b", ⟨9, 10⟩⟩,
        ⟨.rightParen, ⟨10, 11⟩⟩, ⟨.dot, ⟨11, 12⟩⟩, ⟨.name "c", ⟨12, 13⟩⟩, ⟨.leftParen, ⟨13, 14⟩⟩,
        ⟨.name "d", ⟨14, 15⟩⟩, ⟨.equals, ⟨15, 16⟩⟩, ⟨.int 2, ⟨16, 17⟩⟩, ⟨.rightParen, ⟨17, 18⟩⟩,
        ⟨.semicolon, ⟨18, 19⟩⟩, ⟨.wordFn, ⟨19, 21⟩⟩, ⟨.blank, ⟨21, 22⟩⟩, ⟨.name "f", ⟨22, 23⟩⟩,
        ⟨.leftParen, ⟨23, 24⟩⟩, ⟨.name "x", ⟨24, 25⟩⟩, ⟨.rightParen, ⟨25, 26⟩⟩,
        ⟨.leftBrace, ⟨26, 27⟩⟩, ⟨.name "x", ⟨27, 28⟩⟩, ⟨.equals, ⟨28, 29⟩⟩, ⟨.int 1, ⟨29, 30⟩⟩,
        ⟨.semicolon, ⟨30, 31⟩⟩, ⟨.rightBrace, ⟨31, 32⟩⟩], []) := by decide +kernel
  have hprogram : Program.ofText ⟨2, 4⟩ "let a=(1+b).c(d=2);fn f(x)\x7bx=1;\x7d" =
      .ok ⟨[.constant ⟨"a", ⟨4, 5⟩⟩ (.method ⟨6, 18⟩
          (.binary ⟨6, 11⟩ .add (.int ⟨7, 8⟩ 1) (.name ⟨9, 10⟩ "b")) ⟨"c", ⟨12, 13⟩⟩
          [.keyword ⟨"d", ⟨14, 15⟩⟩ (.int ⟨16, 17⟩ 2)]),
        .function ⟨⟨"f", ⟨22, 23⟩⟩, [⟨"x", ⟨24, 25⟩⟩], .mk ⟨26, 32⟩
          [.assign ⟨27, 31⟩ (.name ⟨27, 28⟩ "x") .set (.int ⟨29, 30⟩ 1)], ⟨19, 32⟩⟩]⟩ := by
    rw [Program.ofText, tokenize, hread]
    rfl
  exact ⟨_, hprogram, .part (.top (List.mem_cons_of_mem _ List.mem_cons_self)) List.mem_cons_self,
    Program.nests_of_ofText hprogram⟩

/-! ## What the rules look at -/

section Rules

variable {p : Program}

mutual

/-- The expressions inside an expression of a script are nodes of the script. -/
theorem Expr.has_expressions (e : Expr) (h : p.Has (.expression e)) :
    ∀ x ∈ e.expressions, p.Has (.expression x) := by
  have hparts : ∀ part ∈ e.nodes, p.Has part := fun part hpart => .part h hpart
  unfold Expr.expressions
  refine List.forall_mem_cons.2 ⟨h, ?_⟩
  match e with
  | .int _ _ | .float _ _ | .text _ _ | .bool _ _ | .none _ | .name _ _ =>
    exact fun _ hx => absurd hx List.not_mem_nil
  | .list _ items | .tuple _ items =>
    exact has_itemExpressions items fun e he => hparts _ (List.mem_map_of_mem he)
  | .unary _ _ operand => exact operand.has_expressions (hparts _ List.mem_cons_self)
  | .binary _ _ left right =>
    exact List.forall_mem_append.2 ⟨left.has_expressions (hparts _ List.mem_cons_self),
      right.has_expressions (hparts _ (List.mem_cons_of_mem _ List.mem_cons_self))⟩
  | .call _ callee args =>
    exact List.forall_mem_append.2 ⟨callee.has_expressions (hparts _ List.mem_cons_self),
      has_argumentExpressions args fun n hn => hparts n (List.mem_cons_of_mem _ hn)⟩
  | .method _ receiver _ args =>
    exact List.forall_mem_append.2 ⟨receiver.has_expressions (hparts _ List.mem_cons_self),
      has_argumentExpressions args fun n hn =>
        hparts n (List.mem_cons_of_mem _ (List.mem_cons_of_mem _ hn))⟩
  | .field _ object _ => exact object.has_expressions (hparts _ List.mem_cons_self)
  | .index _ object position =>
    exact List.forall_mem_append.2 ⟨object.has_expressions (hparts _ List.mem_cons_self),
      position.has_expressions (hparts _ (List.mem_cons_of_mem _ List.mem_cons_self))⟩
termination_by structural e

theorem has_itemExpressions (items : List Expr) (h : ∀ e ∈ items, p.Has (.expression e)) :
    ∀ x ∈ itemExpressions items, p.Has (.expression x) := by
  match items with
  | [] => exact fun _ hx => absurd hx List.not_mem_nil
  | e :: rest =>
    exact List.forall_mem_append.2 ⟨e.has_expressions (h e List.mem_cons_self),
      has_itemExpressions rest fun other hother => h other (List.mem_cons_of_mem e hother)⟩
termination_by structural items

theorem has_argumentExpressions (args : List Argument)
    (h : ∀ n ∈ args.flatMap Argument.nodes, p.Has n) :
    ∀ x ∈ argumentExpressions args, p.Has (.expression x) := by
  match args with
  | [] => exact fun _ hx => absurd hx List.not_mem_nil
  | .positional e :: rest | .keyword _ e :: rest =>
    rw [List.flatMap_cons, List.forall_mem_append] at h
    exact List.forall_mem_append.2 ⟨e.has_expressions (h.1 _ (by simp [Argument.nodes])),
      has_argumentExpressions rest h.2⟩
termination_by structural args

end

mutual

/-- The statements inside a statement of a script are nodes of the script. -/
theorem Stmt.has_statements (s : Stmt) (h : p.Has (.statement s)) :
    ∀ x ∈ s.statements, p.Has (.statement x) := by
  have hparts : ∀ part ∈ s.nodes, p.Has part := fun part hpart => .part h hpart
  unfold Stmt.statements
  refine List.forall_mem_cons.2 ⟨h, ?_⟩
  match s with
  | .bind _ _ _ | .assign _ _ _ _ | .expr _ _ | .giveBack _ _ =>
    exact fun _ hx => absurd hx List.not_mem_nil
  | .choose _ branches otherwise =>
    obtain ⟨hbranches, hotherwise⟩ := List.forall_mem_append.1 hparts
    exact List.forall_mem_append.2 ⟨has_branchStatements branches hbranches,
      has_otherwiseStatements otherwise hotherwise⟩
  | .loop _ _ _ body =>
    exact body.has_allStatements (hparts _ (by simp [Stmt.nodes]))
termination_by structural s

theorem has_rowStatements (row : List Stmt) (h : ∀ s ∈ row, p.Has (.statement s)) :
    ∀ x ∈ rowStatements row, p.Has (.statement x) := by
  match row with
  | [] => exact fun _ hx => absurd hx List.not_mem_nil
  | s :: rest =>
    exact List.forall_mem_append.2 ⟨s.has_statements (h s List.mem_cons_self),
      has_rowStatements rest fun other hother => h other (List.mem_cons_of_mem s hother)⟩
termination_by structural row

theorem Block.has_allStatements (block : Block) (h : p.Has (.block block)) :
    ∀ x ∈ block.allStatements, p.Has (.statement x) := by
  match block with
  | .mk s row => exact has_rowStatements row fun x hx => .part h (List.mem_map_of_mem hx)
termination_by structural block

theorem has_branchStatements (branches : List Branch)
    (h : ∀ n ∈ branches.flatMap Branch.nodes, p.Has n) :
    ∀ x ∈ branchStatements branches, p.Has (.statement x) := by
  match branches with
  | [] => exact fun _ hx => absurd hx List.not_mem_nil
  | .mk condition body :: rest =>
    rw [List.flatMap_cons, List.forall_mem_append] at h
    exact List.forall_mem_append.2 ⟨body.has_allStatements (h.1 _ (by simp [Branch.nodes])),
      has_branchStatements rest h.2⟩
termination_by structural branches

theorem has_otherwiseStatements (otherwise : Option Block)
    (h : ∀ n ∈ otherwise.toList.map Node.block, p.Has n) :
    ∀ x ∈ otherwiseStatements otherwise, p.Has (.statement x) := by
  match otherwise with
  | none => exact fun _ hx => absurd hx List.not_mem_nil
  | some body => exact body.has_allStatements (h _ List.mem_cons_self)
termination_by structural otherwise

end

theorem Program.has_function {f : Function} (hf : f ∈ p.functions) : p.Has (.function f) :=
  .top (List.mem_flatMap.2 ⟨.function f, mem_functions_iff.1 hf, List.mem_cons_self⟩)

theorem Program.has_statement {s : Stmt} (hs : s ∈ p.statements) : p.Has (.statement s) := by
  obtain ⟨f, hf, hs⟩ := List.mem_flatMap.1 hs
  have hbody : p.Has (.block f.body) := .part (has_function hf) (by simp [Node.parts])
  exact f.body.has_allStatements hbody s hs

theorem Program.has_param {f : Function} {param : Name} (hf : f ∈ p.functions)
    (hp : param ∈ f.params) : p.Has (.name param) :=
  .part (has_function hf) (by simp [Node.parts, hp])

theorem Program.has_itemName {item : Item} (hi : item ∈ p.items) : p.Has (.name item.name) := by
  cases item with
  | function f => exact .part (has_function (mem_functions_iff.2 hi)) List.mem_cons_self
  | constant name value =>
    exact .top (List.mem_flatMap.2 ⟨.constant name value, hi, List.mem_cons_self⟩)

theorem Program.has_target {target : Expr} (ht : target ∈ p.targets) :
    p.Has (.expression target) := by
  obtain ⟨s, hs, htarget⟩ := List.mem_filterMap.1 ht
  cases s with
  | assign s other op value =>
    cases htarget
    exact .part (has_statement hs) List.mem_cons_self
  | _ => cases htarget

/-- An expression that belongs to a statement is a part of it. -/
theorem Stmt.mem_nodes_of_mem_roots {s : Stmt} {root : Expr} (hr : root ∈ s.roots) :
    .expression root ∈ s.nodes := by
  cases s with
  | choose s branches otherwise =>
    obtain ⟨⟨condition, body⟩, hbranch, rfl⟩ := List.mem_map.1 hr
    exact List.mem_append_left _ (List.mem_flatMap.2 ⟨_, hbranch, List.mem_cons_self⟩)
  | giveBack s value => exact List.mem_map_of_mem hr
  | bind s name value | expr s value | loop s var iterable body | assign s target op value =>
    simp only [Stmt.roots, List.mem_cons, List.not_mem_nil, or_false] at hr
    simp [Stmt.nodes, hr]

theorem Program.has_root {root : Expr} (hr : root ∈ p.roots) : p.Has (.expression root) := by
  rcases List.mem_append.1 hr with hstatement | hvalue
  · obtain ⟨s, hs, hroot⟩ := List.mem_flatMap.1 hstatement
    exact .part (has_statement hs) (Stmt.mem_nodes_of_mem_roots hroot)
  · obtain ⟨item, hitem, hvalue⟩ := List.mem_filterMap.1 hvalue
    cases item with
    | function f => cases hvalue
    | constant name value =>
      cases hvalue
      exact .top (List.mem_flatMap.2
        ⟨.constant name root, hitem, List.mem_cons_of_mem _ List.mem_cons_self⟩)

/-- What stands in the arguments of a call is a part of the call. -/
theorem Expr.mem_nodes_of_mem_arguments {e : Expr} {arg : Argument} (ha : arg ∈ e.arguments)
    {n : Node} (hn : n ∈ arg.nodes) : n ∈ e.nodes := by
  have hall : n ∈ e.arguments.flatMap Argument.nodes := List.mem_flatMap.2 ⟨arg, ha, hn⟩
  cases e with
  | call s callee args => exact List.mem_cons_of_mem _ hall
  | method s receiver name args => exact List.mem_cons_of_mem _ (List.mem_cons_of_mem _ hall)
  | _ => exact absurd ha List.not_mem_nil

end Rules

end LandPattern.Script
