import LandPattern.Proofs.Script.Heights
import Mathlib.Data.List.Basic
import Mathlib.Data.List.Induction

/-!
# The rules of a well-formed script

What a script must keep beyond its grammar, told by what stands in it and not by how it is walked
through: all statements at any depth, all expressions that are no part of another one, and all
expressions inside these. Beside the rules stands the list of what breaks them, with one entry for
each breach.
-/

namespace LandPattern.Script

mutual

/-- All expressions that an expression is made of, itself first. -/
def Expr.expressions (e : Expr) : List Expr :=
  e :: match e with
    | .list _ items | .tuple _ items => itemExpressions items
    | .unary _ _ operand => operand.expressions
    | .binary _ _ left right => left.expressions ++ right.expressions
    | .call _ callee args => callee.expressions ++ argumentExpressions args
    | .method _ receiver _ args => receiver.expressions ++ argumentExpressions args
    | .field _ object _ => object.expressions
    | .index _ object position => object.expressions ++ position.expressions
    | _ => []
termination_by structural e

/-- All expressions that items are made of. -/
def itemExpressions (items : List Expr) : List Expr :=
  match items with
  | [] => []
  | e :: rest => e.expressions ++ itemExpressions rest
termination_by structural items

/-- All expressions that the values of arguments are made of. -/
def argumentExpressions (args : List Argument) : List Expr :=
  match args with
  | [] => []
  | .positional e :: rest | .keyword _ e :: rest => e.expressions ++ argumentExpressions rest
termination_by structural args

end

mutual

/-- All statements that a statement is made of, itself first. -/
def Stmt.statements (s : Stmt) : List Stmt :=
  s :: match s with
    | .choose _ branches otherwise => branchStatements branches ++ otherwiseStatements otherwise
    | .loop _ _ _ body => body.allStatements
    | _ => []
termination_by structural s

/-- All statements that a row of statements is made of. -/
def rowStatements (row : List Stmt) : List Stmt :=
  match row with
  | [] => []
  | s :: rest => s.statements ++ rowStatements rest
termination_by structural row

/-- The statements of a block at any depth. -/
def Block.allStatements (block : Block) : List Stmt :=
  match block with
  | .mk _ row => rowStatements row
termination_by structural block

/-- The statements of the blocks of branches at any depth. -/
def branchStatements (branches : List Branch) : List Stmt :=
  match branches with
  | [] => []
  | .mk _ body :: rest => body.allStatements ++ branchStatements rest
termination_by structural branches

/-- The statements of the last block of a choice at any depth. -/
def otherwiseStatements (otherwise : Option Block) : List Stmt :=
  match otherwise with
  | none => []
  | some body => body.allStatements
termination_by structural otherwise

end

/-- The condition of a branch. -/
def Branch.condition : Branch → Expr
  | .mk condition _ => condition

/-- The expressions that are a part of the statement and of no other expression, those in its blocks
left out. -/
def Stmt.roots : Stmt → List Expr
  | .bind _ _ value => [value]
  | .assign _ target _ value => [target, value]
  | .expr _ value => [value]
  | .giveBack _ value => value.toList
  | .choose _ branches _ => branches.map Branch.condition
  | .loop _ _ iterable _ => [iterable]

/-- What the statement assigns to. -/
def Stmt.target? : Stmt → Option Expr
  | .assign _ target _ _ => some target
  | _ => none

/-- The arguments of a call, of a function or of a method. -/
def Expr.arguments : Expr → List Argument
  | .call _ _ args | .method _ _ _ args => args
  | _ => []

/-- A name, or a field of or a place in what is rooted at a name. -/
inductive Expr.Rooted : Expr → Prop where
  | name (s : Span) (text : String) : Rooted (.name s text)
  | field (s : Span) {object : Expr} (name : Name) (h : Rooted object) :
    Rooted (.field s object name)
  | index (s : Span) {object : Expr} (position : Expr) (h : Rooted object) :
    Rooted (.index s object position)

theorem Expr.isPlace_iff_rooted (e : Expr) : e.isPlace = true ↔ e.Rooted := by
  fun_induction Expr.isPlace e with
  | case1 s text => exact ⟨fun _ => .name s text, fun _ => rfl⟩
  | case2 s object name ih =>
    rw [ih]
    refine ⟨.field s name, fun h => ?_⟩
    cases h with
    | field _ _ hobject => exact hobject
  | case3 s object position ih =>
    rw [ih]
    refine ⟨.index s position, fun h => ?_⟩
    cases h with
    | index _ _ hobject => exact hobject
  | case4 e hname hfield hindex =>
    refine ⟨fun h => absurd h Bool.false_ne_true, fun h => ?_⟩
    cases h with
    | name s text => exact absurd rfl (hname s text)
    | field s name _ => exact absurd rfl (hfield s _ name)
    | index s position _ => exact absurd rfl (hindex s _ position)

instance (e : Expr) : Decidable e.Rooted := decidable_of_iff _ e.isPlace_iff_rooted

/-- Whether a definition is a function. -/
def Item.isFunction : Item → Bool
  | .function _ => true
  | .constant _ _ => false

/-- The value of a constant. -/
def Item.value? : Item → Option Expr
  | .function _ => none
  | .constant _ value => some value

namespace Program

variable (p : Program)

/-- All statements of a script, at any depth. -/
def statements : List Stmt := p.functions.flatMap fun f => f.body.allStatements

/-- All expressions of a script that are no part of another expression. -/
def roots : List Expr := p.statements.flatMap Stmt.roots ++ p.items.filterMap Item.value?

/-- Everything that is assigned to. -/
def targets : List Expr := p.statements.filterMap Stmt.target?

/-- The rules that a script keeps when no expression may be higher than the limit. -/
structure WellFormed (limit : Nat) : Prop where
  /-- No two definitions have the same name. -/
  definitions : (p.items.map fun item => item.name.text).Nodup
  /-- No two parameters of one function have the same name. -/
  params : ∀ f ∈ p.functions, (f.params.map Name.text).Nodup
  /-- Whatever is assigned to is rooted at a name. -/
  targets : ∀ target ∈ p.targets, target.Rooted
  /-- In every call, what stands behind a keyword argument is one too. -/
  arguments : ∀ root ∈ p.roots, ∀ e ∈ root.expressions, e.arguments.Pairwise fun before behind =>
    before.name?.isSome → behind.name?.isSome
  /-- No expression is too high. -/
  heights : ∀ root ∈ p.roots, root.height ≤ limit

end Program

/-! ## What breaks the rules -/

section LookingBack

variable {α β : Type}

/-- For each element of a row, what `find` finds for it among the elements before it. -/
def lookingBack (find : List α → α → Option β) (xs : List α) : List β :=
  xs.zipIdx.filterMap fun entry => find (xs.take entry.2) entry.1

@[simp] theorem lookingBack_nil (find : List α → α → Option β) : lookingBack find [] = [] := rfl

theorem lookingBack_append_singleton (find : List α → α → Option β) (xs : List α) (x : α) :
    lookingBack find (xs ++ [x]) = lookingBack find xs ++ (find xs x).toList := by
  have hsame : ∀ entry ∈ xs.zipIdx, find ((xs ++ [x]).take entry.2) entry.1 =
      find (xs.take entry.2) entry.1 := by
    intro entry hentry
    have hlt : entry.2 < xs.length := List.snd_lt_of_mem_zipIdx hentry
    rw [List.take_append_of_le_length (Nat.le_of_lt hlt)]
  have hlast : (xs ++ [x]).take xs.length = xs := List.take_left
  rw [lookingBack, List.zipIdx_append, List.filterMap_append, List.filterMap_congr hsame]
  simp only [List.zipIdx_singleton, Nat.zero_add, List.filterMap_cons, List.filterMap_nil, hlast]
  cases find xs x <;> rfl

/-- What is found by looking back is found for one of the elements. -/
theorem mem_lookingBack {find : List α → α → Option β} {xs : List α} {b : β}
    (h : b ∈ lookingBack find xs) :
    ∃ before x, find before x = some b ∧ x ∈ xs ∧ ∀ y ∈ before, y ∈ xs := by
  obtain ⟨⟨x, k⟩, hentry, hfind⟩ := List.mem_filterMap.1 h
  exact ⟨_, x, hfind, List.fst_mem_of_mem_zipIdx hentry, fun y hy => List.mem_of_mem_take hy⟩

/-- Nothing is found at all when no two elements are such that the later one finds the earlier. -/
theorem lookingBack_eq_nil_iff {find : List α → α → Option β} {apart : α → α → Prop}
    (h : ∀ before x, find before x = none ↔ ∀ y ∈ before, apart y x) {xs : List α} :
    lookingBack find xs = [] ↔ xs.Pairwise apart := by
  induction xs using List.reverseRecOn with
  | nil => simp
  | append_singleton xs x ih =>
    rw [lookingBack_append_singleton, List.append_eq_nil_iff, ih, Option.toList_eq_nil_iff, h,
      List.pairwise_append]
    simp

/-- A scan that tells at every element what is found among those before it tells all of it. `sees`
says what the scan has kept of the elements before. -/
theorem lookingBack_eq_of_scan {σ δ : Type} {find : List α → α → Option β} {report : β → δ}
    {scan : σ → List α → List δ} (sees : σ → List α → Prop) (hnil : ∀ seen, scan seen [] = [])
    (hcons : ∀ seen before x rest, sees seen before → ∃ next, sees next (before ++ [x]) ∧
      scan seen (x :: rest) = ((find before x).map report).toList ++ scan next rest)
    {seen : σ} (h : sees seen []) (xs : List α) :
    scan seen xs = (lookingBack find xs).map report := by
  have hall : ∀ (xs before : List α) (seen : σ), sees seen before →
      (lookingBack find before).map report ++ scan seen xs =
        (lookingBack find (before ++ xs)).map report := by
    intro xs
    induction xs with
    | nil =>
      intro before seen _
      rw [hnil, List.append_nil, List.append_nil]
    | cons x rest ih =>
      intro before seen hseen
      obtain ⟨next, hnext, hscan⟩ := hcons seen before x rest hseen
      have hrest := ih (before ++ [x]) next hnext
      rw [lookingBack_append_singleton, List.map_append, List.append_assoc, List.append_assoc,
        List.singleton_append] at hrest
      rw [hscan, ← hrest]
      cases find before x <;> rfl
  have hwhole := hall xs [] seen h
  rwa [lookingBack_nil, List.map_nil, List.nil_append, List.nil_append] at hwhole

end LookingBack

/-- The elements whose name an earlier one has, each behind the first that has it. -/
def repeated {α : Type} (name : α → Name) (xs : List α) : List (α × α) :=
  lookingBack (fun before x =>
    (before.find? fun y => (name y).text == (name x).text).map fun first => (first, x)) xs

/-- The positional arguments that a keyword stands before, each behind the first keyword. -/
def misplaced (args : List Argument) : List (Name × Expr) :=
  lookingBack (fun before arg => match arg with
    | .positional value => (before.findSome? Argument.name?).map fun first => (first, value)
    | .keyword _ _ => none) args

theorem repeated_eq_nil_iff {α : Type} {name : α → Name} {xs : List α} :
    repeated name xs = [] ↔ (xs.map fun x => (name x).text).Nodup := by
  have hnone : ∀ (before : List α) (x : α),
      ((before.find? fun y => (name y).text == (name x).text).map fun first => (first, x)) = none ↔
        ∀ y ∈ before, (name y).text ≠ (name x).text := by
    intro before x
    simp
  rw [repeated, lookingBack_eq_nil_iff hnone, List.Nodup, List.pairwise_map]

/-- The third name repeats the first one. -/
example : repeated id [⟨"a", ⟨0, 1⟩⟩, ⟨"b", ⟨3, 4⟩⟩, ⟨"a", ⟨6, 7⟩⟩] =
    [(⟨"a", ⟨0, 1⟩⟩, ⟨"a", ⟨6, 7⟩⟩)] := by decide

theorem misplaced_eq_nil_iff {args : List Argument} :
    misplaced args = [] ↔ args.Pairwise fun before behind =>
      before.name?.isSome → behind.name?.isSome := by
  rw [misplaced, lookingBack_eq_nil_iff]
  intro before arg
  cases arg with
  | positional value => simp [Argument.name?]
  | keyword name value => simp [Argument.name?]

theorem mem_of_mem_repeated {α : Type} {name : α → Name} {xs : List α} {pair : α × α}
    (h : pair ∈ repeated name xs) : pair.1 ∈ xs ∧ pair.2 ∈ xs := by
  obtain ⟨before, x, hfind, hx, hbefore⟩ := mem_lookingBack h
  obtain ⟨first, hfirst, rfl⟩ := Option.map_eq_some_iff.1 hfind
  exact ⟨hbefore first (List.mem_of_find?_eq_some hfirst), hx⟩

/-- A misplaced argument and the keyword before it stand among the arguments. -/
theorem mem_of_mem_misplaced {args : List Argument} {pair : Name × Expr}
    (h : pair ∈ misplaced args) :
    (∃ value, .keyword pair.1 value ∈ args) ∧ .positional pair.2 ∈ args := by
  obtain ⟨before, arg, hfind, harg, hbefore⟩ := mem_lookingBack h
  cases arg with
  | positional value =>
    obtain ⟨first, hfirst, rfl⟩ := Option.map_eq_some_iff.1 hfind
    obtain ⟨other, hother, hname⟩ := List.exists_of_findSome?_eq_some hfirst
    cases other with
    | positional _ => cases hname
    | keyword name otherValue =>
      cases hname
      exact ⟨⟨otherValue, hbefore _ hother⟩, harg⟩
  | keyword name value => cases hfind

/-- What is reported for a definition whose name an earlier one has. -/
def repeatedDefinition (pair : Item × Item) : Diagnostic :=
  .related (if pair.2.isFunction && pair.1.isFunction then .duplicateFunction pair.2.name.text
      else .duplicateDefinition pair.2.name.text)
    pair.2.name.span "duplicate definition" pair.1.name.span "first defined here"

/-- What is reported for a parameter whose name an earlier one has. -/
def repeatedParam (function : String) (pair : Name × Name) : Diagnostic :=
  .related (.duplicateParameter pair.2.text function) pair.2.span "duplicate parameter"
    pair.1.span "first declared here"

/-- What is reported for a positional argument behind a keyword. -/
def misplacedArgument (pair : Name × Expr) : Diagnostic :=
  .related .positionalAfterKeyword pair.2.span "positional argument" pair.1.span
    "first keyword argument"

/-- What is reported for a target that is no place. -/
def unassignable (target : Expr) : Diagnostic :=
  .single .notAPlace target.span "not a variable, field or index"

/-- What is reported for an expression that is too high. -/
def tooHigh (limit : Nat) (root : Expr) : Diagnostic :=
  .single (.expressionTooDeep limit) root.span "expression too deep"

/-- One diagnostic for every definition and every parameter that repeats a name, for every target
that is not rooted at a name, for every positional argument behind a keyword, and for every
expression that is too high. -/
def Program.breaches (limit : Nat) (p : Program) : List Diagnostic :=
  (repeated Item.name p.items).map repeatedDefinition ++
  p.functions.flatMap (fun f => (repeated id f.params).map (repeatedParam f.name.text)) ++
  (p.targets.filter fun target => ¬ target.Rooted).map unassignable ++
  p.roots.flatMap (fun root => root.expressions.flatMap fun e =>
    (misplaced e.arguments).map misplacedArgument) ++
  (p.roots.filter fun root => limit < root.height).map (tooHigh limit)

/-- Nothing is reported exactly for scripts that keep the rules. -/
theorem Program.breaches_eq_nil_iff {limit : Nat} {p : Program} :
    p.breaches limit = [] ↔ p.WellFormed limit := by
  have hbreaches : p.breaches limit = [] ↔
      (p.items.map fun item => item.name.text).Nodup ∧
      (∀ f ∈ p.functions, (f.params.map Name.text).Nodup) ∧
      (∀ target ∈ p.targets, target.Rooted) ∧
      (∀ root ∈ p.roots, ∀ e ∈ root.expressions, e.arguments.Pairwise fun before behind =>
        before.name?.isSome → behind.name?.isSome) ∧
      ∀ root ∈ p.roots, root.height ≤ limit := by
    simp only [Program.breaches, List.append_eq_nil_iff, List.map_eq_nil_iff, repeated_eq_nil_iff,
      List.flatMap_eq_nil_iff, misplaced_eq_nil_iff, List.filter_eq_nil_iff, decide_eq_true_eq,
      not_not, Nat.not_lt, and_assoc, id_eq]
  rw [hbreaches]
  exact ⟨fun ⟨hd, hp, ht, ha, hh⟩ => ⟨hd, hp, ht, ha, hh⟩,
    fun ⟨hd, hp, ht, ha, hh⟩ => ⟨hd, hp, ht, ha, hh⟩⟩

end LandPattern.Script
