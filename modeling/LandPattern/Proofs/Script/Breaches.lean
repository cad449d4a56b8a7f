import LandPattern.Proofs.Script.Rules
import Mathlib.Data.List.Perm.Basic

/-!
# Every breach is reported once

The problems of a script are its breaches of the rules, in another order. Repeated names and
misplaced arguments are found by scans that remember what stood before. The expressions of a tree
are visited in the order of a walk that takes items and arguments from the right, each once and at
its depth, and that something lies too deep is told once for the whole tree. So a script has no
problems exactly when it keeps the rules.
-/

namespace LandPattern.Script

/-! ## Scans -/

/-- A scan has kept the first of each name among the elements before, in the form `keep` gives it. -/
def Keeps {α β : Type} (name : α → Name) (keep : α → β) (keptName : β → Name) (seen : List β)
    (before : List α) : Prop :=
  ∀ wanted : Name, (seen.find? fun s => (keptName s).text == wanted.text) =
    (before.find? fun x => (name x).text == wanted.text).map keep

section Keeping

variable {α β : Type} {name : α → Name} {keep : α → β} {keptName : β → Name} {seen : List β}
variable {before : List α} {x : α}

/-- An element with a name that none has before is kept. -/
theorem Keeps.push (h : Keeps name keep keptName seen before) (hx : keptName (keep x) = name x)
    (hnone : (before.find? fun y => (name y).text == (name x).text) = none) :
    Keeps name keep keptName (keep x :: seen) (before ++ [x]) := by
  intro wanted
  rw [List.find?_cons, List.find?_append, h, hx]
  by_cases hname : (name x).text = wanted.text
  · rw [← hname, hnone]
    simp
  · simp [beq_false_of_ne hname]

/-- An element that repeats a name is not kept. -/
theorem Keeps.skip {first : α} (h : Keeps name keep keptName seen before)
    (hfirst : (before.find? fun y => (name y).text == (name x).text) = some first) :
    Keeps name keep keptName seen (before ++ [x]) := by
  intro wanted
  rw [h, List.find?_append]
  by_cases hname : (name x).text = wanted.text
  · rw [← hname, hfirst]
    rfl
  · simp [beq_false_of_ne hname]

end Keeping

theorem definitionProblems_cons (seen : List (Name × Bool)) (item : Item) (rest : List Item) :
    definitionProblems seen (item :: rest) = match earlier? item.name seen with
      | none => definitionProblems ((item.name, item.isFunction) :: seen) rest
      | some (first, isFunction) =>
        .related (if item.isFunction && isFunction then .duplicateFunction item.name.text
            else .duplicateDefinition item.name.text)
          item.name.span "duplicate definition" first.span "first defined here" ::
            definitionProblems seen rest := by
  cases item <;> rfl

/-- Every definition that repeats a name is reported. -/
theorem definitionProblems_eq (items : List Item) :
    definitionProblems [] items = (repeated Item.name items).map repeatedDefinition := by
  refine lookingBack_eq_of_scan
    (Keeps Item.name (fun item => (item.name, item.isFunction)) Prod.fst)
    (fun _ => rfl) (fun seen before item rest hseen => ?_) (fun _ => rfl) items
  rw [definitionProblems_cons, earlier?, hseen item.name]
  cases hfirst : before.find? fun other => other.name.text == item.name.text with
  | none => exact ⟨_, hseen.push rfl hfirst, rfl⟩
  | some first => exact ⟨seen, hseen.skip hfirst, rfl⟩

/-- Every parameter that repeats a name is reported. -/
theorem paramProblems_eq (function : String) (params : List Name) :
    paramProblems function [] params = (repeated id params).map (repeatedParam function) := by
  refine lookingBack_eq_of_scan (Keeps id id id) (fun _ => rfl)
    (fun seen before param rest hseen => ?_) (fun _ => rfl) params
  have hkept : (seen.find? fun s => s.text == param.text) =
      (before.find? fun s => s.text == param.text).map id := hseen param
  rw [paramProblems, hkept]
  cases hfirst : before.find? fun other => other.text == param.text with
  | none => exact ⟨param :: seen, hseen.push rfl hfirst, by simp [hfirst]⟩
  | some first => exact ⟨seen, hseen.skip hfirst, by simp [hfirst, repeatedParam]⟩

/-- Every positional argument behind a keyword is reported. -/
theorem argumentProblems_eq (args : List Argument) :
    argumentProblems none args = (misplaced args).map misplacedArgument := by
  refine lookingBack_eq_of_scan
    (fun (keyword : Option Span) (before : List Argument) =>
      keyword = (before.findSome? Argument.name?).map Name.span)
    (fun keyword => by cases keyword <;> rfl) (fun keyword before arg rest hseen => ?_) rfl args
  subst hseen
  rw [List.findSome?_append]
  cases arg with
  | keyword name value =>
    refine ⟨_, rfl, ?_⟩
    cases hfirst : before.findSome? Argument.name? <;> simp [argumentProblems, Argument.name?]
  | positional value =>
    refine ⟨_, rfl, ?_⟩
    cases hfirst : before.findSome? Argument.name? <;>
      simp [argumentProblems, Argument.name?, misplacedArgument]

theorem nodeProblems_eq (e : Expr) :
    nodeProblems e = (misplaced e.arguments).map misplacedArgument := by
  cases e with
  | call s callee args | method s receiver name args => exact argumentProblems_eq args
  | _ => rfl

/-! ## The walk through an expression -/

section Walk

mutual

/-- Every expression inside is visited, each as often as it stands there. -/
theorem Expr.visits_perm (depth : Nat) (e : Expr) (later : List (Nat × Expr)) :
    ((e.visits depth later).map Prod.snd).Perm (e.expressions ++ later.map Prod.snd) := by
  unfold Expr.visits Expr.expressions
  rw [List.map_cons, List.cons_append]
  refine .cons e ?_
  match e with
  | .int _ _ | .float _ _ | .text _ _ | .bool _ _ | .none _ | .name _ _ => exact .refl _
  | .list _ items | .tuple _ items => exact itemVisits_perm (depth + 1) items later
  | .unary _ _ operand => exact operand.visits_perm (depth + 1) later
  | .binary _ _ left right =>
    have hleft := left.visits_perm (depth + 1) (right.visits (depth + 1) later)
    have hright := right.visits_perm (depth + 1) later
    rw [List.append_assoc]
    exact hleft.trans (hright.append_left _)
  | .call _ callee args =>
    have hargs := argumentVisits_perm (depth + 1) args (callee.visits (depth + 1) later)
    have hcallee := callee.visits_perm (depth + 1) later
    rw [List.append_assoc]
    exact (hargs.trans (hcallee.append_left _)).trans (List.perm_append_comm_assoc _ _ _)
  | .method _ receiver _ args =>
    have hargs := argumentVisits_perm (depth + 1) args (receiver.visits (depth + 1) later)
    have hreceiver := receiver.visits_perm (depth + 1) later
    rw [List.append_assoc]
    exact (hargs.trans (hreceiver.append_left _)).trans (List.perm_append_comm_assoc _ _ _)
  | .field _ object _ => exact object.visits_perm (depth + 1) later
  | .index _ object position =>
    have hobject := object.visits_perm (depth + 1) (position.visits (depth + 1) later)
    have hposition := position.visits_perm (depth + 1) later
    rw [List.append_assoc]
    exact hobject.trans (hposition.append_left _)
termination_by structural e

theorem itemVisits_perm (depth : Nat) (items : List Expr) (later : List (Nat × Expr)) :
    ((itemVisits depth items later).map Prod.snd).Perm
      (itemExpressions items ++ later.map Prod.snd) := by
  match items with
  | [] => exact .refl _
  | e :: rest =>
    have hrest := itemVisits_perm depth rest (e.visits depth later)
    have hfirst := e.visits_perm depth later
    rw [itemVisits, itemExpressions, List.append_assoc]
    exact (hrest.trans (hfirst.append_left _)).trans (List.perm_append_comm_assoc _ _ _)
termination_by structural items

theorem argumentVisits_perm (depth : Nat) (args : List Argument) (later : List (Nat × Expr)) :
    ((argumentVisits depth args later).map Prod.snd).Perm
      (argumentExpressions args ++ later.map Prod.snd) := by
  match args with
  | [] => exact .refl _
  | .positional e :: rest | .keyword _ e :: rest =>
    have hrest := argumentVisits_perm depth rest (e.visits depth later)
    have hfirst := e.visits_perm depth later
    rw [argumentVisits, Argument.visits, argumentExpressions, List.append_assoc]
    exact (hrest.trans (hfirst.append_left _)).trans (List.perm_append_comm_assoc _ _ _)
termination_by structural args

end

/-- Every visited node has its own problems reported, and that some of them lie too deep is reported
once. -/
theorem visitProblems_perm (limit : Nat) (root : Expr) (reported : Bool)
    (visits : List (Nat × Expr)) :
    (visitProblems limit root.span reported visits).Perm
      ((visits.map Prod.snd).flatMap nodeProblems ++
        if reported = true ∨ Shallow limit visits then [] else [tooHigh limit root]) := by
  induction visits generalizing reported with
  | nil => simp [visitProblems]
  | cons visit rest ih =>
    obtain ⟨depth, e⟩ := visit
    rw [visitProblems, List.map_cons, List.flatMap_cons, List.append_assoc]
    by_cases hreport : (decide (limit < depth) && !reported) = true
    · obtain ⟨hdeep, hfirst⟩ : limit < depth ∧ reported = false := by simpa using hreport
      have hrest := ih true
      have hneither : ¬ (reported = true ∨ Shallow limit ((depth, e) :: rest)) := by
        rw [shallow_cons, hfirst]
        simp [Nat.not_le_of_lt hdeep]
      rw [if_pos (Or.inl rfl), List.append_nil] at hrest
      rw [if_pos hreport, if_neg hneither]
      refine (List.Perm.cons _ (hrest.append_left _)).trans ?_
      rw [← List.append_assoc]
      exact (List.perm_append_singleton _ _).symm
    · have hsame : reported = true ∨ Shallow limit ((depth, e) :: rest) ↔
          reported = true ∨ Shallow limit rest := by
        rw [shallow_cons]
        cases reported with
        | true => simp
        | false =>
          have hdepth : depth ≤ limit := by simpa using hreport
          simp [hdepth]
      rw [if_neg hreport]
      simp only [hsame]
      exact (ih reported).append_left _

end Walk

/-- What breaks the rules in an expression that is no part of another one. -/
def Expr.breaches (limit : Nat) (root : Expr) : List Diagnostic :=
  root.expressions.flatMap (fun e => (misplaced e.arguments).map misplacedArgument) ++
    if limit < root.height then [tooHigh limit root] else []

theorem Expr.problems_perm (limit : Nat) (root : Expr) :
    (root.problems limit).Perm (root.breaches limit) := by
  have hall := visitProblems_perm limit root false (root.visits 1 [])
  have hnodes := root.visits_perm 1 []
  rw [List.map_nil, List.append_nil] at hnodes
  have hheight : (false = true ∨ Shallow limit (root.visits 1 [])) ↔ ¬ limit < root.height := by
    rw [Expr.shallow_iff]
    simp
  have hown : nodeProblems = fun e => (misplaced e.arguments).map misplacedArgument :=
    funext nodeProblems_eq
  simp only [hheight, ite_not, hown] at hall
  exact hall.trans ((hnodes.flatMap_right _).append_right _)

/-- An expression without problems is no higher than the limit. -/
theorem Expr.height_le_of_problems {limit : Nat} {e : Expr} (h : e.problems limit = []) :
    e.height ≤ limit := by
  have hbreaches : e.breaches limit = [] := List.nil_perm.1 (h ▸ e.problems_perm limit)
  by_contra hhigh
  simp [Expr.breaches, Nat.lt_of_not_le hhigh] at hbreaches

/-! ## Statements -/

/-- The problems of a statement, those in its blocks left out. -/
def Stmt.ownProblems (limit : Nat) (s : Stmt) : List Diagnostic :=
  s.target?.toList.flatMap targetProblems ++ s.roots.flatMap (Expr.problems limit)

mutual

/-- Every statement at any depth has its own problems reported. -/
theorem Stmt.problems_perm (limit : Nat) (s : Stmt) :
    (s.problems limit).Perm (s.statements.flatMap (Stmt.ownProblems limit)) := by
  unfold Stmt.problems Stmt.statements
  rw [List.flatMap_cons]
  match s with
  | .bind _ _ value | .expr _ value => simp [Stmt.ownProblems, Stmt.target?, Stmt.roots]
  | .assign _ target _ value => simp [Stmt.ownProblems, Stmt.target?, Stmt.roots]
  | .giveBack _ none => simp [Stmt.ownProblems, Stmt.target?, Stmt.roots]
  | .giveBack _ (some value) => simp [Stmt.ownProblems, Stmt.target?, Stmt.roots]
  | .choose s branches otherwise =>
    have hbranches := branchProblems_perm limit branches
    have hother := elseProblems_perm limit otherwise
    have hown : Stmt.ownProblems limit (.choose s branches otherwise) =
        (branches.map Branch.condition).flatMap (Expr.problems limit) := by
      simp [Stmt.ownProblems, Stmt.target?, Stmt.roots]
    dsimp only
    rw [hown, List.flatMap_append, ← List.append_assoc]
    exact hbranches.append hother
  | .loop s var iterable body =>
    have hbody := body.problems_perm limit
    have hown : Stmt.ownProblems limit (.loop s var iterable body) = iterable.problems limit := by
      simp [Stmt.ownProblems, Stmt.target?, Stmt.roots]
    dsimp only
    rw [hown]
    exact hbody.append_left _
termination_by structural s

theorem statementProblems_perm (limit : Nat) (row : List Stmt) :
    (statementProblems limit row).Perm ((rowStatements row).flatMap (Stmt.ownProblems limit)) := by
  match row with
  | [] => exact .refl _
  | s :: rest =>
    have hfirst := s.problems_perm limit
    have hrest := statementProblems_perm limit rest
    rw [statementProblems, rowStatements, List.flatMap_append]
    exact hfirst.append hrest
termination_by structural row

theorem Block.problems_perm (limit : Nat) (block : Block) :
    (block.problems limit).Perm (block.allStatements.flatMap (Stmt.ownProblems limit)) := by
  match block with
  | .mk _ row => exact statementProblems_perm limit row
termination_by structural block

theorem branchProblems_perm (limit : Nat) (branches : List Branch) :
    (branchProblems limit branches).Perm
      ((branches.map Branch.condition).flatMap (Expr.problems limit) ++
        (branchStatements branches).flatMap (Stmt.ownProblems limit)) := by
  match branches with
  | [] => exact .refl _
  | .mk condition body :: rest =>
    have hbody := body.problems_perm limit
    have hrest := branchProblems_perm limit rest
    rw [branchProblems, Branch.problems, branchStatements, List.map_cons, List.flatMap_cons,
      List.flatMap_append, List.append_assoc, List.append_assoc]
    refine .append_left _ ((hbody.append hrest).trans ?_)
    exact List.perm_append_comm_assoc _ _ _
termination_by structural branches

theorem elseProblems_perm (limit : Nat) (otherwise : Option Block) :
    (elseProblems limit otherwise).Perm
      ((otherwiseStatements otherwise).flatMap (Stmt.ownProblems limit)) := by
  match otherwise with
  | none => exact .refl _
  | some body => exact body.problems_perm limit
termination_by structural otherwise

end

/-! ## Scripts -/

theorem targetProblems_eq (target : Expr) :
    targetProblems target = ([target].filter fun target => ¬ target.Rooted).map unassignable := by
  unfold targetProblems
  by_cases h : target.isPlace = true
  · have hrooted := target.isPlace_iff_rooted.1 h
    simp [h, hrooted]
  · have hrooted : ¬ target.Rooted := fun hr => h (target.isPlace_iff_rooted.2 hr)
    simp [h, hrooted, unassignable]

/-- Picking and reporting one after the other is reporting all that were picked. -/
theorem flatMap_targets (statements : List Stmt) :
    statements.flatMap (fun s => s.target?.toList.flatMap targetProblems) =
      ((statements.filterMap Stmt.target?).filter fun target => ¬ target.Rooted).map
        unassignable := by
  induction statements with
  | nil => rfl
  | cons s rest ih =>
    rw [List.flatMap_cons, ih, List.filterMap_cons]
    cases s.target? with
    | none => rfl
    | some target =>
      rw [Option.toList_some, List.flatMap_singleton, targetProblems_eq, ← List.map_append,
        ← List.filter_append, List.singleton_append]

/-- The breaches in a row of expressions are the misplaced arguments in all of them, and those of
them that are too high. -/
theorem flatMap_breaches_perm (limit : Nat) (roots : List Expr) :
    (roots.flatMap (Expr.breaches limit)).Perm
      (roots.flatMap (fun root => root.expressions.flatMap fun e =>
          (misplaced e.arguments).map misplacedArgument) ++
        (roots.filter fun root => limit < root.height).map (tooHigh limit)) := by
  have hhigh : (roots.filter fun root => limit < root.height).map (tooHigh limit) =
      roots.flatMap fun root => if limit < root.height then [tooHigh limit root] else [] := by
    induction roots with
    | nil => rfl
    | cons root rest ih =>
      rw [List.filter_cons, List.flatMap_cons, ← ih]
      by_cases h : limit < root.height <;> simp [h]
  rw [hhigh]
  exact (List.flatMap_append_perm roots _ _).symm

theorem Program.functionProblems_perm (limit : Nat) (p : Program) :
    (p.functions.flatMap (Function.problems limit)).Perm
      (p.functions.flatMap (fun f => (repeated id f.params).map (repeatedParam f.name.text)) ++
        ((p.targets.filter fun target => ¬ target.Rooted).map unassignable ++
          (p.statements.flatMap Stmt.roots).flatMap (Expr.problems limit))) := by
  have hsplit : p.functions.flatMap (Function.problems limit) =
      p.functions.flatMap fun f => (repeated id f.params).map (repeatedParam f.name.text) ++
        f.body.problems limit :=
    List.flatMap_congr fun f _ => by rw [Function.problems, paramProblems_eq]
  have hbodies : (p.functions.flatMap fun f => f.body.problems limit).Perm
      (p.statements.flatMap (Stmt.ownProblems limit)) := by
    rw [Program.statements, List.flatMap_assoc]
    exact List.Perm.flatMap_left _ fun f _ => f.body.problems_perm limit
  have hown : (p.statements.flatMap (Stmt.ownProblems limit)).Perm
      ((p.targets.filter fun target => ¬ target.Rooted).map unassignable ++
        (p.statements.flatMap Stmt.roots).flatMap (Expr.problems limit)) := by
    rw [Program.targets, ← flatMap_targets, List.flatMap_assoc]
    exact (List.flatMap_append_perm _ _ _).symm
  rw [hsplit]
  exact (List.flatMap_append_perm _ _ _).symm.trans ((hbodies.trans hown).append_left _)

theorem Program.constantProblems_eq (limit : Nat) (p : Program) :
    p.items.flatMap (Item.valueProblems limit) =
      (p.items.filterMap Item.value?).flatMap (Expr.problems limit) := by
  induction p.items with
  | nil => rfl
  | cons item rest ih =>
    rw [List.flatMap_cons, ih, List.filterMap_cons]
    cases item with
    | function definition => rfl
    | constant name value => rfl

/-- Every breach of the rules is reported once, and nothing else is. -/
theorem Program.problems_perm (limit : Nat) (p : Program) :
    (p.problems limit).Perm (p.breaches limit) := by
  have hroots : (p.roots.flatMap (Expr.problems limit)).Perm
      (p.roots.flatMap (fun root => root.expressions.flatMap fun e =>
          (misplaced e.arguments).map misplacedArgument) ++
        (p.roots.filter fun root => limit < root.height).map (tooHigh limit)) :=
    (List.Perm.flatMap_left _ fun root _ => root.problems_perm limit).trans
      (flatMap_breaches_perm limit p.roots)
  rw [Program.roots, List.flatMap_append, ← Program.roots, ← p.constantProblems_eq] at hroots
  rw [Program.problems, Program.breaches, definitionProblems_eq]
  have hfunctions := (p.functionProblems_perm limit).append_right
    (p.items.flatMap (Item.valueProblems limit))
  simp only [List.append_assoc] at hfunctions hroots ⊢
  exact (hfunctions.trans ((hroots.append_left _).append_left _)).append_left _

/-- A script has no problems exactly when it keeps the rules. Whatever its problems are, there is
one for every definition and every parameter that repeats a name, for every target that is not
rooted at a name, for every positional argument behind a keyword and for every expression that is
too high, and there are no others. -/
theorem Program.problems_judge_wellFormed (limit : Nat) (p : Program) :
    (p.problems limit = [] ↔ p.WellFormed limit) ∧
      (p.problems limit).Perm (p.breaches limit) := by
  have hperm := p.problems_perm limit
  refine ⟨?_, hperm⟩
  rw [← Program.breaches_eq_nil_iff]
  exact ⟨fun h => List.nil_perm.1 (h ▸ hperm), fun h => List.perm_nil.1 (h ▸ hperm)⟩

end LandPattern.Script
