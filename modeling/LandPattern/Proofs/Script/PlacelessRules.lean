import LandPattern.Proofs.Script.Nesting
import LandPattern.Proofs.Script.Placeless
import LandPattern.Proofs.Script.ReadingBlocks
import LandPattern.Script.Compile

/-!
# Rules without places

The rules that a script must keep do not look at places: a script without its places breaks the same
rules in the same order, and its diagnostics are those of the script with their places forgotten.
-/

namespace LandPattern.Script

/-- A place with what stands there is forgotten. -/
def placelessVisit (visit : Nat × Expr) : Nat × Expr := (visit.1, visit.2.bare)

@[simp] theorem Diagnostic.single_placeless (problem : Problem) (span : Span) (text : String) :
    (single problem span text).placeless = single problem .nowhere text := rfl

@[simp] theorem Diagnostic.related_placeless (problem : Problem) (span other : Span)
    (text otherText : String) :
    (related problem span text other otherText).placeless =
      related problem .nowhere text .nowhere otherText := rfl

@[simp] theorem Item.name_bare (item : Item) : item.bare.name = item.name.bare := by
  cases item <;> rfl

@[simp] theorem Name.text_bare (name : Name) : name.bare.text = name.text := rfl

@[simp] theorem Name.span_bare (name : Name) : name.bare.span = .nowhere := rfl

@[simp] theorem Stmt.span_bare (s : Stmt) : s.bare.span = .nowhere := by
  cases s <;> rw [Stmt.bare] <;> rfl

@[simp] theorem Expr.isPlace_bare (e : Expr) : e.bare.isPlace = e.isPlace := by
  induction e using Expr.isPlace.induct with
  | case1 => simp [Expr.bare, Expr.isPlace]
  | case2 _ object _ ih => simpa [Expr.bare, Expr.isPlace] using ih
  | case3 _ object _ ih => simpa [Expr.bare, Expr.isPlace] using ih
  | case4 e hname hfield hindex =>
    cases e with
    | name => exact absurd rfl (hname _ _)
    | field => exact absurd rfl (hfield _ _ _)
    | index => exact absurd rfl (hindex _ _ _)
    | _ => simp [Expr.bare, Expr.isPlace]

theorem earlier?_bare (name : Name) (seen : List (Name × Bool)) :
    earlier? name.bare (seen.map fun entry => (entry.1.bare, entry.2)) =
      (earlier? name seen).map fun entry => (entry.1.bare, entry.2) := by
  unfold earlier?
  rw [List.find?_map]
  rfl

theorem definitionProblems_bare (seen : List (Name × Bool)) (items : List Item) :
    definitionProblems (seen.map fun entry => (entry.1.bare, entry.2)) (items.map Item.bare) =
      (definitionProblems seen items).map Diagnostic.placeless := by
  induction items generalizing seen with
  | nil => rfl
  | cons item rest ih =>
    have hearlier := earlier?_bare item.name seen
    rw [List.map_cons]
    cases item with
    | function definition =>
      simp only [definitionProblems, Item.bare, Item.name, Function.bare] at hearlier ⊢
      rw [hearlier]
      cases hfound : earlier? definition.name seen with
      | none => exact ih ((definition.name, true) :: seen)
      | some entry => simp [ih seen]
    | constant name value =>
      simp only [definitionProblems, Item.bare, Item.name] at hearlier ⊢
      rw [hearlier]
      cases hfound : earlier? name seen with
      | none => exact ih ((name, false) :: seen)
      | some entry => simp [ih seen]

theorem paramProblems_bare (function : String) (seen params : List Name) :
    paramProblems function (seen.map Name.bare) (params.map Name.bare) =
      (paramProblems function seen params).map Diagnostic.placeless := by
  induction params generalizing seen with
  | nil => rfl
  | cons param rest ih =>
    have hfind : (seen.map Name.bare).find? (fun s => s.text == param.bare.text) =
        (seen.find? fun s => s.text == param.text).map Name.bare := by
      rw [List.find?_map]
      rfl
    simp only [List.map_cons, paramProblems, hfind]
    cases seen.find? fun s => s.text == param.text with
    | none => exact ih (param :: seen)
    | some first => simp [ih seen]

theorem argumentProblems_bare (keyword : Option Span) (args : List Argument) :
    argumentProblems (keyword.map fun _ => .nowhere) (args.map Argument.bare) =
      (argumentProblems keyword args).map Diagnostic.placeless := by
  induction args generalizing keyword with
  | nil => rfl
  | cons a rest ih =>
    cases a with
    | keyword name value =>
      have hnext := ih (some (keyword.getD name.span))
      cases keyword <;> exact hnext
    | positional value =>
      cases keyword with
      | none => exact ih none
      | some first =>
        have hnext := ih (some first)
        simp only [Option.map_some] at hnext
        simp [argumentProblems, Argument.bare, hnext]

mutual

/-- A walk over an expression meets the same nodes without their places. -/
theorem Expr.visits_bare (depth : Nat) (e : Expr) (later : List (Nat × Expr)) :
    e.bare.visits depth (later.map placelessVisit) = (e.visits depth later).map placelessVisit := by
  unfold Expr.visits
  match e with
  | .int _ _ | .float _ _ | .text _ _ | .bool _ _ | .none _ | .name _ _ =>
    simp only [Expr.bare, List.map_cons, placelessVisit]
  | .list _ items | .tuple _ items =>
    simp only [Expr.bare, List.map_cons, placelessVisit, itemVisits_bare _ items later]
  | .unary _ _ operand =>
    simp only [Expr.bare, List.map_cons, placelessVisit, Expr.visits_bare _ operand later]
  | .binary _ _ left right =>
    simp only [Expr.bare, List.map_cons, placelessVisit, Expr.visits_bare _ right later,
      Expr.visits_bare _ left]
  | .call _ callee args =>
    simp only [Expr.bare, List.map_cons, placelessVisit, Expr.visits_bare _ callee later,
      argumentVisits_bare _ args]
  | .method _ receiver _ args =>
    simp only [Expr.bare, List.map_cons, placelessVisit, Expr.visits_bare _ receiver later,
      argumentVisits_bare _ args]
  | .field _ object _ =>
    simp only [Expr.bare, List.map_cons, placelessVisit, Expr.visits_bare _ object later]
  | .index _ object position =>
    simp only [Expr.bare, List.map_cons, placelessVisit, Expr.visits_bare _ position later,
      Expr.visits_bare _ object]
termination_by structural e

theorem itemVisits_bare (depth : Nat) (items : List Expr) (later : List (Nat × Expr)) :
    itemVisits depth (bareItems items) (later.map placelessVisit) =
      (itemVisits depth items later).map placelessVisit := by
  match items with
  | [] => rfl
  | e :: rest =>
    rw [bareItems, itemVisits, itemVisits, Expr.visits_bare _ e later, itemVisits_bare _ rest]
termination_by structural items

theorem argumentVisits_bare (depth : Nat) (args : List Argument) (later : List (Nat × Expr)) :
    argumentVisits depth (bareArguments args) (later.map placelessVisit) =
      (argumentVisits depth args later).map placelessVisit := by
  match args with
  | [] => rfl
  | a :: rest =>
    rw [bareArguments, argumentVisits, argumentVisits, Argument.visits_bare _ a later,
      argumentVisits_bare _ rest]
termination_by structural args

theorem Argument.visits_bare (depth : Nat) (a : Argument) (later : List (Nat × Expr)) :
    a.bare.visits depth (later.map placelessVisit) = (a.visits depth later).map placelessVisit := by
  match a with
  | .positional value =>
    simp only [Argument.bare, Argument.visits]
    exact Expr.visits_bare depth value later
  | .keyword _ value =>
    simp only [Argument.bare, Argument.visits]
    exact Expr.visits_bare depth value later
termination_by structural a

end

theorem nodeProblems_bare (e : Expr) :
    nodeProblems e.bare = (nodeProblems e).map Diagnostic.placeless := by
  cases e with
  | call _ _ args | method _ _ _ args =>
    simp only [Expr.bare, nodeProblems, bareArguments_eq_map]
    exact argumentProblems_bare none args
  | _ => simp only [Expr.bare, nodeProblems, List.map_nil]

theorem visitProblems_bare (limit : Nat) (root : Span) (reported : Bool)
    (visits : List (Nat × Expr)) :
    visitProblems limit .nowhere reported (visits.map placelessVisit) =
      (visitProblems limit root reported visits).map Diagnostic.placeless := by
  induction visits generalizing reported with
  | nil => rfl
  | cons visit rest ih =>
    obtain ⟨depth, e⟩ := visit
    rw [List.map_cons, placelessVisit, visitProblems, visitProblems]
    split
    · simp [nodeProblems_bare, ih true]
    · simp [nodeProblems_bare, ih reported]

theorem Expr.problems_bare (limit : Nat) (e : Expr) :
    e.bare.problems limit = (e.problems limit).map Diagnostic.placeless := by
  have hvisits := Expr.visits_bare 1 e []
  rw [List.map_nil] at hvisits
  rw [Expr.problems, Expr.problems, Expr.span_bare, hvisits]
  exact visitProblems_bare limit e.span false _

theorem targetProblems_bare (target : Expr) :
    targetProblems target.bare = (targetProblems target).map Diagnostic.placeless := by
  unfold targetProblems
  rw [Expr.isPlace_bare, Expr.span_bare]
  split
  · rfl
  · rfl

mutual

theorem Stmt.problems_bare (limit : Nat) (s : Stmt) :
    s.bare.problems limit = (s.problems limit).map Diagnostic.placeless := by
  match s with
  | .bind _ _ value | .expr _ value => simp only [Stmt.bare, Stmt.problems, Expr.problems_bare]
  | .assign _ target _ value =>
    simp only [Stmt.bare, Stmt.problems, Expr.problems_bare, targetProblems_bare, List.map_append]
  | .giveBack _ none => rfl
  | .giveBack _ (some value) =>
    simp only [Stmt.bare, Option.map_some, Stmt.problems, Expr.problems_bare]
  | .choose _ branches otherwise =>
    simp only [Stmt.bare, Stmt.problems, branchProblems_bare limit branches,
      elseProblems_bare limit otherwise, List.map_append]
  | .loop _ _ iterable body =>
    simp only [Stmt.bare, Stmt.problems, Expr.problems_bare, Block.problems_bare limit body,
      List.map_append]
termination_by structural s

theorem statementProblems_bare (limit : Nat) (statements : List Stmt) :
    statementProblems limit (bareStatements statements) =
      (statementProblems limit statements).map Diagnostic.placeless := by
  match statements with
  | [] => rfl
  | s :: rest =>
    simp only [bareStatements, statementProblems, Stmt.problems_bare limit s,
      statementProblems_bare limit rest, List.map_append]
termination_by structural statements

theorem Block.problems_bare (limit : Nat) (block : Block) :
    block.bare.problems limit = (block.problems limit).map Diagnostic.placeless := by
  match block with
  | .mk _ statements =>
    simp only [Block.bare, Block.problems]
    exact statementProblems_bare limit statements
termination_by structural block

theorem branchProblems_bare (limit : Nat) (branches : List Branch) :
    branchProblems limit (bareBranches branches) =
      (branchProblems limit branches).map Diagnostic.placeless := by
  match branches with
  | [] => rfl
  | b :: rest =>
    simp only [bareBranches, branchProblems, Branch.problems_bare limit b,
      branchProblems_bare limit rest, List.map_append]
termination_by structural branches

theorem Branch.problems_bare (limit : Nat) (b : Branch) :
    b.bare.problems limit = (b.problems limit).map Diagnostic.placeless := by
  match b with
  | .mk condition body =>
    simp only [Branch.bare, Branch.problems, Expr.problems_bare, Block.problems_bare limit body,
      List.map_append]
termination_by structural b

theorem elseProblems_bare (limit : Nat) (otherwise : Option Block) :
    elseProblems limit (bareOtherwise otherwise) =
      (elseProblems limit otherwise).map Diagnostic.placeless := by
  match otherwise with
  | none => rfl
  | some body =>
    simp only [bareOtherwise, elseProblems]
    exact Block.problems_bare limit body
termination_by structural otherwise

end

theorem Function.problems_bare (limit : Nat) (f : Function) :
    f.bare.problems limit = (f.problems limit).map Diagnostic.placeless := by
  simp only [Function.problems, Function.bare, Block.problems_bare, List.map_append,
    Name.text_bare]
  exact congrArg (· ++ _) (paramProblems_bare f.name.text [] f.params)

@[simp] theorem Program.functions_bare (p : Program) :
    p.bare.functions = p.functions.map Function.bare := by
  obtain ⟨items⟩ := p
  simp only [Program.functions, Program.bare]
  induction items with
  | nil => rfl
  | cons item rest ih => cases item <;> simpa [Item.bare] using ih

theorem Item.valueProblems_bare (limit : Nat) (item : Item) :
    item.bare.valueProblems limit = (item.valueProblems limit).map Diagnostic.placeless := by
  cases item with
  | function _ => rfl
  | constant _ value => exact Expr.problems_bare limit value

/-- Problems of a row are found one after the other. -/
theorem flatMap_bare {α : Type} {bare : α → α} {problems : α → List Diagnostic} (items : List α)
    (h : ∀ item, problems (bare item) = (problems item).map Diagnostic.placeless) :
    (items.map bare).flatMap problems = (items.flatMap problems).map Diagnostic.placeless := by
  rw [List.flatMap_map, List.map_flatMap]
  exact congrArg (items.flatMap ·) (funext h)

/-- A script without its places breaks the same rules. -/
theorem Program.problems_bare (limit : Nat) (p : Program) :
    p.bare.problems limit = (p.problems limit).map Diagnostic.placeless := by
  have hdefinitions := definitionProblems_bare [] p.items
  rw [List.map_nil] at hdefinitions
  rw [Program.problems, Program.problems, Program.functions_bare, List.map_append, List.map_append,
    flatMap_bare _ (Function.problems_bare limit), Program.bare, hdefinitions,
    flatMap_bare _ (Item.valueProblems_bare limit)]

/-- The bracket check refuses with one problem and one remark. -/
theorem tooDeepBracket?_eq_some {limit depth : Nat} {tokens : List Placed} {d : Diagnostic}
    (h : tooDeepBracket? limit depth tokens = some d) :
    d.placeless = .single (.bracketsTooDeep limit) .nowhere "too deep" := by
  induction tokens generalizing depth with
  | nil => cases h
  | cons t rest ih =>
    unfold tooDeepBracket? at h
    split at h
    · split at h
      · cases h
        rfl
      · exact ih h
    · split at h
      · exact ih h
      · exact ih h

/-- The bracket check looks at the tokens that carry meaning alone. -/
theorem tooDeepBracket?_eq_of_words (limit : Nat) {tokens others : List Placed}
    (h : words (significant tokens) = words (significant others)) :
    (tooDeepBracket? limit 0 tokens).map Diagnostic.placeless =
      (tooDeepBracket? limit 0 others).map Diagnostic.placeless := by
  have hiff := tooDeepBracket?_eq_none_iff limit 0 tokens
  rw [h, ← tooDeepBracket?_eq_none_iff] at hiff
  cases hfirst : tooDeepBracket? limit 0 tokens with
  | none => rw [hiff.1 hfirst]
  | some d =>
    cases hsecond : tooDeepBracket? limit 0 others with
    | none =>
      rw [hiff.2 hsecond] at hfirst
      cases hfirst
    | some e =>
      rw [Option.map_some, Option.map_some, tooDeepBracket?_eq_some hfirst,
        tooDeepBracket?_eq_some hsecond]

/-- What the stages behind the tokens make of a script, given what the bracket check and the reader
say. -/
def Program.ofStages (depths : Depths) (tooDeep? : Option Diagnostic)
    (read : Except Diagnostic Program) : Except (List Diagnostic) Program :=
  match tooDeep? with
  | some problem => .error [problem]
  | none =>
    match read with
    | .error problem => .error [problem]
    | .ok program =>
      match program.problems depths.expression with
      | [] => .ok program
      | problems => .error problems

/-- The stages behind the tokens need no places. -/
theorem Program.ofText_placeless (depths : Depths) {source : String} {tokens : List Placed}
    (hs : tokenize source = .ok tokens) :
    ((Program.ofText depths source).map Program.bare).mapError (List.map Diagnostic.placeless) =
      Program.ofStages depths ((tooDeepBracket? depths.nesting 0 tokens).map Diagnostic.placeless)
        (((Program.ofTokens tokens).map Program.bare).mapError Diagnostic.placeless) := by
  have hstages : Program.ofText depths source =
      Program.ofStages depths (tooDeepBracket? depths.nesting 0 tokens)
        (Program.ofTokens tokens) := by
    unfold Program.ofText
    rw [hs]
    rfl
  rw [hstages]
  cases tooDeepBracket? depths.nesting 0 tokens with
  | some d => rfl
  | none =>
    cases Program.ofTokens tokens with
    | error d => rfl
    | ok p =>
      have hproblems := p.problems_bare depths.expression
      have hread : ((Except.ok p : Except Diagnostic Program).map Program.bare).mapError
          Diagnostic.placeless = .ok p.bare := rfl
      simp only [Program.ofStages, Option.map_none, hread, hproblems]
      cases p.problems depths.expression <;> rfl

/-- Sources with the same meaningful tokens are the same script, or are refused with the same
diagnostics, wherever the tokens stand. -/
theorem Program.ofText_eq_of_words (depths : Depths) {source other : String}
    {tokens others : List Placed} (hs : tokenize source = .ok tokens)
    (ho : tokenize other = .ok others)
    (h : words (significant tokens) = words (significant others)) :
    ((Program.ofText depths source).map Program.bare).mapError (List.map Diagnostic.placeless) =
      ((Program.ofText depths other).map Program.bare).mapError
        (List.map Diagnostic.placeless) := by
  rw [Program.ofText_placeless depths hs, Program.ofText_placeless depths ho,
    tooDeepBracket?_eq_of_words depths.nesting h, Program.ofTokens_eq_of_words h]

end LandPattern.Script
