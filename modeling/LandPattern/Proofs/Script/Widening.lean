import LandPattern.Script.Compile

/-!
# Reading under wider depths

The limits on nesting only ever refuse a script. A script that is read under some depths is read as
the same tree under any wider ones.
-/

namespace LandPattern.Script

/-- No depth is less than it was. -/
structure Depths.Widened (depths wider : Depths) : Prop where
  nesting : depths.nesting ≤ wider.nesting
  expression : depths.expression ≤ wider.expression

variable {limit wider : Nat}

/-- Brackets that pass the check pass it under every greater limit. -/
theorem tooDeepBracket?_widened (h : limit ≤ wider) {depth : Nat} {tokens : List Placed}
    (hn : tooDeepBracket? limit depth tokens = none) :
    tooDeepBracket? wider depth tokens = none := by
  induction tokens generalizing depth with
  | nil => rfl
  | cons t rest ih =>
    unfold tooDeepBracket? at hn ⊢
    split
    · rename_i hopening
      rw [if_pos hopening] at hn
      split at hn
      · cases hn
      · rename_i hfits
        have hroom : ¬ wider < depth + 1 := by omega
        rw [if_neg hroom]
        exact ih hn
    · rename_i hopening
      rw [if_neg hopening] at hn
      split at hn
      · rename_i hclosing
        rw [if_pos hclosing]
        exact ih hn
      · rename_i hclosing
        rw [if_neg hclosing]
        exact ih hn

/-- A walk over nodes that finds no problem finds none under a greater limit. -/
theorem visitProblems_widened (h : limit ≤ wider) {root : Span} {reported : Bool}
    {visits : List (Nat × Expr)} (hn : visitProblems limit root reported visits = []) :
    visitProblems wider root reported visits = [] := by
  induction visits with
  | nil => rfl
  | cons visit rest ih =>
    obtain ⟨depth, e⟩ := visit
    unfold visitProblems at hn
    split at hn
    · cases hn
    · rename_i hdepth
      have hboth := List.append_eq_nil_iff.1 hn
      have hstill : ¬ (wider < depth && !reported) = true := by
        simp only [Bool.and_eq_true, decide_eq_true_eq, not_and] at hdepth ⊢
        exact fun hdeeper => hdepth (by omega)
      rw [visitProblems, if_neg hstill, hboth.1, ih hboth.2]
      rfl

theorem Expr.problems_widened (h : limit ≤ wider) {e : Expr} (hn : e.problems limit = []) :
    e.problems wider = [] :=
  visitProblems_widened h hn

mutual

/-- A statement without problems has none under a greater limit. -/
theorem Stmt.problems_widened (h : limit ≤ wider) (s : Stmt) (hn : s.problems limit = []) :
    s.problems wider = [] := by
  unfold Stmt.problems at hn ⊢
  match s with
  | .bind _ _ value | .expr _ value | .giveBack _ (some value) =>
    exact Expr.problems_widened h hn
  | .giveBack _ none => rfl
  | .assign _ target _ value =>
    have hboth := List.append_eq_nil_iff.1 hn
    have htarget := List.append_eq_nil_iff.1 hboth.1
    dsimp only
    rw [htarget.1, Expr.problems_widened h htarget.2, Expr.problems_widened h hboth.2]
    rfl
  | .choose _ branches otherwise =>
    have hboth := List.append_eq_nil_iff.1 hn
    dsimp only
    rw [branchProblems_widened h branches hboth.1, elseProblems_widened h otherwise hboth.2]
    rfl
  | .loop _ _ iterable body =>
    have hboth := List.append_eq_nil_iff.1 hn
    dsimp only
    rw [Expr.problems_widened h hboth.1, Block.problems_widened h body hboth.2]
    rfl
termination_by structural s

theorem statementProblems_widened (h : limit ≤ wider) (statements : List Stmt)
    (hn : statementProblems limit statements = []) : statementProblems wider statements = [] := by
  match statements with
  | [] => rfl
  | s :: rest =>
    have hboth := List.append_eq_nil_iff.1 hn
    rw [statementProblems, s.problems_widened h hboth.1, statementProblems_widened h rest hboth.2]
    rfl
termination_by structural statements

theorem Block.problems_widened (h : limit ≤ wider) (block : Block)
    (hn : block.problems limit = []) : block.problems wider = [] := by
  match block with
  | .mk _ statements => exact statementProblems_widened h statements hn
termination_by structural block

theorem branchProblems_widened (h : limit ≤ wider) (branches : List Branch)
    (hn : branchProblems limit branches = []) : branchProblems wider branches = [] := by
  match branches with
  | [] => rfl
  | b :: rest =>
    have hboth := List.append_eq_nil_iff.1 hn
    rw [branchProblems, b.problems_widened h hboth.1, branchProblems_widened h rest hboth.2]
    rfl
termination_by structural branches

theorem Branch.problems_widened (h : limit ≤ wider) (b : Branch) (hn : b.problems limit = []) :
    b.problems wider = [] := by
  match b with
  | .mk condition body =>
    have hboth := List.append_eq_nil_iff.1 hn
    rw [Branch.problems, Expr.problems_widened h hboth.1, body.problems_widened h hboth.2]
    rfl
termination_by structural b

theorem elseProblems_widened (h : limit ≤ wider) (otherwise : Option Block)
    (hn : elseProblems limit otherwise = []) : elseProblems wider otherwise = [] := by
  match otherwise with
  | none => rfl
  | some body => exact body.problems_widened h hn
termination_by structural otherwise

end

/-- A script without problems has none under a greater limit. -/
theorem Program.problems_widened (h : limit ≤ wider) {p : Program} (hn : p.problems limit = []) :
    p.problems wider = [] := by
  have hall := List.append_eq_nil_iff.1 hn
  have hfront := List.append_eq_nil_iff.1 hall.1
  have hfunctions : p.functions.flatMap (Function.problems wider) = [] := by
    refine List.flatMap_eq_nil_iff.2 fun f hf => ?_
    have hboth := List.append_eq_nil_iff.1 (List.flatMap_eq_nil_iff.1 hfront.2 f hf)
    rw [Function.problems, hboth.1, f.body.problems_widened h hboth.2]
    rfl
  have hvalues : p.items.flatMap (Item.valueProblems wider) = [] := by
    refine List.flatMap_eq_nil_iff.2 fun item hitem => ?_
    have hvalue := List.flatMap_eq_nil_iff.1 hall.2 item hitem
    cases item with
    | function definition => rfl
    | constant name value => exact Expr.problems_widened h hvalue
  rw [Program.problems, hfront.1, hfunctions, hvalues]
  rfl

/-- A text that is read under some depths is read as the same script under wider ones. -/
theorem Program.ofText_widened {depths deeper : Depths} (h : depths.Widened deeper)
    {source : String} {p : Program} (hp : Program.ofText depths source = .ok p) :
    Program.ofText deeper source = .ok p := by
  obtain ⟨tokens, htokens, hbrackets, hprogram, hproblems⟩ := Program.stages_of_ofText hp
  have hwide := tooDeepBracket?_widened h.nesting hbrackets
  have hnone := Program.problems_widened h.expression hproblems
  simp only [Program.ofText, htokens, hwide, hprogram, hnone]

end LandPattern.Script
