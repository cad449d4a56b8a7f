import LandPattern.Proofs.Script.Spelling

/-!
# What the printer writes

The tokens of the printer spell the tree. Of all trees, only a choice without branches has no
spelling: there is no `if` without a condition.
-/

namespace LandPattern.Script

/-- Parentheses make every spelling fit. -/
theorem Spells.fit {own : Nat} {e : Expr} {ts : List Token} (h : Spells own e ts) (level : Nat) :
    Spells level e (fit level own ts) := by
  unfold Script.fit
  split
  · exact .group (h.mono (Nat.zero_le own))
  · rename_i hlt
    exact h.mono (Nat.le_of_not_lt hlt)

theorem argumentForms_eq_tokens (args : List Argument) :
    argumentForms args = args.map fun a => a.tokens a.value.form := by
  rw [argumentForms_eq_map]
  exact List.map_congr_left fun a _ => a.form_eq_tokens

mutual

/-- Printed operands fit their places, whatever the expression is. -/
theorem Expr.form_spelled (e : Expr) : Spells e.level e e.form := by
  match e with
  | .int s v => exact .literal (s := s) rfl
  | .float s v => exact .literal (s := s) rfl
  | .text s v => exact .literal (s := s) rfl
  | .bool s true => exact .literal (s := s) rfl
  | .bool s false => exact .literal (s := s) rfl
  | .none s => exact .literal (s := s) rfl
  | .name s t => exact .literal (s := s) rfl
  | .list s items =>
    have h : Spells calleeLevel (.list s ((items.map fun e => (e, e.form)).map Prod.fst)) _ :=
      .list false (by simpa using forms_spelled items)
    simpa [Function.comp_def, Expr.form, forms_eq_map, Expr.level] using h
  | .tuple s items =>
    have h : Spells calleeLevel (.tuple s ((items.map fun e => (e, e.form)).map Prod.fst)) _ :=
      .tuple (items.length == 1) (by simpa using forms_spelled items) (by simp)
    simpa [Function.comp_def, Expr.form, forms_eq_map, Expr.level] using h
  | .unary s op operand => exact .unary (Nat.le_refl _) (operand.form_spelled.fit op.level)
  | .binary s op left right =>
    exact .binary (Nat.le_refl _) (left.form_spelled.fit op.leftLevel)
      (right.form_spelled.fit (op.level + 1))
  | .call s callee args =>
    have h : Spells calleeLevel
        (.call s callee ((args.map fun a => (a, a.value.form)).map Prod.fst)) _ :=
      .call false (callee.form_spelled.fit calleeLevel) (by simpa using argumentForms_spelled args)
    simpa [Function.comp_def, Expr.form, argumentForms_eq_tokens, Expr.level] using h
  | .method s receiver name args =>
    have h : Spells calleeLevel
        (.method s receiver name ((args.map fun a => (a, a.value.form)).map Prod.fst)) _ :=
      .method false (receiver.form_spelled.fit fieldLevel)
        (by simpa using argumentForms_spelled args)
    simpa [Function.comp_def, Expr.form, argumentForms_eq_tokens, Expr.level] using h
  | .field s object name =>
    exact .field (Nat.le_refl _) (object.form_spelled.fit fieldLevel)
  | .index s object position =>
    exact .index (object.form_spelled.fit fieldLevel) (position.form_spelled.mono (Nat.zero_le _))
termination_by structural e

/-- Printed items may stand where nothing waits for them. -/
theorem forms_spelled (items : List Expr) : ∀ e ∈ items, Spells 0 e e.form := by
  match items with
  | [] => simp
  | e :: rest =>
    intro x hx
    rcases List.mem_cons.mp hx with hx | hx
    · rw [hx]
      exact e.form_spelled.mono (Nat.zero_le _)
    · exact forms_spelled rest x hx
termination_by structural items

/-- Printed arguments may stand where nothing waits for them. -/
theorem argumentForms_spelled (args : List Argument) :
    ∀ a ∈ args, Spells 0 a.value a.value.form := by
  match args with
  | [] => simp
  | .positional value :: rest =>
    intro x hx
    rcases List.mem_cons.mp hx with hx | hx
    · rw [hx]
      exact value.form_spelled.mono (Nat.zero_le _)
    · exact argumentForms_spelled rest x hx
  | .keyword name value :: rest =>
    intro x hx
    rcases List.mem_cons.mp hx with hx | hx
    · rw [hx]
      exact value.form_spelled.mono (Nat.zero_le _)
    · exact argumentForms_spelled rest x hx
termination_by structural args

end

/-- A printed expression may stand where one of its level is asked for. -/
theorem Expr.print_spelled (e : Expr) (level : Nat) : Spells level e (e.print level) :=
  e.form_spelled.fit level

/-- An expression in a statement is printed without parentheses around it. -/
theorem Expr.form_spelled_zero (e : Expr) : Spells 0 e e.form :=
  e.form_spelled.mono (Nat.zero_le _)

mutual

/-- Every choice in the statement has a branch. -/
def Stmt.Complete (s : Stmt) : Prop :=
  match s with
  | .choose _ branches otherwise =>
    branches ≠ [] ∧ completeBranches branches ∧ completeOtherwise otherwise
  | .loop _ _ _ body => body.Complete
  | _ => True
termination_by structural s

/-- Every choice in the branches has a branch. -/
def completeBranches (branches : List Branch) : Prop :=
  match branches with
  | [] => True
  | b :: rest => b.Complete ∧ completeBranches rest
termination_by structural branches

/-- Every choice in the guarded block has a branch. -/
def Branch.Complete (b : Branch) : Prop :=
  match b with
  | .mk _ body => body.Complete
termination_by structural b

/-- Every choice in the last block has a branch. -/
def completeOtherwise (otherwise : Option Block) : Prop :=
  match otherwise with
  | none => True
  | some body => body.Complete
termination_by structural otherwise

/-- Every choice in the block has a branch. -/
def Block.Complete (block : Block) : Prop :=
  match block with
  | .mk _ statements => completeStatements statements
termination_by structural block

/-- Every choice in the statements has a branch. -/
def completeStatements (statements : List Stmt) : Prop :=
  match statements with
  | [] => True
  | s :: rest => s.Complete ∧ completeStatements rest
termination_by structural statements

end

/-- Every choice in the definition has a branch. -/
def Item.Complete : Item → Prop
  | .function f => f.body.Complete
  | .constant _ _ => True

/-- Every choice in the script has a branch. -/
def Program.Complete (p : Program) : Prop := ∀ item ∈ p.items, item.Complete

/-- The tokens of a part of a body. -/
def Part.print : Part → List Token
  | .statement s => s.print
  | .statements rest => printStatements rest
  | .block b => b.print
  | .branches rest otherwise => printBranches rest ++ printOtherwise otherwise

/-- Every choice in the part has a branch; the branches of a choice are not none. -/
def Part.Complete : Part → Prop
  | .statement s => s.Complete
  | .statements rest => completeStatements rest
  | .block b => b.Complete
  | .branches rest otherwise => rest ≠ [] ∧ completeBranches rest ∧ completeOtherwise otherwise

mutual

/-- A printed statement is spelled when its choices have branches. -/
theorem Stmt.print_spelled (s : Stmt) (h : s.Complete) : SpellsPart (.statement s) s.print := by
  match s with
  | .bind _ name value => exact .bind value.form_spelled_zero
  | .assign _ target op value => exact .assign target.form_spelled_zero value.form_spelled_zero
  | .expr _ value => exact .expr value.form_spelled_zero
  | .giveBack _ none => exact .giveNothing
  | .giveBack _ (some value) => exact .giveBack value.form_spelled_zero
  | .choose _ branches otherwise =>
    obtain ⟨hne, hb, ho⟩ := h
    exact .choose (printBranches_spelled branches hne hb otherwise
      (printOtherwise_spelled otherwise ho))
  | .loop _ var iterable body =>
    exact .loop iterable.form_spelled_zero (body.print_spelled h)
termination_by structural s

/-- Printed branches are spelled together with the last block, when there is one. -/
theorem printBranches_spelled (branches : List Branch) (hne : branches ≠ [])
    (h : completeBranches branches) (otherwise : Option Block)
    (ho : ∀ body, otherwise = some body → SpellsPart (.block body) body.print) :
    SpellsPart (.branches branches otherwise)
      (printBranches branches ++ printOtherwise otherwise) := by
  match branches with
  | [] => exact absurd rfl hne
  | .mk condition body :: [] =>
    have hb := body.print_spelled h.1
    cases otherwise with
    | none => simpa [printBranches, Branch.print, printOtherwise] using
        SpellsPart.last condition.form_spelled_zero hb
    | some other => simpa [printBranches, Branch.print, printOtherwise] using
        SpellsPart.otherwise condition.form_spelled_zero hb (ho other rfl)
  | .mk condition body :: next :: rest =>
    have hb := body.print_spelled h.1
    have hr := printBranches_spelled (next :: rest) (by simp) h.2 otherwise ho
    simpa [printBranches, Branch.print] using
      SpellsPart.branch condition.form_spelled_zero hb hr
termination_by structural branches

/-- The last printed block is spelled when it is there. -/
theorem printOtherwise_spelled (otherwise : Option Block) (h : completeOtherwise otherwise) :
    ∀ body, otherwise = some body → SpellsPart (.block body) body.print := by
  match otherwise with
  | none => simp
  | some body =>
    rintro other ⟨⟩
    exact body.print_spelled h
termination_by structural otherwise

/-- A printed block is spelled when its choices have branches. -/
theorem Block.print_spelled (block : Block) (h : block.Complete) :
    SpellsPart (.block block) block.print := by
  match block with
  | .mk _ statements => exact .block (printStatements_spelled statements h)
termination_by structural block

/-- Printed statements are spelled when their choices have branches. -/
theorem printStatements_spelled (statements : List Stmt) (h : completeStatements statements) :
    SpellsPart (.statements statements) (printStatements statements) := by
  match statements with
  | [] => exact .nil
  | s :: rest => exact .cons (s.print_spelled h.1) (printStatements_spelled rest h.2)
termination_by structural statements

end

/-- A printed script is spelled when its choices have branches. -/
theorem Program.print_spelled {p : Program} (h : p.Complete) : p.SpelledBy p.print := by
  obtain ⟨items⟩ := p
  induction items with
  | nil => exact .nil
  | cons item rest ih =>
    have hrest : Program.SpelledBy ⟨rest⟩ (Program.print ⟨rest⟩) :=
      ih fun other hother => h other (List.mem_cons_of_mem item hother)
    refine .cons ?_ hrest
    have hitem := h item List.mem_cons_self
    cases item with
    | function f => exact .function false (f.body.print_spelled hitem)
    | constant name value => exact .constant value.form_spelled_zero

/-- Whatever is spelled has a branch in every choice. -/
theorem SpellsPart.complete {part : Part} {ts : List Token} (h : SpellsPart part ts) :
    part.Complete := by
  induction h with
  | choose _ ih => exact ih
  | loop _ _ ih => exact ih
  | cons _ _ hs hr => exact ⟨hs, hr⟩
  | block _ ih => exact ih
  | last _ _ hb => exact ⟨by simp, ⟨hb, trivial⟩, trivial⟩
  | otherwise _ _ _ hb ho => exact ⟨by simp, ⟨hb, trivial⟩, ho⟩
  | branch _ _ _ hb hr => exact ⟨by simp, ⟨hb, hr.2.1⟩, hr.2.2⟩
  | _ => trivial

/-- A script that is spelled has a branch in every choice. -/
theorem Program.SpelledBy.complete {p : Program} {ts : List Token} (h : p.SpelledBy ts) :
    p.Complete := by
  obtain ⟨items⟩ := p
  change SpellsItems items ts at h
  induction h with
  | nil => exact fun item hitem => absurd hitem (by simp)
  | cons hi _ ih =>
    intro item hitem
    rcases List.mem_cons.mp hitem with rfl | hrest
    · cases hi with
      | function _ hb => exact hb.complete
      | constant _ => trivial
    · exact ih item hrest

end LandPattern.Script
