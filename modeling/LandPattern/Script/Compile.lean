import LandPattern.Script.Draft
import LandPattern.Script.Lexeme
import LandPattern.Script.WellFormed

/-!
# From text to script

A text becomes a script in four stages: tokens, the bracket check, the tree, and the rules on the
tree. The first stage that finds problems answers with all of its own.
-/

namespace LandPattern.Script

/-- How deep a script may nest. -/
structure Depths where
  /-- Deepest nesting of brackets and blocks. -/
  nesting : Nat
  /-- Deepest nesting inside one expression, operator chains included. -/
  expression : Nat
  deriving DecidableEq, Repr

/-- The depths allowed unless others are asked for. -/
def Depths.standard : Depths := ⟨64, 256⟩

/-- The script that a text writes, or the problems of the first stage that finds some. -/
def Program.ofText (depths : Depths) (source : String) : Except (List Diagnostic) Program :=
  match tokenize source with
  | .error problems => .error problems
  | .ok tokens =>
    match tooDeepBracket? depths.nesting 0 tokens with
    | some problem => .error [problem]
    | none =>
      match Program.ofTokens tokens with
      | .error problem => .error [problem]
      | .ok program =>
        match program.problems depths.expression with
        | [] => .ok program
        | problems => .error problems

/-- What a script has passed when it was read. -/
theorem Program.stages_of_ofText {depths : Depths} {source : String} {p : Program}
    (h : Program.ofText depths source = .ok p) :
    ∃ tokens, tokenize source = .ok tokens ∧ tooDeepBracket? depths.nesting 0 tokens = none ∧
      Program.ofTokens tokens = .ok p ∧ p.problems depths.expression = [] := by
  unfold Program.ofText at h
  split at h
  · cases h
  · rename_i tokens htokens
    split at h
    · cases h
    · rename_i hbrackets
      split at h
      · cases h
      · rename_i program hprogram
        split at h
        · rename_i hproblems
          cases h
          exact ⟨tokens, htokens, hbrackets, hprogram, hproblems⟩
        · cases h

end LandPattern.Script
