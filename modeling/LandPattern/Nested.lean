/-!
# Nested lists

Results come as lists inside lists. Flattening walks them depth first and from the left, keeping a
stack of the lists that are still to be walked, so that no depth is too much for it.
-/

namespace LandPattern

/-- A leaf, or a list of further nested lists. -/
inductive Nested (α : Type) where
  | leaf (value : α)
  | list (items : List (Nested α))

namespace Nested

variable {α : Type}

mutual

/-- How many steps a walk through it takes. -/
def weight (n : Nested α) : Nat :=
  match n with
  | .leaf _ => 1
  | .list items => listWeight items + 1

/-- How many steps a walk through a list takes, its end included. -/
def listWeight (items : List (Nested α)) : Nat :=
  match items with
  | [] => 1
  | n :: rest => n.weight + listWeight rest

end

/-- How many steps are left when these lists are still to be walked. -/
def stackWeight : List (List (Nested α)) → Nat
  | [] => 0
  | items :: outer => listWeight items + stackWeight outer

/-- The leaves found so far, in reverse, and then those of the lists on the stack. -/
def walk (stack : List (List (Nested α))) (found : List α) : List α :=
  match stack with
  | [] => found.reverse
  | [] :: outer => walk outer found
  | (.leaf value :: rest) :: outer => walk (rest :: outer) (value :: found)
  | (.list items :: rest) :: outer => walk (items :: rest :: outer) found
termination_by stackWeight stack
decreasing_by all_goals (simp only [stackWeight, listWeight, weight]; omega)

/-- The leaves, depth first and from the left. -/
def flatten (n : Nested α) : List α := walk [[n]] []

end Nested

end LandPattern
