import LandPattern.Fault.Basic
import LandPattern.Nested
import LandPattern.Value.Text

/-!
# Results as elements

The value that a footprint returns is an element, or lists and tuples of elements to any depth. It
is checked and counted depth first and from the left, so that the first offender decides the fault.
-/

namespace LandPattern.Value

mutual

/-- The elements of a value as a nested list, and how many elements there are with those counted
before. `path` leads to the value, the last step first; `limit` is how many elements there may
be. -/
def toNested (limit : Nat) (path : List Nat) (count : Nat) (v : Value) :
    Except Fault (Nested Element × Nat) :=
  match v with
  | .element e =>
    if limit < count + 1 then .error (Fault.of (.tooManyElements limit))
    else .ok (.leaf e, count + 1)
  | .list s | .tuple s => do
    let (items, counted) ← toNestedItems limit path 0 count s.items
    return (.list items, counted)
  | other => .error (Fault.of (.notAnElement path.reverse other.describe))
termination_by structural v

/-- The elements of the items from a position on, in the same way. -/
def toNestedItems (limit : Nat) (path : List Nat) (position count : Nat) (items : List Value) :
    Except Fault (List (Nested Element) × Nat) :=
  match items with
  | [] => .ok ([], count)
  | v :: rest => do
    let (nested, counted) ← toNested limit (position :: path) count v
    let (others, total) ← toNestedItems limit path (position + 1) counted rest
    return (nested :: others, total)
termination_by structural items

end

/-- The elements of a value, depth first and from the left. -/
def elements (limit : Nat) (v : Value) : Except Fault (List Element) := do
  let (nested, _) ← v.toNested limit [] 0
  return nested.flatten

end LandPattern.Value
