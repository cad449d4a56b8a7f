import LandPattern.Meter

/-!
# Equality of values

Numbers are equal by value, lists with lists and tuples with tuples item by item, and anything else
when it is the same. Copies of one sequence are equal without a look at their items. Every compared
pair is charged.
-/

namespace LandPattern

open Metered (charge)

mutual

/-- Whether two values are equal. -/
def Value.equals (a b : Value) : Metered Bool := do
  charge 1
  match a, b with
  | .int n, .float x => return Float.ofInt n == x
  | .float x, .int n => return Float.ofInt n == x
  | .list s, .list t =>
    if s.stamp = t.stamp then return true
    else if s.items.length ≠ t.items.length then return false
    else Value.allEqual s.items t.items
  | .tuple s, .tuple t =>
    if s.stamp = t.stamp then return true
    else if s.items.length ≠ t.items.length then return false
    else Value.allEqual s.items t.items
  | a, b => return a.same b
termination_by structural a

/-- Whether the items of two lists are equal in pairs, up to the first pair that is not. -/
def Value.allEqual (items others : List Value) : Metered Bool :=
  match items, others with
  | a :: rest, b :: more => do
    if ← a.equals b then Value.allEqual rest more else return false
  | _, _ => return true
termination_by structural items

end

/-- The position of the first item that equals a value. -/
def Value.findIn (v : Value) (items : List Value) : Metered (Option Nat) :=
  go items 0
where
  /-- The search in the items that are left, from this position on. -/
  go (items : List Value) (position : Nat) : Metered (Option Nat) :=
    match items with
    | [] => return none
    | item :: rest => do
      if ← item.equals v then return some position else go rest (position + 1)

end LandPattern
