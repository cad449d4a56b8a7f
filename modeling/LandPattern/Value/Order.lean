import LandPattern.Fault.Cause
import LandPattern.Value.Basic

/-!
# Order of values

Numbers are ordered by size and texts by their code points. What is no number has no place in the
order, and neither has a value of any other type.
-/

namespace LandPattern

open Script (BinaryOp)

namespace Number

/-- How two doubles are ordered; not at all, when one of them is no number. -/
def order? (x y : Float) : Option Ordering :=
  if x < y then some .lt
  else if x == y then some .eq
  else if y < x then some .gt
  else none

end Number

namespace Value

/-- How two numbers are ordered: integers exactly, anything else as doubles. -/
def numberOrder? (a b : Value) : Option (Option Ordering) :=
  match a, b with
  | .int n, .int m => some (some (compare n m))
  | a, b =>
    match a.number?, b.number? with
    | some x, some y => some (Number.order? x y)
    | _, _ => none

/-- How the operands of a comparison are ordered. -/
def order (op : BinaryOp) (a b : Value) : Except Refusal (Option Ordering) :=
  match a, b with
  | .text s, .text t => .ok (some (compare s t))
  | a, b =>
    match numberOrder? a b with
    | some found => .ok found
    | none => .error (.incomparable op a.type b.type)

end Value

end LandPattern
