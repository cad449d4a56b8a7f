import LandPattern.Value.Arithmetic
import LandPattern.Value.Equality
import LandPattern.Value.Order

/-!
# Operators on two values

The operators that look at both of their operands. `and` and `or` may decide without the second one,
so evaluation treats them apart.
-/

namespace LandPattern.Value

open Script (AssignOp BinaryOp)

/-- The result of an operator on two values. -/
def combine (op : BinaryOp) (a b : Value) : Metered Value :=
  let ordered (holds : Option Ordering → Bool) : Metered Value := do
    return .bool (holds (← Act.ofExcept (order op a b)))
  match op with
  | .add => add a b
  | .sub => Act.ofExcept (subtract a b)
  | .mul => multiply a b
  | .div => Act.ofExcept (divide a b)
  | .mod => Act.ofExcept (modulo a b)
  | .eq => do return .bool (← a.equals b)
  | .ne => do return .bool (!(← a.equals b))
  | .lt => ordered fun found => found == some .lt
  | .le => ordered fun found => found == some .lt || found == some .eq
  | .gt => ordered fun found => found == some .gt
  | .ge => ordered fun found => found == some .gt || found == some .eq
  | .and | .or => throw (Fault.of (.eagerOperator op))

/-- The result of an assignment: the new value, or the old one combined with it. -/
def assigned (op : AssignOp) (old v : Value) : Metered Value :=
  match op.operator? with
  | none => pure v
  | some operator => old.combine operator v

end LandPattern.Value
