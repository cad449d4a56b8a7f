import LandPattern.Builtin.Basic

/-!
# Values

What scripts compute with. Binding, passing or returning a value copies it: no two names ever see
each other's writes. The items of a list or tuple carry a stamp, given when they are built and
renewed by every write, so that two sequences with the same stamp are copies of one another. The
nesting depth is recorded beside the items and only raised by writes, so that limits are checked
without walking them.
-/

namespace LandPattern

/-- The items of a list or tuple. -/
structure Sequence (α : Type) where
  /-- The items, in order. -/
  items : List α
  /-- The recorded nesting depth, this sequence counted as one. -/
  depth : Nat
  /-- Shared by copies, and by nothing else. -/
  stamp : Nat

/-- A value of a script. -/
inductive Value where
  /-- What a function without a result gives back. -/
  | nothing
  | bool (value : Bool)
  | int (value : Int)
  | float (value : Float)
  | text (value : String)
  | list (items : Sequence Value)
  | tuple (items : Sequence Value)
  | element (value : Element)
  /-- A function of the script, by name. -/
  | function (name : String)
  | builtin (value : Builtin)

namespace Value

/-- The type of a value as messages show it; an element shows its tag. -/
def type : Value → String
  | .nothing => "none"
  | .bool _ => "bool"
  | .int _ => "int"
  | .float _ => "float"
  | .text _ => "str"
  | .list _ => "list"
  | .tuple _ => "tuple"
  | .element e => e.tag
  | .function _ | .builtin _ => "function"

/-- The recorded nesting depth; what is not a list or tuple has none. -/
def depth : Value → Nat
  | .list s | .tuple s => s.depth
  | _ => 0

/-- The items of a list or tuple. -/
def sequence? : Value → Option (Sequence Value)
  | .list s | .tuple s => some s
  | _ => none

/-- The double that an int or float denotes. -/
def number? : Value → Option Float
  | .int n => some (Float.ofInt n)
  | .float x => some x
  | _ => none

/-- Whether two values that are no sequences are the same. Floats are compared as numbers, so that
what is no number differs from itself. -/
def same : Value → Value → Bool
  | .nothing, .nothing => true
  | .bool a, .bool b => a == b
  | .int a, .int b => a == b
  | .float a, .float b => a == b
  | .text a, .text b => a == b
  | .element a, .element b => a == b
  | .function a, .function b => a == b
  | .builtin a, .builtin b => a == b
  | _, _ => false

end Value

namespace Sequence

/-- The depth of a sequence of these items. -/
def depthOf (items : List Value) : Nat := 1 + items.foldl (fun d v => max d v.depth) 0

/-- The sequence of these items. -/
def ofItems (items : List Value) (stamp : Nat) : Sequence Value := ⟨items, depthOf items, stamp⟩

/-- How many items there are. -/
def length (s : Sequence Value) : Nat := s.items.length

/-- The position that an index stands for; negative indices count from the end. -/
def position? (length : Nat) (index : Int) : Option Nat :=
  let resolved := if index < 0 then index + length else index
  if 0 ≤ resolved ∧ resolved < length then some resolved.toNat else none

/-- The item at an index. -/
def get? (s : Sequence Value) (index : Int) : Option Value :=
  (position? s.length index).bind fun p => s.items[p]?

/-- The sequence with the item at a position replaced. -/
def set (s : Sequence Value) (position : Nat) (item : Value) (stamp : Nat) : Sequence Value :=
  ⟨s.items.set position item, max s.depth (item.depth + 1), stamp⟩

/-- The sequence with an item added at the end. -/
def push (s : Sequence Value) (item : Value) (stamp : Nat) : Sequence Value :=
  ⟨s.items ++ [item], max s.depth (item.depth + 1), stamp⟩

/-- The sequence without its last item, and that item. -/
def pop? (s : Sequence Value) (stamp : Nat) : Option (Sequence Value × Value) :=
  s.items.getLast?.map fun last => (⟨s.items.dropLast, s.depth, stamp⟩, last)

/-- The sequence without the item at a position. -/
def erase (s : Sequence Value) (position : Nat) (stamp : Nat) : Sequence Value :=
  ⟨s.items.eraseIdx position, s.depth, stamp⟩

/-- The items of two sequences, one after the other. -/
def append (a b : Sequence Value) (stamp : Nat) : Sequence Value :=
  ⟨a.items ++ b.items, max a.depth b.depth, stamp⟩

theorem position?_lt {length : Nat} {index : Int} {p : Nat}
    (h : position? length index = some p) : p < length := by
  simp only [position?] at h
  split at h <;> simp at h <;> omega

end Sequence

end LandPattern
