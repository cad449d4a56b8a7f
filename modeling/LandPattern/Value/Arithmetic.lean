import LandPattern.Meter
import LandPattern.Number.Binary
import LandPattern.Script.Syntax

/-!
# Arithmetic on values

Integer results are exact or refused. A float on either side makes the other operand a double.
Texts, lists and tuples are joined by `+`, and texts and lists are repeated by `*`; both are charged
by the length of what they build.
-/

namespace LandPattern.Value

open Metered (refuse charge checkLength checkRepetition checkSequence)
open Script (BinaryOp)

/-- The negated number. -/
def negate (v : Value) : Except Refusal Value :=
  match v with
  | .int n =>
    match Number.inRange? (-n) with
    | some m => .ok (.int m)
    | none => .error .negationOverflow
  | .float x => .ok (.float (-x))
  | other => .error (.negationOperand other.type)

/-- An operator on two numbers: integers exactly, anything else on doubles. -/
def arithmetic (op : BinaryOp) (onInts : Int → Int → Int) (onFloats : Float → Float → Float)
    (a b : Value) : Except Refusal Value :=
  match a, b with
  | .int n, .int m =>
    match Number.inRange? (onInts n m) with
    | some result => .ok (.int result)
    | none => .error (.overflow op)
  | a, b =>
    match a.number?, b.number? with
    | some x, some y => .ok (.float (onFloats x y))
    | _, _ => .error (.unsupportedOperands op a.type b.type)

/-- The difference. -/
def subtract (a b : Value) : Except Refusal Value :=
  arithmetic .sub (· - ·) (· - ·) a b

/-- The quotient, always a float. -/
def divide (a b : Value) : Except Refusal Value :=
  match a.number?, b.number? with
  | some x, some y =>
    if y == 0 then .error (.divisionByZero .div) else .ok (.float (x / y))
  | _, _ => .error (.unsupportedOperands .div a.type b.type)

/-- The remainder of doubles with the sign of the divisor. -/
def flooredRemainder (x y : Float) : Float :=
  let r := Number.remainder x y
  if r != 0 && (decide (r < 0) != decide (y < 0)) then r + y else r

/-- The remainder with the sign of the divisor. The least integer has no remainder by minus one,
since the quotient does not fit. -/
def modulo (a b : Value) : Except Refusal Value :=
  match a, b with
  | .int n, .int m =>
    if m = 0 then .error (.divisionByZero .mod)
    else if n = Number.minInt ∧ m = -1 then .error (.overflow .mod)
    else .ok (.int (n.fmod m))
  | a, b =>
    match a.number?, b.number? with
    | some x, some y =>
      if y == 0 then .error (.divisionByZero .mod) else .ok (.float (flooredRemainder x y))
    | _, _ => .error (.unsupportedOperands .mod a.type b.type)

/-- The items of two sequences, one after the other. -/
def concat (a b : Sequence Value) : Metered (Sequence Value) := do
  let length := a.length + b.length
  checkLength length
  charge length
  let joined := a.append b (← Metered.freshStamp)
  checkSequence joined
  return joined

/-- The sum, or one text, list or tuple after another. -/
def add (a b : Value) : Metered Value :=
  match a, b with
  | .text s, .text t => do
    checkLength (s.utf8ByteSize + t.utf8ByteSize)
    charge t.utf8ByteSize
    return .text (s ++ t)
  | .list s, .list t => return .list (← concat s t)
  | .tuple s, .tuple t => return .tuple (← concat s t)
  | a, b => Act.ofExcept (arithmetic .add (· + ·) (· + ·) a b)

/-- Items a number of times over. -/
def repeated {α : Type} (times : Nat) (items : List α) : List α :=
  if items.isEmpty then [] else (List.replicate times items).flatten

/-- The items of a list a number of times over. -/
def repeatList (s : Sequence Value) (times : Nat) : Metered Value := do
  checkRepetition s.length times
  Metered.chargeRepetition s.length times
  Metered.list (repeated times s.items)

/-- A text a number of times over. -/
def repeatText (s : String) (times : Nat) : Metered Value := do
  checkRepetition s.utf8ByteSize times
  charge (s.utf8ByteSize * times)
  return .text (String.ofList (repeated times s.toList))

/-- The product, or a list or text as often as an integer says; below zero it is empty. -/
def multiply (a b : Value) : Metered Value :=
  match a, b with
  | .list s, .int n | .int n, .list s => repeatList s n.toNat
  | .text s, .int n | .int n, .text s => repeatText s n.toNat
  | a, b => Act.ofExcept (arithmetic .mul (· * ·) (· * ·) a b)

theorem mem_repeated {α : Type} {times : Nat} {items : List α} {x : α} :
    x ∈ repeated times items ↔ times ≠ 0 ∧ x ∈ items := by
  unfold repeated
  split
  · simp_all
  · simp only [List.mem_flatten, List.mem_replicate]
    constructor
    · rintro ⟨l, ⟨positive, rfl⟩, held⟩
      exact ⟨positive, held⟩
    · rintro ⟨positive, held⟩
      exact ⟨items, ⟨positive, rfl⟩, held⟩

/-- Whatever counts each item on its own counts a repetition as often as it is repeated. -/
theorem repeated_induction {α : Type} {count : List α → Nat} (empty : count [] = 0)
    (append : ∀ front back, count (front ++ back) = count front + count back) (times : Nat)
    (items : List α) : count (repeated times items) = count items * times := by
  unfold repeated
  split
  · rename_i hempty
    rw [List.isEmpty_iff.1 hempty, empty, Nat.zero_mul]
  · induction times with
    | zero => rw [List.replicate_zero, List.flatten_nil, empty, Nat.mul_zero]
    | succ n ih => rw [List.replicate_succ, List.flatten_cons, append, ih, Nat.mul_succ, Nat.add_comm]

theorem length_repeated {α : Type} (times : Nat) (items : List α) :
    (repeated times items).length = items.length * times :=
  repeated_induction rfl (fun _ _ => List.length_append) times items

theorem byteLength_repeated (times : Nat) (text : List Char) :
    Script.byteLength (repeated times text) = Script.byteLength text * times :=
  repeated_induction Script.byteLength_nil Script.byteLength_append times text

end LandPattern.Value
