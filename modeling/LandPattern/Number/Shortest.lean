import LandPattern.Number.Binary

/-!
# Shortest decimals

The decimal digits of a double are the fewest that read back as the same double, and of those the
nearest to it. A decimal reads back exactly when it lies between the midpoints to the two
neighbouring doubles, ends included when the double's own significand is even. For one, two, up to
seventeen digits the two neighbours of the double on that decimal grid are tested in exact
arithmetic; the first grid with a hit is the answer.
-/

namespace LandPattern.Number

-- Powers are those of the core library, whatever else stands before this in a file.
attribute [local instance] corePow

/-- What is taken when two decimals of the same length are equally near. -/
inductive Tie where
  /-- The larger one. -/
  | up
  /-- The one that ends in an even digit. -/
  | even
  deriving DecidableEq, Repr

/-- The number `digits · 10 ^ exponent`. -/
structure Decimal where
  /-- The digits, read as one whole number. -/
  digits : Nat
  /-- The power of ten of the last digit. -/
  exponent : Int
  deriving DecidableEq, Repr

/-- How many decimal digits a positive number has. -/
def decimalLength (n : Nat) : Nat :=
  let low := n.log2 * 30103 / 100000
  if n < 10 ^ (low + 1) then low + 1 else low + 2

/-- The power of ten of the first digit of a positive number of steps. -/
def leadingExponent (steps : Nat) : Int :=
  (decimalLength (steps * 10 ^ (330 : Nat) / stepsPerOne) : Int) - 331

/-- The midpoints below and above, in quarters of a step. Below a power of two the doubles lie
twice as dense, so the lower midpoint is nearer there. -/
def midpoints (steps : Nat) : Nat × Nat :=
  let spacing := 2 ^ spacingLog steps
  let below := if spacing ≠ 1 && steps == 2 ^ (52 : Nat) * spacing then spacing else 2 * spacing
  (4 * steps - below, 4 * steps + 2 * spacing)

/-- Reading back an end of the interval gives the double itself only when its significand is
even. -/
def endsIncluded (steps : Nat) : Bool := steps / 2 ^ spacingLog steps % 2 == 0

/-- The neighbour of a number of steps on the grid of multiples of `10 ^ exponent` that reads back,
the nearer one if both do. -/
def onGrid (tie : Tie) (steps : Nat) (exponent : Int) : Option Nat :=
  let unit := 4 * stepsPerOne * 10 ^ exponent.toNat
  let scale := 10 ^ (-exponent).toNat
  let value := 4 * steps * scale
  let (low, high) := midpoints steps
  let readsBack (c : Nat) : Bool :=
    if endsIncluded steps then low * scale ≤ c * unit && c * unit ≤ high * scale
    else low * scale < c * unit && c * unit < high * scale
  let under := value / unit
  let gapUnder := value - under * unit
  let gapOver := (under + 1) * unit - value
  match readsBack under, readsBack (under + 1) with
  | false, false => none
  | true, false => some under
  | false, true => some (under + 1)
  | true, true =>
    if gapUnder < gapOver then some under
    else if gapOver < gapUnder then some (under + 1)
    else match tie with
      | .up => some (under + 1)
      | .even => some (if under % 2 == 0 then under else under + 1)

/-- The decimal of one grid, with a carry into a new first digit shortened to that digit. -/
def withDigits (tie : Tie) (steps : Nat) (count : Nat) : Option Decimal :=
  let exponent := leadingExponent steps + 1 - count
  (onGrid tie steps exponent).map fun c =>
    if c = 10 ^ count then ⟨1, exponent + count⟩ else ⟨c, exponent⟩

/-- The shortest decimal of a positive number of steps. Seventeen digits always read back. -/
def shortest (tie : Tie) (steps : Nat) : Decimal :=
  ((List.range 17).findSome? fun count => withDigits tie steps (count + 1)).getD ⟨0, 0⟩

end LandPattern.Number
