/-!
# Script integers

The integers of a script are the 64-bit signed ones. An operation works on `Int` and its result is
kept only when it lies in the range, so nothing ever wraps around.
-/

namespace LandPattern.Number

/-- The powers of the core library, under a name of their own: taken before any other instance, they
are what a power means here whatever stands before this in a file. -/
abbrev corePow {α : Type} [NatPow α] : Pow α Nat := instPowNat

attribute [local instance] corePow

/-- The least script integer. -/
def minInt : Int := -(2 ^ (63 : Nat))

/-- The greatest script integer. -/
def maxInt : Int := 2 ^ (63 : Nat) - 1

/-- Greatest length or count that fits a 64-bit word; larger products stop there. -/
def maxCount : Nat := 2 ^ (64 : Nat) - 1

/-- The range of script integers. -/
def InRange (n : Int) : Prop := minInt ≤ n ∧ n ≤ maxInt

instance (n : Int) : Decidable (InRange n) := inferInstanceAs (Decidable (_ ∧ _))

/-- An integer result, or nothing when it leaves the range. -/
def inRange? (n : Int) : Option Int := if InRange n then some n else none

theorem inRange?_eq_some_iff {n m : Int} : inRange? n = some m ↔ InRange n ∧ n = m := by
  unfold inRange?
  split <;> simp_all

theorem inRange?_eq_none_iff {n : Int} : inRange? n = none ↔ ¬ InRange n := by
  unfold inRange?
  split <;> simp_all

/-- The value of a digit character. -/
def digitValue (c : Char) : Nat := c.toNat - '0'.toNat

/-- The number that a row of decimal digits denotes. -/
def ofDigits (digits : List Char) : Nat :=
  digits.foldl (fun n c => 10 * n + digitValue c) 0

/-- An optional sign and at least one decimal digit, with nothing else and a value in range. -/
def readInt? (text : List Char) : Option Int :=
  match text with
  | '-' :: digits => signed digits (-1)
  | '+' :: digits => signed digits 1
  | digits => signed digits 1
where
  signed (digits : List Char) (sign : Int) : Option Int :=
    if digits.isEmpty || !digits.all Char.isDigit then none
    else inRange? (sign * (ofDigits digits : Int))

end LandPattern.Number
