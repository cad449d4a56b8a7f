import LandPattern.Number.Integer

/-!
# Doubles as exact numbers

Every finite double is a whole number of steps of 2^-1074, the distance between neighbours around
zero. Working on steps keeps remainders, truncation, comparison and decimal text exact, in
arithmetic on naturals.
-/

namespace LandPattern.Number

-- Powers are those of the core library, whatever else stands before this in a file.
attribute [local instance] corePow

/-- What a double denotes. -/
inductive Binary where
  /-- No number. -/
  | nan
  /-- One of the two infinities. -/
  | infinite (negative : Bool)
  /-- A sign and a whole number of steps of 2^-1074; zero has both signs. -/
  | finite (negative : Bool) (steps : Nat)
  deriving DecidableEq, Repr

/-- How many steps make one. -/
def stepsPerOne : Nat := 2 ^ (1074 : Nat)

/-- How many doublings separate the spacing of doubles at this size from one step. -/
def spacingLog (steps : Nat) : Nat := steps.log2 + 1 - 53

/-- Reads the fields of the binary form: a sign, eleven exponent bits, fifty-two fraction bits. -/
def Binary.ofFloat (x : Float) : Binary :=
  let bits := x.toBits.toNat
  let negative := bits / 2 ^ (63 : Nat) % 2 == 1
  let exponent := bits / 2 ^ (52 : Nat) % 2 ^ (11 : Nat)
  let fraction := bits % 2 ^ (52 : Nat)
  if exponent = 2 ^ (11 : Nat) - 1 then
    if fraction = 0 then .infinite negative else .nan
  else if exponent = 0 then .finite negative fraction
  else .finite negative ((2 ^ (52 : Nat) + fraction) * 2 ^ (exponent - 1))

/-- The double with this sign and this many steps, when there is one; otherwise the low bits that
do not fit are dropped. -/
def ofSteps (negative : Bool) (steps : Nat) : Float :=
  let shift := spacingLog steps
  let sign := if negative then 2 ^ (63 : Nat) else 0
  Float.ofBits (UInt64.ofNat (sign + shift * 2 ^ (52 : Nat) + steps / 2 ^ shift))

/-- The infinite double with the sign asked for. -/
def infinity (negative : Bool) : Float :=
  Float.ofBits (UInt64.ofNat
    ((if negative then 2 ^ (63 : Nat) else 0) + (2 ^ (11 : Nat) - 1) * 2 ^ (52 : Nat)))

/-- The double that is no number. -/
def notANumber : Float := Float.ofBits (UInt64.ofNat ((2 ^ (12 : Nat) - 1) * 2 ^ (51 : Nat)))

/-- The remainder of a truncated quotient, with the sign of the dividend; exact, so never rounded.
Infinite dividends and zero divisors have none, and an infinite divisor leaves a finite dividend
as it is. -/
def remainder (a b : Float) : Float :=
  match Binary.ofFloat a, Binary.ofFloat b with
  | .finite negative steps, .finite _ divisor =>
    if divisor = 0 then notANumber else ofSteps negative (steps % divisor)
  | .finite _ _, .infinite _ => a
  | _, _ => notANumber

/-- The integer part toward zero, or nothing for infinities and for what is no number. -/
def truncate? (x : Float) : Option Int :=
  match Binary.ofFloat x with
  | .finite negative steps =>
    let whole : Int := (steps / stepsPerOne : Nat)
    some (if negative then -whole else whole)
  | _ => none

end LandPattern.Number
