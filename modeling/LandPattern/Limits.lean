import LandPattern.Script.Compile

/-!
# Limits

What one evaluation may use. Every limit is a bound that still lies inside: a script of exactly
`sourceBytes` bytes is read, and exactly `operations` operations may be spent.
-/

namespace LandPattern

/-- The bounds of one evaluation. -/
structure Limits where
  /-- Time that a host may let pass, in milliseconds. Results never depend on the clock. -/
  milliseconds : Nat
  /-- Operations that may be charged. -/
  operations : Nat
  /-- Script functions that may be active at once. -/
  callDepth : Nat
  /-- Items of a list or tuple, bytes of a text, and elements of a result. -/
  collection : Nat
  /-- Lists and tuples inside one another in one value. -/
  valueDepth : Nat
  /-- Brackets and blocks inside one another in the source. -/
  nesting : Nat
  /-- Nesting inside one expression of the source, operator chains included. -/
  expression : Nat
  /-- Bytes of the source. -/
  sourceBytes : Nat
  deriving DecidableEq, Repr

namespace Limits

/-- The limits that hold unless others are asked for. -/
def standard : Limits :=
  ⟨2000, 5000000, 64, 100000, 256, Script.Depths.standard.nesting,
    Script.Depths.standard.expression, 1048576⟩

/-- The limits that concern the reading of a script. -/
def depths (l : Limits) : Script.Depths := ⟨l.nesting, l.expression⟩

end Limits

end LandPattern
