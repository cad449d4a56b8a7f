import LandPattern.Act
import LandPattern.Limits
import LandPattern.Number.Integer
import LandPattern.Value.Basic

/-!
# The meter

Everything that an evaluation does beyond looking at values is charged to a meter, and checked
against the limits. The meter is kept also when a fault ends the evaluation, so that every outcome
tells what it used.
-/

namespace LandPattern

/-- Rounds of loops and of repetitions, by what there is to do in them. -/
structure Rounds where
  /-- Rounds that run statements or copy items. -/
  busy : Nat
  /-- Rounds of loops whose body is empty. -/
  idle : Nat
  /-- Rounds of repetitions of an empty list. -/
  hollow : Nat
  deriving DecidableEq, Repr

namespace Rounds

/-- No rounds. -/
def zero : Rounds := ⟨0, 0, 0⟩

/-- One round of a loop whose body has so many statements. -/
def ofLoop (statements : Nat) : Rounds := if statements = 0 then ⟨0, 1, 0⟩ else ⟨1, 0, 0⟩

/-- The rounds of a repetition of so many items. -/
def ofRepetition (items times : Nat) : Rounds :=
  if items = 0 then ⟨0, 0, times⟩ else ⟨times, 0, 0⟩

/-- These rounds and further ones. -/
def add (rounds more : Rounds) : Rounds :=
  ⟨rounds.busy + more.busy, rounds.idle + more.idle, rounds.hollow + more.hollow⟩

/-- How many rounds there are. -/
def total (rounds : Rounds) : Nat := rounds.busy + rounds.idle + rounds.hollow

end Rounds

/-- What an evaluation has used so far. -/
structure Meter where
  /-- Operations charged. -/
  operations : Nat
  /-- Rounds of loops and of repetitions that were run. -/
  rounds : Rounds
  /-- Statements and expressions that are being evaluated at this moment. -/
  active : Nat
  /-- The most statements and expressions that were evaluated at one moment. -/
  peak : Nat
  /-- The next stamp for a list or tuple. -/
  nextStamp : Nat
  deriving DecidableEq, Repr

/-- The meter of an evaluation that has not begun. -/
def Meter.zero : Meter := ⟨0, .zero, 0, 0, 0⟩

/-- The meter when one more statement or expression begins. -/
def Meter.begin (meter : Meter) : Meter :=
  { meter with active := meter.active + 1, peak := max meter.peak (meter.active + 1) }

/-- The meter when a statement or expression has ended. -/
def Meter.finish (meter : Meter) : Meter := { meter with active := meter.active - 1 }

/-- A product of counts, held at the greatest count of a machine word. -/
def saturatingProduct (a b : Nat) : Nat := min (a * b) Number.maxCount

/-- What may be charged, may refuse, and has no other effect. -/
abbrev Metered := Act Limits Meter

namespace Metered

/-- Ends with a refused operation. -/
def refuse {α : Type} (why : Refusal) : Metered α := throw (Fault.refusal why)

/-- Charges a number of operations; the budget may be used up, but not exceeded. -/
def charge (cost : Nat) : Metered Unit := do
  modify fun meter => { meter with operations := meter.operations + cost }
  let limit := (← read).operations
  if limit < (← get).operations then throw (Fault.of (.budget limit))

/-- Counts rounds. -/
def countRounds (rounds : Rounds) : Metered Unit :=
  modify fun meter => { meter with rounds := meter.rounds.add rounds }

/-- Charges a repetition by the items that it builds, and counts its rounds. -/
def chargeRepetition (length times : Nat) : Metered Unit := do
  charge (length * times)
  countRounds (.ofRepetition length times)

/-- A stamp that no sequence has yet. -/
def freshStamp : Metered Nat :=
  modifyGet fun meter => (meter.nextStamp, { meter with nextStamp := meter.nextStamp + 1 })

/-- Refuses a collection with too many items, or a text with too many bytes. -/
def checkLength (length : Nat) : Metered Unit := do
  let limit := (← read).collection
  if limit < length then refuse (.tooLong length limit)

/-- Refuses a repetition of so many items or bytes that is too long. What no machine word counts
cannot be built, so the length that is named is held there while the check is exact. -/
def checkRepetition (length times : Nat) : Metered Unit := do
  let limit := (← read).collection
  if limit < length * times then refuse (.tooLong (saturatingProduct length times) limit)

/-- Refuses too deep a nesting of lists and tuples. -/
def checkDepth (depth : Nat) : Metered Unit := do
  let limit := (← read).valueDepth
  if limit < depth then refuse (.tooDeep limit)

/-- Refuses a sequence with too many items or too deep a nesting. -/
def checkSequence (s : Sequence Value) : Metered Unit := do
  checkLength s.length
  checkDepth s.depth

/-- Refuses a value that is too long or nested too deep. -/
def checkValue (v : Value) : Metered Unit :=
  match v with
  | .list s | .tuple s => checkSequence s
  | .text text => checkLength text.utf8ByteSize
  | _ => pure ()

/-- A new sequence of these items. -/
def sequence (items : List Value) : Metered (Sequence Value) := do
  return Sequence.ofItems items (← freshStamp)

/-- A new list of these items. -/
def list (items : List Value) : Metered Value := do
  return .list (← sequence items)

end Metered

end LandPattern
