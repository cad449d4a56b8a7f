import LandPattern.Element.Record
import LandPattern.Fault.Traceback
import LandPattern.Run.Program

/-!
# Footprints

A footprint is made by evaluating the text of a script under limits. Every fault carries the text
and its name, so that its places can be shown. The output is the records of the elements as JSON,
or a single record with the report of the fault.
-/

namespace LandPattern

open Script (Program)

/-- How one evaluation ended. -/
structure Footprint where
  /-- The elements, or why there are none. -/
  result : Except Fault (List Element)
  /-- What the evaluation used; nothing, if it did not begin. -/
  meter : Meter

namespace Footprint

/-- The name of a script that is not read from a file. -/
def inlineName : String := "<script>"

/-- Evaluates a text that is no larger than the limit, without its name. -/
def ofText (limits : Limits) (text : String) : Footprint :=
  match Program.ofText limits.depths text with
  | .error problems => ⟨.error (Fault.ofDiagnostics problems), Meter.zero⟩
  | .ok program =>
    let (result, machine) := program.run limits
    ⟨result, machine.meter⟩

/-- Evaluates a text under a name. -/
def evaluate (limits : Limits) (name text : String) : Footprint :=
  let length := text.utf8ByteSize
  let made :=
    if limits.sourceBytes < length then
      ⟨.error (Fault.of (.oversized length limits.sourceBytes)), Meter.zero⟩
    else ofText limits text
  match made.result with
  | .ok _ => made
  | .error fault => { made with result := .error (fault.withSource name text) }

/-- The records of the output. `report` writes the report of a fault. -/
def records (report : Fault → String) (footprint : Footprint) : List Record :=
  match footprint.result with
  | .ok elements => LandPattern.records elements
  | .error fault => [.error (report fault)]

end Footprint

end LandPattern
