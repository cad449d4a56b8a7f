import LandPattern.Fault.Traceback

/-!
# Reports

What is told about a fault: its line, every place it concerns with the remark about it, the way to
it, the help, and the problems that were found together with it.
-/

namespace LandPattern.Fault

/-- The lines about the places a fault concerns. -/
def placeLines (fault : Fault) : List String :=
  fault.marks.map fun mark =>
    s!"  at {fault.place (some mark.span)}" ++ match mark.text with
      | none => ""
      | some text => ": " ++ text

/-- The report of a fault, as lines of text. -/
def report (fault : Fault) : String :=
  let ended (lines : List String) := String.join (lines.map (· ++ "\n"))
  ended [fault.line] ++ ended fault.placeLines ++ fault.tracebackText?.getD "" ++
    ended (fault.help.toList.map ("  help: " ++ ·)) ++
    ended (fault.related.map fun diagnostic => diagnostic.line)

end LandPattern.Fault
