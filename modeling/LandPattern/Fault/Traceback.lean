import LandPattern.Fault.Basic

/-!
# Traceback text

The active functions of a fault as lines of text, outermost first. A place is written as line and
column, both counted from one; columns count bytes, and a place beyond the end is at the end.
-/

namespace LandPattern.Fault

open Script (Span)

/-- The line of a byte of the text and the byte that line begins with: lines are counted from
`line`, which begins at byte `start`, and the text from byte `position` on. -/
def lineAt (text : List Char) (offset position line start : Nat) : Nat × Nat :=
  match text with
  | [] => (line, start)
  | c :: rest =>
    if offset ≤ position then (line, start)
    else
      let next := position + c.utf8Size
      if c == '\n' then lineAt rest offset next (line + 1) next
      else lineAt rest offset next line start

/-- Line and column of a byte of the text. -/
def Source.position (source : Source) (offset : Nat) : Nat × Nat :=
  let capped := min offset source.text.utf8ByteSize
  let (line, start) := lineAt source.text.toList capped 0 1 0
  (line, capped - start + 1)

/-- Where a frame was executing, in words. -/
def place (fault : Fault) (span : Option Span) : String :=
  match fault.source, span with
  | none, _ => "<unknown>"
  | some source, none => source.name
  | some source, some span =>
    let (line, column) := source.position span.start
    s!"{source.name}:{line}:{column}"

/-- The lines of the traceback under their heading; nothing for a fault without frames. -/
def tracebackText? (fault : Fault) : Option String :=
  if fault.frames.isEmpty then none
  else some <| "Traceback (most recent call last):\n" ++
    String.join (fault.traceback.map fun frame =>
      s!"  {fault.place frame.span}, in {frame.function}\n")

end LandPattern.Fault
