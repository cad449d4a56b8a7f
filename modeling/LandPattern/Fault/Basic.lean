import LandPattern.Fault.Cause

/-!
# Faults

A fault is a cause with the places it concerns and the functions that were active. The first
primary mark is where it arose: locating a fault again changes nothing. While a fault passes out of
the active functions each of them leaves a frame, whose place is the call that was running in it,
or for the innermost one the place of the fault.
-/

namespace LandPattern

open Script (Diagnostic Span)

namespace Fault

/-- A place in the source that a fault concerns. -/
structure Mark where
  /-- The place. -/
  span : Span
  /-- A remark about it. -/
  text : Option String
  /-- Whether the fault arose there, and is not only related to it. -/
  primary : Bool
  deriving DecidableEq

/-- A function that was active when a fault arose. -/
structure Frame where
  /-- Its name. -/
  function : String
  /-- What it was executing. -/
  span : Option Span
  deriving DecidableEq

/-- The script that spans refer to. -/
structure Source where
  /-- What reports call it. -/
  name : String
  /-- Its text. -/
  text : String
  deriving DecidableEq

end Fault

/-- Why and where an evaluation ended without a result. -/
structure Fault where
  /-- Why. -/
  cause : Fault.Cause
  /-- The places it concerns, in the order they were attached. -/
  marks : List Fault.Mark
  /-- What could be done about it. -/
  help : Option String
  /-- The functions that were active, innermost first. -/
  frames : List Fault.Frame
  /-- The call that was running in the function being left. -/
  site : Option Span
  /-- Problems found together with the first one. -/
  related : List Diagnostic
  /-- The script, once it is known. -/
  source : Option Fault.Source
  deriving DecidableEq

namespace Fault

/-- A fault without a place. -/
def of (cause : Cause) : Fault := ⟨cause, [], cause.help?, [], none, [], none⟩

/-- A refused operation, without a place. -/
def refusal (why : Refusal) : Fault := of (.refusal why)

/-- The fault of a text that is not a script: the first problem leads, the others are related. -/
def ofDiagnostics : List Diagnostic → Fault
  | [] => of .notAScript
  | first :: others =>
    { of (.problem first) with
      marks := first.labels.map fun label => ⟨label.span, some label.text, label.primary⟩
      related := others }

/-- Where the fault arose. -/
def span? (fault : Fault) : Option Span := (fault.marks.find? Mark.primary).map Mark.span

/-- The fault with a primary mark here, unless it has one already. -/
def mark (fault : Fault) (span : Span) (text : Option String) : Fault :=
  if fault.span?.isSome then fault
  else { fault with marks := fault.marks ++ [⟨span, text, true⟩] }

/-- The fault placed here, unless it has a place already. -/
def locate (fault : Fault) (span : Span) : Fault := fault.mark span none

/-- The fault with this help. -/
def withHelp (fault : Fault) (help : String) : Fault := { fault with help := some help }

/-- The fault after it has passed out of a function that was called from here. -/
def leave (fault : Fault) (function : String) (callSite : Span) : Fault :=
  { fault with
    frames := fault.frames ++ [⟨function, fault.site.or fault.span?⟩]
    site := some callSite }

/-- The fault with the script it belongs to. -/
def withSource (fault : Fault) (name text : String) : Fault :=
  { fault with source := some ⟨name, text⟩ }

/-- The category of the fault. -/
def kind (fault : Fault) : Kind := fault.cause.kind

/-- The fault in words. -/
def message (fault : Fault) : String := fault.cause.message

/-- The active functions, outermost first. -/
def traceback (fault : Fault) : List Frame := fault.frames.reverse

/-- The fault on one line. -/
def line (fault : Fault) : String := fault.kind.word ++ ": " ++ fault.message

@[simp] theorem span?_mark (fault : Fault) (span : Span) (text : Option String) :
    (fault.mark span text).span? = some (fault.span?.getD span) := by
  unfold mark
  cases h : fault.span? with
  | some s => simp [h]
  | none =>
    have none_primary : fault.marks.find? Mark.primary = none := by
      simpa [span?] using h
    simp [span?, none_primary]

/-- The first place wins. -/
theorem locate_locate (fault : Fault) (a b : Span) :
    (fault.locate a).locate b = fault.locate a := by
  have located : (fault.locate a).span?.isSome = true := by simp [locate]
  rw [locate, mark, if_pos located]

end Fault

end LandPattern
