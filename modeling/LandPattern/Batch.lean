import LandPattern.CommandLine
import LandPattern.Footprint
import LandPattern.Number.Fixed
import LandPattern.Settings

/-!
# Batches

A batch evaluates the scripts of a command line, each path once. A script that fails takes its place
in the output as a single record, and does not stop the others. One script is written as an array of
records, several as an object with an array for each path.
-/

namespace LandPattern

/-- What the summary of a run says about the extent of elements. -/
def extentText (elements : List Element) : String :=
  match extentOf elements with
  | none => "none"
  | some e =>
    let n := Number.threePlaces
    s!"{n e.width} x {n e.height} from ({n e.minX}, {n e.minY}) to ({n e.maxX}, {n e.maxY})"

namespace Footprint

/-- A footprint that was not begun. -/
def refused (cause : Fault.Cause) : Footprint := ⟨.error (Fault.of cause), Meter.zero⟩

/-- Evaluates the script at a path, under the path as its name. The length is looked at before
anything is read. -/
def ofFile (limits : Limits) (disk : Disk) (path : String) : Footprint :=
  match disk.find path with
  | .error why => refused (.unreadable path why.words)
  | .ok found =>
    if limits.sourceBytes < found.length then
      refused (.oversized found.length limits.sourceBytes)
    else match found with
      | .directory => refused (.unreadable path PathProblem.isADirectory.words)
      | .file bytes =>
        match Text.ofBytes bytes with
        | .error encoding => refused (.notText path encoding)
        | .ok text => evaluate limits path text

/-- The fault, if there is one. -/
def fault? (footprint : Footprint) : Option Fault :=
  match footprint.result with
  | .ok _ => none
  | .error fault => some fault

/-- The elements, if there is no fault. -/
def elements? (footprint : Footprint) : Option (List Element) :=
  match footprint.result with
  | .ok elements => some elements
  | .error _ => none

end Footprint

/-- The footprints of a run. -/
structure Batch where
  /-- Every footprint with the path of its script, in the order of the command line. -/
  footprints : List (String × Footprint)
  /-- Whether the output is spread over lines. -/
  pretty : Bool

namespace Batch

/-- Evaluates scripts by their paths; a path that is repeated counts where it comes first. -/
def evaluate (settings : Settings) (disk : Disk) (inputs : List String) : Batch :=
  ⟨inputs.eraseDups.map fun path => (path, Footprint.ofFile settings.limits disk path),
    settings.pretty⟩

/-- How many scripts were evaluated. -/
def evaluated (batch : Batch) : Nat := batch.footprints.length

/-- The faults of the scripts that failed. -/
def faults (batch : Batch) : List Fault := batch.footprints.filterMap (·.2.fault?)

/-- The extents of the scripts that did not fail, in words. -/
def extents (batch : Batch) : List String :=
  batch.footprints.filterMap fun entry => entry.2.elements?.map extentText

/-- The output as a JSON value. `report` writes the report of a fault. -/
def json (report : Fault → String) (batch : Batch) : Json :=
  match batch.footprints with
  | [(_, footprint)] => recordArray (footprint.records report)
  | footprints =>
    .object (footprints.map fun (path, footprint) => (path, recordArray (footprint.records report)))

/-- The text of the output. -/
def output (report : Fault → String) (batch : Batch) : String :=
  (batch.json report).write batch.pretty ++ "\n"

/-- The settings of a command line. Its switch for output over lines comes before the file's. -/
def settings (disk : Disk) (line : CommandLine) (userPath : String) :
    Except HostProblem Settings := do
  let settings ← Settings.find disk line.config userPath
  return { settings with pretty := settings.pretty || line.pretty }

/-- Runs a command line. The settings are found before anything is evaluated, and all scripts are
evaluated before the output is begun. -/
def run (disk : Disk) (line : CommandLine) (userPath : String) : Except HostProblem Batch := do
  let settings ← settings disk line userPath
  let batch := evaluate settings disk line.inputs
  match line.output with
  | none => return batch
  | some path =>
    match disk.checkWritable path with
    | .ok () => return batch
    | .error why => throw (.path why)

end Batch

end LandPattern
